/-!
The pool of string and class literals of a C unit. An entry keeps the offset it got when
it was first asked for.
-/

namespace BytecodeToC

inductive PoolEntry where
  | string (text : String)
  | type (name : String)
deriving DecidableEq, Repr

def PoolEntry.text : PoolEntry → String
  | string text => text
  | type name => name

structure ConstantPool where
  entries : List PoolEntry := []
deriving DecidableEq, Repr, Inhabited

namespace ConstantPool

def empty : ConstantPool := {}

def intern (pool : ConstantPool) (entry : PoolEntry) : Nat × ConstantPool :=
  match pool.entries.idxOf? entry with
  | some offset => (offset, pool)
  | none => (pool.entries.length, { entries := pool.entries ++ [entry] })

theorem intern_get (pool : ConstantPool) (entry : PoolEntry) :
    (pool.intern entry).2.entries[(pool.intern entry).1]? = some entry := by
  unfold intern
  split
  · rename_i offset found
    obtain ⟨bound, same, _⟩ := List.idxOf?_eq_some_iff.mp found
    simp [List.getElem?_eq_getElem bound, same]
  · simp

theorem entries_prefix_intern (pool : ConstantPool) (entry : PoolEntry) :
    pool.entries <+: (pool.intern entry).2.entries := by
  unfold intern
  split
  · exact List.prefix_rfl
  · exact List.prefix_append _ _

theorem intern_nodup {pool : ConstantPool} (distinct : pool.entries.Nodup) (entry : PoolEntry) :
    (pool.intern entry).2.entries.Nodup := by
  unfold intern
  split
  · exact distinct
  · rename_i absent
    have fresh : entry ∉ pool.entries := List.idxOf?_eq_none_iff.mp absent
    rw [List.nodup_append]
    refine ⟨distinct, by simp, ?_⟩
    intro first member second single
    simp only [List.mem_singleton] at single
    subst single
    intro same
    exact fresh (same ▸ member)

end ConstantPool

end BytecodeToC
