import BytecodeToC.Proofs.FoldRun

/-!
The arena of a listing while it is folded. References lead to earlier nodes, no node is referred to
twice, and every expression node stands for a tree that folds have made, so that it has a value.
-/

namespace BytecodeToC

namespace ExprTree

inductive Built (list : Listing) : ExprTree → Prop
  | leaf (instr : Instr) : Built list (.leaf instr)
  | fold {op operands tree} (folds : Folds list op operands tree)
      (built : ∀ operand ∈ operands, Built list operand) : Built list tree

theorem Built.of_names {list next : Listing} (same : next.names = list.names) {tree : ExprTree}
    (built : Built list tree) : Built next tree := by
  induction built with
  | leaf instr => exact .leaf instr
  | fold folds _ ih => exact .fold (folds.of_names same) ih

theorem Folds.pushed? {list : Listing} {op : Opcode} {operands : List ExprTree} {tree : ExprTree}
    (folds : Folds list op operands tree) : ∃ value, tree.pushed? list = some value := by
  cases folds with
  | @unary node operand value result operator given fits load =>
      exact ⟨result, by rw [pushed?_unary, given, Option.bind_some, fits]⟩
  | @binary node left right leftValue rightValue result operator leftGiven rightGiven calm fits =>
      exact ⟨result, by simp [ExprTree.pushed?, operand?, leftGiven, rightGiven, fits]⟩

end ExprTree

namespace Listing

def references (list : Listing) : List NodeId :=
  list.order ++ list.nodes.toList.flatMap Instr.operands

structure Sound (list : Listing) : Prop where
  descending : list.Descending
  known : ∀ id : Nat, id ∈ list.references → id < list.nodes.size
  distinct : list.references.Nodup
  built : ∀ id instr, list.node? id = some instr →
    ∃ tree, list.Denotes id tree ∧ ExprTree.Built list tree

theorem Elementary.references_eq {list : Listing} (elementary : list.Elementary) :
    list.references = list.order := by
  have none : list.nodes.toList.flatMap Instr.operands = [] := by
    rw [List.flatMap_eq_nil_iff]
    intro instr member
    obtain ⟨id, bound, rfl⟩ := List.getElem_of_mem member
    exact elementary.leaves id _ (by simp [node?])
  rw [references, none, List.append_nil]

theorem Elementary.sound {list : Listing} (elementary : list.Elementary) : list.Sound := by
  refine ⟨elementary.represents.descending, ?_, ?_, ?_⟩
  · rw [elementary.references_eq]
    exact elementary.known
  · rw [elementary.references_eq]
    exact elementary.distinct
  · intro id instr found
    exact ⟨_, .leaf found (elementary.leaves id instr found), .leaf instr⟩

/-- The references after a fold: those before it, less the one to the operator, and the new node. -/
theorem references_withNode {list : Listing} {before operands after : List NodeId}
    {operator : NodeId} (split : list.order = before ++ operands ++ operator :: after) {node : Instr}
    (same : node.operands = operands) :
    list.references.Perm
        (operator :: (before ++ operands ++ after ++ list.nodes.toList.flatMap Instr.operands)) ∧
      (list.withNode before after node).references.Perm
        (list.nodes.size ::
          (before ++ operands ++ after ++ list.nodes.toList.flatMap Instr.operands)) := by
  constructor
  · rw [List.perm_iff_count]
    intro id
    simp only [references, split, List.count_append, List.count_cons]
    omega
  · rw [List.perm_iff_count]
    intro id
    simp only [references, withNode, Array.toList_push, List.flatMap_append, List.flatMap_singleton,
      same, List.count_append, List.count_cons]
    omega

theorem Sound.built_of_denotes {list : Listing} (sound : list.Sound) {id : NodeId} {tree : ExprTree}
    (denotes : list.Denotes id tree) : ExprTree.Built list tree := by
  obtain ⟨instr, found⟩ := denotes.found
  obtain ⟨other, again, built⟩ := sound.built id instr found
  rwa [denotes.unique again]

theorem Sound.denoted {list : Listing} (sound : list.Sound) {ids : List NodeId}
    (known : ∀ id : Nat, id ∈ ids → id < list.nodes.size) :
    ∃ trees, List.Forall₂ list.Denotes ids trees ∧ ∀ tree ∈ trees, ExprTree.Built list tree := by
  induction ids with
  | nil => exact ⟨[], .nil, by simp⟩
  | cons id rest ih =>
      obtain ⟨tree, denotes, built⟩ :=
        sound.built id _ (Array.getElem?_eq_getElem (known id (by simp)))
      obtain ⟨trees, denoted, others⟩ := ih fun other member => known other (by simp [member])
      exact ⟨tree :: trees, .cons denotes denoted, by simpa using ⟨built, others⟩⟩

theorem Sound.withNode {list : Listing} (sound : list.Sound) {before operands after : List NodeId}
    {operator : NodeId} {op : Opcode} {node : Instr}
    (split : list.order = before ++ operands ++ operator :: after)
    (foldable : list.Foldable op operands node) : (list.withNode before after node).Sound := by
  obtain ⟨old, new⟩ := references_withNode split foldable.operands_eq
  have operandsKnown : ∀ operand : Nat, operand ∈ operands → operand < list.nodes.size :=
    fun operand member => sound.known operand (by simp [references, split, member])
  -- All references are to nodes that exist, so that the new id is none of them.
  have fresh : list.nodes.size ∉
      before ++ operands ++ after ++ list.nodes.toList.flatMap Instr.operands := fun member =>
    Nat.lt_irrefl _ (sound.known _ (old.mem_iff.mpr (List.mem_cons_of_mem _ member)))
  constructor
  · apply sound.descending.withNode
    rw [foldable.operands_eq]
    exact operandsKnown
  · intro id member
    rw [show (list.withNode before after node).nodes.size = list.nodes.size + 1 by
      simp [Listing.withNode]]
    rcases List.mem_cons.mp (new.mem_iff.mp member) with rfl | older
    · exact Nat.lt_succ_self _
    · exact Nat.lt_succ_of_lt (sound.known id (old.mem_iff.mpr (List.mem_cons_of_mem _ older)))
  · have rest := (old.nodup_iff.mp sound.distinct).of_cons
    exact new.nodup_iff.mpr (List.nodup_cons.mpr ⟨fresh, rest⟩)
  · have names : (list.withNode before after node).names = list.names := rfl
    intro id instr found
    rcases node?_withNode found with older | ⟨rfl, rfl⟩
    · obtain ⟨tree, denotes, built⟩ := sound.built id instr older
      exact ⟨tree, denotes.withNode .., built.of_names names⟩
    · obtain ⟨trees, denoted, built⟩ := sound.denoted operandsKnown
      obtain ⟨tree, folds, denotes⟩ := foldable.folds sound.descending denoted
      have made : ExprTree.Built list tree := .fold folds built
      exact ⟨tree, denotes before after, made.of_names names⟩

theorem Sound.foldAt? {list next : Listing} (sound : list.Sound) {pos start : Nat}
    (folded : list.foldAt? pos = some (start, next)) : next.Sound := by
  obtain ⟨before, operands, operator, after, op, immediate, node, split, found, foldable, rfl, rfl,
    rfl⟩ := (foldAt?_eq_some_iff ..).mp folded
  exact sound.withNode split foldable

theorem Sound.foldRun {list last : Listing} {count : Nat} (sound : list.Sound)
    (run : FoldRun count list last) : last.Sound := by
  induction run with
  | done list => exact sound
  | step folded rest ih => exact ih (sound.foldAt? folded)

/-- An expression node has a value, and finding it takes no more steps than nodes precede it. -/
theorem Sound.renderWithin {list : Listing} (sound : list.Sound) {id : Nat} {instr : Instr}
    (found : list.node? id = some instr) (composite : instr.operands ≠ []) :
    ∃ tree value, list.Denotes id tree ∧ ExprTree.Built list tree ∧
      tree.pushed? list = some value ∧
      ∀ fuel : Nat, id < fuel → list.renderWithin fuel instr = .ok value := by
  obtain ⟨tree, denotes, built⟩ := sound.built id instr found
  have pushes : ∃ value, tree.pushed? list = some value := by
    cases built with
    | leaf other =>
        obtain ⟨known, elementary⟩ := denotes
        obtain rfl := Option.some.inj (known.symm.trans found)
        exact absurd elementary composite
    | fold folds _ => exact folds.pushed?
  obtain ⟨value, pushed⟩ := pushes
  refine ⟨tree, value, denotes, built, pushed, ?_⟩
  intro fuel enough
  have shallow : tree.depth ≤ id + 1 := denotes.depth_le sound.descending
  rw [← Result.toOption_eq_some_iff, denotes.renderWithin found composite (by omega), pushed]

theorem Sound.render {list : Listing} (sound : list.Sound) {id : Nat} {instr : Instr}
    (found : list.node? id = some instr) (composite : instr.operands ≠ []) :
    ∃ tree value, list.Denotes id tree ∧ ExprTree.Built list tree ∧
      tree.pushed? list = some value ∧ list.render instr = .ok value := by
  obtain ⟨tree, value, denotes, built, pushed, rendered⟩ := sound.renderWithin found composite
  have bound := lt_size_of_node? found
  exact ⟨tree, value, denotes, built, pushed, rendered _ (by omega)⟩

end Listing

end BytecodeToC
