import BytecodeToC.Assembly
import BytecodeToC.Proofs.Result

/-!
The instructions that records make, and how far assembly gets through the records of a method. What a
record turns into is said once, with the checks it has passed; properties of assembled instructions
are read off from there. Assembly stops at the first record it refuses, whatever the constant pool
holds, and by then has interned the literals of the records before it.
-/

namespace BytecodeToC

open Result

namespace Record

inductive Makes : Record → Instr → Prop
  | shortForm {op operand code slot} : Makes (.simple op operand) (.localVar code slot none)
  | basic {op operand code} : Makes (.simple op operand) (.basic code operand)
  | localVar {op given name tag code slot} :
      Makes (.localVar op given name tag) (.localVar code slot none)
  | namedLocal {op given name tag code slot kind}
      (checked : LocalName.check code slot name kind = .ok ()) :
      Makes (.localVar op given (some name) tag) (.namedLocal code slot name kind none)
  | increment {slot delta} :
      Makes (.increment slot delta none) (.localVar .iinc slot (some delta))
  | namedIncrement {slot delta name} (checked : LocalName.check .iinc slot name 'I' = .ok ()) :
      Makes (.increment slot delta (some name)) (.namedLocal .iinc slot name 'I' (some delta))
  | field {op owner name descriptor useThis code} (access : isFieldOpcode code = true) :
      Makes (.field op owner name descriptor useThis)
        (.field { op := code, owner, name, descriptor, useThis })
  | invoke {op owner name descriptor literalArgs text selfCall discardResult dispatch receiver} :
      Makes (.invoke op owner name descriptor literalArgs text selfCall discardResult)
        (.invoke { dispatch, owner, name, descriptor, literalArgs, receiver, discardResult })
  | jump {op target condition code} : Makes (.jump op target condition) (.jump code target condition)
  | label {id} : Makes (.label id) (.label id)
  | switch {default given low targets keys} :
      Makes (.switch default given low targets) (.switch default keys targets)
  | type {op typeName code} (operation : isTypeOpcode code = true)
      (valid : TypeName.isValid typeName = true)
      (plain : code = .new → TypeName.isArray typeName = false) :
      Makes (.type op typeName) (.type code typeName)
  | newArray {element code} : Makes (.newArray element) (.basic .newarray code)
  | multiArray {descriptor dimensions} :
      Makes (.multiArray descriptor dimensions) (.multiArray descriptor dimensions)
  | constant {value} : Makes (.constant value) (.constant value none)

theorem makes_localInstr {op : String} {given : Option Slot} {name : Option String}
    {tag : Option Char} {instr : Instr} (made : localInstr op given name tag = .ok instr) :
    Makes (.localVar op given name tag) instr := by
  simp only [localInstr] at made
  obtain ⟨⟨code, slot⟩, _, made⟩ := (bind_eq_ok_iff ..).mp made
  split at made
  next => simp at made
  next =>
    split at made
    next => simp at made
    next =>
      cases name with
      | none =>
          cases made
          exact .localVar
      | some name =>
          obtain ⟨_, checked, rfl⟩ := (map_eq_ok_iff ..).mp made
          exact .namedLocal checked

theorem makes_of_instr {record : Record} {instr : Instr} (made : record.instr = .ok instr) :
    record.Makes instr := by
  cases record with
  | simple op operand =>
      simp only [Record.instr] at made
      split at made
      next =>
        cases made
        exact .shortForm
      next =>
        obtain ⟨code, _, made⟩ := (bind_eq_ok_iff ..).mp made
        split at made
        next => simp at made
        next =>
          cases made
          exact .basic
  | localVar op slot name tag => exact makes_localInstr made
  | increment slot delta name =>
      cases name with
      | none =>
          cases made
          exact .increment
      | some name =>
          obtain ⟨_, checked, rfl⟩ := (map_eq_ok_iff ..).mp made
          exact .namedIncrement checked
  | field op owner name descriptor useThis =>
      obtain ⟨code, _, made⟩ := (bind_eq_ok_iff ..).mp made
      split at made
      next access =>
        obtain ⟨_, _, made⟩ := (bind_eq_ok_iff ..).mp made
        cases made
        exact .field access
      next => simp at made
  | invoke op owner name descriptor literalArgs text selfCall discardResult =>
      obtain ⟨dispatch, _, made⟩ := (bind_eq_ok_iff ..).mp made
      obtain ⟨receiver, _, made⟩ := (bind_eq_ok_iff ..).mp made
      cases made
      exact .invoke
  | jump op target condition =>
      obtain ⟨code, _, made⟩ := (bind_eq_ok_iff ..).mp made
      cases made
      exact .jump
  | label id =>
      cases made
      exact .label
  | switch default keys low targets =>
      obtain ⟨given, _, made⟩ := (bind_eq_ok_iff ..).mp made
      cases made
      exact .switch
  | type op typeName =>
      obtain ⟨code, _, made⟩ := (bind_eq_ok_iff ..).mp made
      split at made
      next => simp at made
      next operation =>
        split at made
        next => simp at made
        next sound =>
          cases made
          simp only [Bool.or_eq_true, Bool.not_eq_true', not_or, Bool.not_eq_false] at sound
          exact .type (by simpa using operation) sound.1 (by simpa using sound.2)
  | newArray element =>
      simp only [Record.instr, newArrayInstr] at made
      split at made
      next =>
        cases made
        exact .newArray
      next => simp at made
  | multiArray descriptor dimensions =>
      cases made
      exact .multiArray
  | constant value =>
      cases made
      exact .constant

end Record

/-! Literals -/

def Constant.poolEntry? : Constant → Option PoolEntry
  | .string text => some (.string text)
  | .type name => some (.type name)
  | _ => none

def Record.literal? : Record → Option PoolEntry
  | .constant value => value.poolEntry?
  | _ => none

namespace ConstantPool

def internAll (pool : ConstantPool) (entries : List PoolEntry) : ConstantPool :=
  entries.foldl (fun grown entry => (grown.intern entry).2) pool

theorem place_of_makes (pool : ConstantPool) {record : Record} {instr : Instr}
    (makes : record.Makes instr) : (pool.place instr).2 = pool.internAll record.literal?.toList := by
  cases makes with
  | @constant value => cases value <;> rfl
  | _ => rfl

end ConstantPool

/-! How far assembly gets -/

namespace Listing

theorem bindNameOf_place (list : Listing) (pool : ConstantPool) (instr : Instr) :
    list.bindNameOf (pool.place instr).1 = list.bindNameOf instr := by
  unfold ConstantPool.place
  split <;> rfl

theorem names_bindNameOf {list other : Listing} (same : list.names = other.names) (instr : Instr) :
    (list.bindNameOf instr).map names = (other.bindNameOf instr).map names := by
  unfold bindNameOf
  split
  · split
    · unfold bindName boundName?
      rw [same]
      split
      · split
        · simp [Except.map, same]
        · rfl
      · split <;> simp [Except.map]
    · simp [Except.map, same]
  · simp [Except.map, same]

theorem literal?_of_refused {record : Record} {instr : Instr} (makes : record.Makes instr)
    {list : Listing} {error : Error} (refused : list.bindNameOf instr = .error error) :
    record.literal? = none := by
  cases makes with
  | constant => simp [bindNameOf] at refused
  | _ => rfl

theorem names_append (list : Listing) (receiverStable : Bool) (instr : Instr) :
    (list.append receiverStable instr).names = list.names := by
  unfold append
  split
  · split <;> rfl
  · rfl

/-- The records before the first one that assembly refuses, from a listing with names given so far. -/
def accepted : List Record → Listing → List Record
  | [], _ => []
  | record :: rest, list =>
    match record.instr.bind list.bindNameOf with
    | .ok named => record :: accepted rest named
    | .error _ => []

theorem appendRecords_accepted (receiverStable : Bool) (records : List Record)
    {list named : Listing} (same : list.names = named.names) (pool : ConstantPool) :
    (appendRecords receiverStable records list pool).2 =
        pool.internAll ((accepted records named).filterMap Record.literal?) ∧
      ((appendRecords receiverStable records list pool).1.toBool = true ↔
        accepted records named = records) := by
  induction records generalizing list named pool with
  | nil => exact ⟨rfl, by simp [appendRecords, accepted, Except.toBool]⟩
  | cons record rest ih =>
      cases made : record.instr with
      | error error => simp [appendRecords, accepted, made, Except.bind, ConstantPool.internAll,
          Except.toBool]
      | ok instr =>
          have makes := Record.makes_of_instr made
          have bound := names_bindNameOf same instr
          cases other : named.bindNameOf instr with
          | error error =>
              rw [other, Except.map] at bound
              have refused : list.bindNameOf instr = .error error := by
                cases here : list.bindNameOf instr <;> simp_all [Except.map]
              have pools := pool.place_of_makes makes
              rw [literal?_of_refused makes refused] at pools
              simp [appendRecords, accepted, made, other, Except.bind, bindNameOf_place, refused, pools,
                ConstantPool.internAll, Except.toBool]
          | ok next =>
              rw [other] at bound
              obtain ⟨after, here, names⟩ := (map_eq_ok_iff ..).mp bound
              have placed := pool.place_of_makes makes
              have step : (after.append receiverStable (pool.place instr).1).names = next.names :=
                (names_append ..).trans names
              obtain ⟨pools, whole⟩ := ih step (pool.place instr).2
              have read : accepted (record :: rest) named = record :: accepted rest next := by
                simp [accepted, made, other, Except.bind]
              simp only [appendRecords, made, bindNameOf_place, here]
              rw [read, pools, whole, placed]
              cases literal : record.literal? <;> simp [literal, ConstantPool.internAll]

theorem names_appendRegions (entries : List TryEntry) (list : Listing) (scope : MethodScope) :
    (appendRegions entries list scope).1.names = list.names := by
  induction entries generalizing list scope with
  | nil => rfl
  | cons entry rest ih =>
      simp only [appendRegions]
      split
      · exact ih list scope
      · exact ih _ _

end Listing

namespace MethodDecl

def recordsRead (method : MethodDecl) : List Record := Listing.accepted method.code .empty

def literals (method : MethodDecl) : List PoolEntry := method.recordsRead.filterMap Record.literal?

theorem assemble_recordsRead (method : MethodDecl) (unit : UnitState) :
    (method.assemble unit).2.pool = unit.pool.internAll method.literals ∧
      ((method.assemble unit).1.toBool = true ↔ method.recordsRead = method.code) := by
  have names : (Listing.appendRegions method.tryCatch .empty unit.scope).1.names =
      Listing.empty.names := Listing.names_appendRegions ..
  exact Listing.appendRecords_accepted method.receiverStable method.code names unit.pool

end MethodDecl

end BytecodeToC
