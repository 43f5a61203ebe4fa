import BytecodeToC.Proofs.Arena

/-!
Folds as edits of one listing in place. An edit can give up, which undoes none of its changes, and it
can use a position that the order does not have, which is an error. A fold made in this way never
runs into such an error, and where it gives up it has not changed anything yet; where it succeeds,
one new node takes the place of an operator and its operands.
-/

namespace BytecodeToC

namespace Opcode

def operandCount (op : Opcode) : Nat :=
  if op.binary?.isSome || op.isArrayLoad then 2
  else if op.unary?.isSome || op = .arraylength || op = .dup then 1
  else 0

theorem operandCount_of_binary {op : Opcode} {node : BinaryNode}
    (operator : BinaryNode.ofOpcode? op = some node) : op.operandCount = 2 := by
  grind [operandCount, BinaryNode.ofOpcode?]

theorem operandCount_of_unary {op : Opcode} {node : UnaryNode}
    (operator : UnaryNode.ofOpcode? op = some node) : op.operandCount = 1 := by
  have other := BinaryNode.ofOpcode?_of_unary operator
  grind [operandCount, BinaryNode.ofOpcode?, UnaryNode.ofOpcode?]

end Opcode

namespace Listing

theorem Foldable.length_operands {list : Listing} {op : Opcode} {operands : List NodeId}
    {node : Instr} (foldable : list.Foldable op operands node) :
    operands.length = op.operandCount := by
  cases foldable with
  | dup operator | unary operator => exact (Opcode.operandCount_of_unary operator).symm
  | binary operator => exact (Opcode.operandCount_of_binary operator).symm

/-- A fold at a position: the operator there fits the operands just before it, and one new node that
refers to them takes the place of them all. Nothing else changes. -/
structure Folded (list : Listing) (pos : Nat) (op : Opcode) (node : Instr) (next : Listing) :
    Prop where
  operator : ∃ immediate, list.at? pos = some (.basic op immediate)
  enough : op.operandCount ≤ pos
  children : node.operands = (list.order.drop (pos - op.operandCount)).take op.operandCount
  foldable : list.Foldable op node.operands node
  nodes : next.nodes = list.nodes.push node
  order : next.order =
    list.order.take (pos - op.operandCount) ++ list.nodes.size :: list.order.drop (pos + 1)
  names : next.names = list.names

theorem order_eq_window {order : List NodeId} {pos count : Nat} {operator : NodeId}
    (enough : count ≤ pos) (present : order[pos]? = some operator) :
    order = order.take (pos - count) ++ (order.drop (pos - count)).take count ++
      operator :: order.drop (pos + 1) := by
  obtain ⟨within, rfl⟩ := List.getElem?_eq_some_iff.mp present
  rw [← List.take_add, Nat.sub_add_cancel enough, ← List.drop_eq_getElem_cons within,
    List.take_append_drop]

theorem Folded.eq_withNode {list next : Listing} {pos : Nat} {op : Opcode} {node : Instr}
    (folded : list.Folded pos op node next) :
    next = list.withNode (list.order.take (pos - op.operandCount)) (list.order.drop (pos + 1))
      node := by
  obtain ⟨nodes, order, names⟩ := next
  rw [withNode, mk.injEq]
  exact ⟨folded.nodes, folded.order, folded.names⟩

theorem foldAt?_eq_some_iff_folded (list : Listing) (pos start : Nat) (next : Listing) :
    list.foldAt? pos = some (start, next) ↔
      ∃ op node, list.Folded pos op node next ∧ start = pos - op.operandCount := by
  rw [foldAt?_eq_some_iff]
  constructor
  · rintro ⟨before, operands, operator, after, op, immediate, node, split, found, foldable, rfl, rfl,
      rfl⟩
    have count := foldable.length_operands
    have same := foldable.operands_eq
    have first : before.length + operands.length - op.operandCount = before.length := by omega
    have standing : list.at? (before.length + operands.length) = some (.basic op immediate) := by
      rw [at?, split, List.getElem?_append_right (by simp)]
      simpa using found
    have children : operands = (list.order.drop before.length).take op.operandCount := by
      rw [split, ← count]
      simp
    refine ⟨op, node, ?_, first.symm⟩
    constructor
    · exact ⟨immediate, standing⟩
    · omega
    · rw [first, same]
      exact children
    · rwa [same]
    · rfl
    · rw [first]
      exact congrArg Listing.order (replaceWindow_alloc split node).symm
    · rfl
  · rintro ⟨op, node, folded, rfl⟩
    obtain ⟨immediate, standing⟩ := folded.operator
    obtain ⟨operator, present, found⟩ := Option.bind_eq_some_iff.mp standing
    have within := (List.getElem?_eq_some_iff.mp present).1
    have enough := folded.enough
    have count := folded.foldable.length_operands
    have first : (list.order.take (pos - op.operandCount)).length = pos - op.operandCount := by
      rw [List.length_take]
      omega
    refine ⟨list.order.take (pos - op.operandCount), node.operands, operator,
      list.order.drop (pos + 1), op, immediate, node, ?_, found, folded.foldable, by omega,
      first.symm, folded.eq_withNode⟩
    rw [folded.children]
    exact order_eq_window enough present

section Positions

variable {list : Listing} {pos : Nat}

theorem lt_length_of_at? {instr : Instr} (found : list.at? pos = some instr) :
    pos < list.order.length := by
  obtain ⟨id, present, _⟩ := Option.bind_eq_some_iff.mp found
  exact (List.getElem?_eq_some_iff.mp present).1

theorem lt_length_of_assignableAt? {value : Value} (found : list.assignableAt? pos = some value) :
    pos < list.order.length := by
  obtain ⟨instr, present, _⟩ := Option.bind_eq_some_iff.mp found
  exact lt_length_of_at? present

theorem two_le_of_operandsBefore? {operands : NodeId × NodeId}
    (found : list.operandsBefore? pos = some operands) : 2 ≤ pos := by
  obtain ⟨before, _, _, _, _, _, _, rfl, _⟩ := (operandsBefore?_eq_some_iff ..).mp found
  omega

theorem one_le_of_operandBefore? {operand : NodeId}
    (found : list.operandBefore? pos = some operand) : 1 ≤ pos := by
  obtain ⟨before, _, _, _, _, rfl, _⟩ := (operandBefore?_eq_some_iff ..).mp found
  omega

theorem one_le_of_dupSource? {source : NodeId} (found : list.dupSource? pos = some source) :
    1 ≤ pos := by
  obtain ⟨before, _, _, _, rfl, _⟩ := (dupSource?_eq_some_iff ..).mp found
  omega

theorem assignableAt?_objectLoad {instr : Instr} (found : list.at? pos = some instr)
    (load : isObjectLoad instr = true) :
    ∃ value, list.assignableAt? pos = some value ∧ value.type = .object := by
  obtain ⟨elementary, value, given, object⟩ := list.leafValue?_objectLoad load
  refine ⟨value, ?_, object⟩
  rw [assignableAt?, found, Option.bind_some, assignable?, operandValue?_elementary list _ elementary,
    given]

end Positions

end Listing

inductive RangeError where
  | before (pos count : Nat)
  | index (pos length : Nat)
  | window (first last length : Nat)
deriving DecidableEq, Repr

/-- Edits of a listing. Giving up keeps the changes made so far; an error ends everything. -/
abbrev Edit := OptionT (StateT Listing (Except RangeError))

namespace Edit

variable {α β : Type}

-- What need not be there: without it the edit gives up.
def look (find : Listing → Option α) : Edit α := OptionT.mk (return find (← get))

-- What has to be there.
def require (error : RangeError) : Option α → Edit α
  | some value => pure value
  | none => throwThe RangeError error

def back? (pos count : Nat) : Option Nat := if count ≤ pos then some (pos - count) else none

def idAt (pos : Nat) : Edit NodeId := do
  let list ← get
  require (.index pos list.order.length) list.order[pos]?

def alloc (instr : Instr) : Edit NodeId := modifyGet fun list => list.alloc instr

def replaceWindow (first last : Nat) (id : NodeId) : Edit Unit := do
  let list ← get
  set (← require (.window first last list.order.length) (list.replaceWindow? first last id))

def operandBefore (pos : Nat) : Edit NodeId := do
  let first ← look fun _ => back? pos 1
  let _ ← look (·.assignableAt? first)
  idAt first

def operandsBefore (pos : Nat) : Edit (NodeId × NodeId) := do
  let first ← look fun _ => back? pos 2
  let left ← look (·.assignableAt? first)
  let right ← look (·.assignableAt? (first + 1))
  if left.effect = .mayTrap ∧ right.effect = .mayTrap then failure
  else return (← idAt first, ← idAt (first + 1))

def dupSource (pos : Nat) : Edit NodeId := do
  let first ← look fun _ => back? pos 1
  let instr ← look (·.at? first)
  if Listing.isObjectLoad instr then
    let value ← look (·.assignableAt? first)
    if value.type = .object then idAt first else failure
  else failure

def nodeOver (pos count : Nat) (operands : Edit α) (node : α → Instr) : Edit (Nat × Instr) := do
  let found ← operands
  return (← require (.before pos count) (back? pos count), node found)

def candidate (op : Opcode) (pos : Nat) : Edit (Nat × Instr) :=
  if op.binary?.isSome then
    nodeOver pos 2 (operandsBefore pos) fun operands => .arith op operands.1 (some operands.2)
  else if op.unary?.isSome then
    nodeOver pos 1 (operandBefore pos) fun operand => .arith op operand none
  else if op.isArrayLoad then
    nodeOver pos 2 (operandsBefore pos) fun operands => .arrayLoad op operands.1 operands.2
  else if op = .arraylength then
    nodeOver pos 1 (operandBefore pos) .arrayLength
  else if op = .dup then
    nodeOver pos 1 (dupSource pos) .dup
  else failure

def foldAt (pos : Nat) : Edit Nat := do
  match ← look (·.at? pos) with
  | .basic op _ =>
    let found ← candidate op pos
    let list ← get
    if Listing.isDup found.2 || (list.render found.2).toBool then
      -- From here on the listing changes, and nothing gives up any more.
      let id ← alloc found.2
      replaceWindow found.1 pos id
      return found.1
    else failure
  | _ => failure

-- A try goes on where the one before it left the listing, also if that one gave up.
def tryFolds (positions : List Nat) : StateT Listing (Except RangeError) (List (Option Nat)) :=
  positions.mapM fun pos => (foldAt pos).run

theorem run_bind_of_ok {action : StateT Listing (Except RangeError) α} {list next : Listing}
    {value : α} (ran : action.run list = .ok (value, next))
    (rest : α → StateT Listing (Except RangeError) β) :
    (action >>= rest).run list = (rest value).run next := by
  rw [StateT.run_bind, ran]
  rfl

theorem run_bind {action : Edit α} {list next : Listing} {answer : Option α}
    (ran : action.run.run list = .ok (answer, next)) (rest : α → Edit β) :
    (action >>= rest).run.run list =
      answer.elim (.ok (none, next)) fun value => (rest value).run.run next := by
  rw [OptionT.run_bind, Option.elimM, run_bind_of_ok ran]
  cases answer <;> rfl

/-- The edit has an answer or gives up, without an error, and leaves the listing as it is. -/
def Gives (action : Edit α) (list : Listing) (answer : Option α) : Prop :=
  action.run.run list = .ok (answer, list)

section Gives

variable {list : Listing} {pos : Nat}

theorem Gives.bind {action : Edit α} {next : α → Edit β} {answer : Option α} {result : α → Option β}
    (first : Gives action list answer)
    (rest : ∀ value, answer = some value → Gives (next value) list (result value)) :
    Gives (action >>= next) list (answer.bind result) := by
  rw [Gives, run_bind first]
  cases answer with
  | none => rfl
  | some value => exact rest value rfl

theorem gives_ite {condition : Prop} [Decidable condition] {first second : Edit α}
    {yes no : Option α} (holds : condition → Gives first list yes)
    (fails : ¬condition → Gives second list no) :
    Gives (if condition then first else second) list (if condition then yes else no) := by
  split
  next met => exact holds met
  next unmet => exact fails unmet

theorem gives_pure (value : α) : Gives (pure value) list (some value) := rfl

theorem gives_failure : Gives (failure : Edit α) list none := rfl

theorem gives_get : Gives get list (some list) := rfl

theorem gives_look (find : Listing → Option α) : Gives (look find) list (find list) := rfl

theorem gives_require (error : RangeError) {found : Option α} {value : α}
    (present : found = some value) : Gives (require error found) list (some value) := by
  rw [present]
  exact gives_pure value

theorem gives_idAt (within : pos < list.order.length) : Gives (idAt pos) list list.order[pos]? := by
  have present : list.order[pos]? = some list.order[pos] := List.getElem?_eq_getElem within
  rw [present]
  exact gives_require _ present

theorem gives_operandBefore : Gives (operandBefore pos) list (list.operandBefore? pos) := by
  have same : list.operandBefore? pos =
      (back? pos 1).bind fun first => (list.assignableAt? first).bind fun _ => list.order[first]? := by
    unfold Listing.operandBefore? back?
    split <;> rfl
  rw [same]
  refine (gives_look _).bind fun first _ => (gives_look _).bind fun value given => ?_
  exact gives_idAt (Listing.lt_length_of_assignableAt? given)

theorem gives_operandsBefore : Gives (operandsBefore pos) list (list.operandsBefore? pos) := by
  have same : list.operandsBefore? pos =
      (back? pos 2).bind fun first => (list.assignableAt? first).bind fun left =>
        (list.assignableAt? (first + 1)).bind fun right =>
          if left.effect = .mayTrap ∧ right.effect = .mayTrap then none
          else list.order[first]?.bind fun left => list.order[first + 1]?.bind fun right =>
            some (left, right) := by
    unfold Listing.operandsBefore? back?
    split
    next enough =>
      rw [show pos - 1 = pos - 2 + 1 by omega]
      rfl
    next => rfl
  rw [same]
  refine (gives_look _).bind fun first _ => (gives_look _).bind fun left leftGiven =>
    (gives_look _).bind fun right rightGiven => gives_ite (fun _ => gives_failure) fun _ => ?_
  refine (gives_idAt (Listing.lt_length_of_assignableAt? leftGiven)).bind fun leftId _ => ?_
  refine (gives_idAt (Listing.lt_length_of_assignableAt? rightGiven)).bind fun rightId _ => ?_
  exact gives_pure _

theorem gives_dupSource : Gives (dupSource pos) list (list.dupSource? pos) := by
  have same : list.dupSource? pos =
      (back? pos 1).bind fun first => (list.at? first).bind fun instr =>
        if Listing.isObjectLoad instr = true then
          (list.assignableAt? first).bind fun value =>
            if value.type = .object then list.order[first]? else none
        else none := by
    unfold Listing.dupSource? back?
    split
    next enough =>
      rw [Option.bind_some]
      refine Option.bind_congr fun instr found => ?_
      split
      next load =>
        -- The load of an object local is an operand of that kind, so that both checks pass.
        obtain ⟨value, given, object⟩ := Listing.assignableAt?_objectLoad found load
        rw [given, Option.bind_some, if_pos object]
      next => rfl
    next => rfl
  rw [same]
  refine (gives_look _).bind fun first _ => (gives_look _).bind fun instr found =>
    gives_ite (fun _ => ?_) fun _ => gives_failure
  refine (gives_look _).bind fun value _ => gives_ite (fun _ => ?_) fun _ => gives_failure
  exact gives_idAt (Listing.lt_length_of_at? found)

theorem gives_nodeOver {operands : Edit α} {answer : Option α} (given : Gives operands list answer)
    {count : Nat} (enough : ∀ found, answer = some found → count ≤ pos) (node : α → Instr) :
    Gives (nodeOver pos count operands node) list
      (answer.map fun found => (pos - count, node found)) := by
  rw [Option.map_eq_bind]
  refine given.bind fun found same => ?_
  have start : back? pos count = some (pos - count) := if_pos (enough found same)
  exact (gives_require (.before pos count) start).bind fun _ _ => gives_pure _

theorem gives_candidate (op : Opcode) :
    Gives (candidate op pos) list
      ((list.candidate? op pos).map fun found => (pos - found.1, found.2)) := by
  simp only [candidate, Listing.candidate?, apply_ite (Option.map _), Option.map_map, Option.map_none]
  refine gives_ite (fun _ => ?_) fun _ => gives_ite (fun _ => ?_) fun _ =>
    gives_ite (fun _ => ?_) fun _ => gives_ite (fun _ => ?_) fun _ =>
      gives_ite (fun _ => ?_) fun _ => gives_failure
  · exact gives_nodeOver gives_operandsBefore (fun _ => Listing.two_le_of_operandsBefore?) _
  · exact gives_nodeOver gives_operandBefore (fun _ => Listing.one_le_of_operandBefore?) _
  · exact gives_nodeOver gives_operandsBefore (fun _ => Listing.two_le_of_operandsBefore?) _
  · exact gives_nodeOver gives_operandBefore (fun _ => Listing.one_le_of_operandBefore?) _
  · exact gives_nodeOver gives_dupSource (fun _ => Listing.one_le_of_dupSource?) _

end Gives

theorem run_replaceWindow {list : Listing} {first last : Nat} (ordered : first ≤ last)
    (within : last < list.order.length) (id : NodeId) :
    (replaceWindow first last id).run.run list = .ok (some (), list.replaceWindow first last id) := by
  have replaced : list.replaceWindow? first last id = some (list.replaceWindow first last id) :=
    if_pos ⟨ordered, within⟩
  exact run_bind (gives_require (.window first last list.order.length) replaced) _

theorem run_foldAt (list : Listing) (pos : Nat) :
    (foldAt pos).run.run list =
      .ok ((list.foldAt? pos).elim (none, list) fun made => (some made.1, made.2)) := by
  rw [foldAt, run_bind (gives_look _), Listing.foldAt?]
  cases found : list.at? pos with
  | none => rfl
  | some instr =>
      cases instr with
      | basic op immediate =>
          simp only [Option.elim_some]
          rw [run_bind (gives_candidate op)]
          cases list.candidate? op pos with
          | none => rfl
          | some made =>
              simp only [Option.map_some, Option.elim_some, Option.bind_eq_bind, Option.bind_some]
              rw [run_bind gives_get, Option.elim_some]
              split
              next fits =>
                have within : pos < (list.alloc made.2).2.order.length := by
                  rw [Listing.order_alloc]
                  exact Listing.lt_length_of_at? found
                have grown : (alloc made.2).run.run list =
                    .ok (some list.nodes.size, (list.alloc made.2).2) := rfl
                have replaced := run_replaceWindow (Nat.sub_le pos made.1) within list.nodes.size
                rw [run_bind grown, Option.elim_some, run_bind replaced]
                rfl
              next => rfl
      | _ => rfl

theorem run_tryFolds_cons {list next last : Listing} {pos : Nat} {rest : List Nat}
    {answer : Option Nat} {answers : List (Option Nat)}
    (here : (foldAt pos).run.run list = .ok (answer, next))
    (later : (tryFolds rest).run next = .ok (answers, last)) :
    (tryFolds (pos :: rest)).run list = .ok (answer :: answers, last) := by
  unfold tryFolds at later ⊢
  rw [List.mapM_cons, run_bind_of_ok here, run_bind_of_ok later]
  rfl

theorem run_tryFolds (positions : List Nat) (list : Listing) :
    ∃ answers last count, (tryFolds positions).run list = .ok (answers, last) ∧
      Listing.FoldRun count list last := by
  induction positions generalizing list with
  | nil => exact ⟨[], list, 0, rfl, .done list⟩
  | cons pos rest ih =>
      have here := run_foldAt list pos
      cases folded : list.foldAt? pos with
      | none =>
          -- The listing is the same as before, so that this try is no step of the run.
          rw [folded] at here
          obtain ⟨answers, last, count, later, run⟩ := ih list
          exact ⟨none :: answers, last, count, run_tryFolds_cons here later, run⟩
      | some made =>
          rw [folded] at here
          obtain ⟨answers, last, count, later, run⟩ := ih made.2
          exact ⟨some made.1 :: answers, last, count + 1, run_tryFolds_cons here later,
            .step folded run⟩

end Edit

/-- However often folds are tried in an assembled listing, and at whatever positions, no try uses a
position, a window or an id that is not there. One that gives up leaves the listing as it was; one
that folds puts a single new node in place of the operator and its operands, and changes nothing
else. Folding everything takes no more folds than there are instructions. -/
theorem fold_all_or_nothing {method : MethodDecl} {unit after : UnitState} {start : Listing}
    (assembled : method.assemble unit = (.ok start, after)) (positions : List Nat) :
    ∃ answers list, (Edit.tryFolds positions).run start = .ok (answers, list) ∧
      (∀ id : Nat, id ∈ list.references → id < list.nodes.size) ∧
      (∀ pos,
        ((Edit.foldAt pos).run.run list = .ok (none, list) ∧ list.foldAt? pos = none ∧
          ∀ op node next, ¬list.Folded pos op node next) ∨
        ∃ op node next, list.Folded pos op node next ∧
          (Edit.foldAt pos).run.run list = .ok (some (pos - op.operandCount), next) ∧
          list.foldAt? pos = some (pos - op.operandCount, next)) ∧
      Listing.FoldRun list.fold.2 list list.fold.1 ∧ list.fold.2 ≤ list.order.length := by
  obtain ⟨answers, list, count, ran, run⟩ := Edit.run_tryFolds positions start
  have sound := (MethodDecl.elementary_assemble assembled).sound.foldRun run
  have whole := list.fold_run
  have bound := whole.length_le
  refine ⟨answers, list, ran, sound.known, ?_, whole, by omega⟩
  intro pos
  have edit := Edit.run_foldAt list pos
  cases folded : list.foldAt? pos with
  | none =>
      rw [folded] at edit
      refine .inl ⟨edit, rfl, ?_⟩
      intro op node next fold
      have made := (Listing.foldAt?_eq_some_iff_folded ..).mpr ⟨op, node, fold, rfl⟩
      simp [folded] at made
  | some made =>
      obtain ⟨first, next⟩ := made
      obtain ⟨op, node, fold, rfl⟩ := (Listing.foldAt?_eq_some_iff_folded ..).mp folded
      rw [folded] at edit
      exact .inr ⟨op, node, next, fold, edit, rfl⟩

theorem fold_all_or_nothing_sample :
    Sample.method.assemble .empty = (.ok Sample.listing, .empty) ∧
    (Edit.tryFolds [40, 6, 0, 1, 2]).run Sample.listing =
      .ok ([none, some 4, none, some 0, some 0], Sample.folded) ∧
    (Edit.foldAt 2).run.run Sample.folded = .ok (none, Sample.folded) ∧
    (∃ op node next, Sample.listing.Folded 6 op node next ∧
      (Edit.foldAt 6).run.run Sample.listing = .ok (some (6 - op.operandCount), next)) ∧
    Sample.listing.fold.2 ≤ 9 := by
  have assembled : Sample.method.assemble .empty = (.ok Sample.listing, .empty) := by decide
  have tried : (Edit.tryFolds [40, 6, 0, 1, 2]).run Sample.listing =
      .ok ([none, some 4, none, some 0, some 0], Sample.folded) := by decide
  refine ⟨assembled, tried, ?_, ?_⟩
  · obtain ⟨answers, list, ran, -, each, -⟩ := fold_all_or_nothing assembled [40, 6, 0, 1, 2]
    obtain ⟨rfl, rfl⟩ := Prod.mk.inj (Except.ok.inj (tried.symm.trans ran))
    rcases each 2 with ⟨idle, -⟩ | ⟨op, node, next, -, -, folded⟩
    · exact idle
    · simp [Sample.folded_settled 2] at folded
  · obtain ⟨answers, list, ran, -, each, -, bound⟩ := fold_all_or_nothing assembled []
    obtain ⟨rfl, rfl⟩ := Prod.mk.inj (Except.ok.inj ran)
    refine ⟨?_, bound⟩
    rcases each 6 with ⟨-, idle, -⟩ | ⟨op, node, next, folded, edit, -⟩
    · have folds : (Sample.listing.foldAt? 6).isSome = true := by decide
      simp [idle] at folds
    · exact ⟨op, node, next, folded, edit⟩

end BytecodeToC
