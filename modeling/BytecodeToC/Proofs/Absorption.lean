import BytecodeToC.Proofs.Arena

/-!
Which instructions folding takes out of the order. Only the parts of expressions take part in folds:
values without operands, operators and expression nodes. All other instructions stay, in the order in
which they stood, and a node that is new in the order is an expression node.
-/

namespace BytecodeToC

def Instr.isOperator : Instr → Bool
  | .basic op _ => op.isOperator
  | _ => false

namespace Listing

def isPart (list : Listing) (instr : Instr) : Bool :=
  !instr.operands.isEmpty || (list.leafValue? instr).isSome || instr.isOperator

def unfoldable (list : Listing) : List Instr := list.instrs.filter fun instr => !list.isPart instr

/-- The instructions that folding takes out of the order, where expression nodes stand for them. -/
def absorbed (list : Listing) : List Instr :=
  (list.order.filter fun id => !list.fold.1.order.contains id).filterMap list.node?

theorem isPart_of_names {list next : Listing} (same : next.names = list.names) :
    next.isPart = list.isPart := by
  funext instr
  simp only [isPart, leafValue?_of_names same]

theorem isPart_of_composite (list : Listing) {instr : Instr} (composite : instr.operands ≠ []) :
    list.isPart instr = true := by
  simp [isPart, composite]

theorem isPart_of_assignable {list : Listing} {instr : Instr} {value : Value}
    (assignable : list.assignable? instr = some value) : list.isPart instr = true := by
  by_cases elementary : instr.operands = []
  · rw [Listing.assignable?, operandValue?_elementary list _ elementary] at assignable
    simp [isPart, assignable]
  · exact list.isPart_of_composite elementary

theorem isPart_of_objectLoad (list : Listing) {instr : Instr} (load : isObjectLoad instr = true) :
    list.isPart instr = true := by
  obtain ⟨_, value, given, _⟩ := list.leafValue?_objectLoad load
  simp [isPart, given]

theorem Foldable.isOperator {list : Listing} {op : Opcode} {operands : List NodeId} {node : Instr}
    (foldable : list.Foldable op operands node) : op.isOperator = true := by
  cases foldable with
  | dup operator => simp [Opcode.isOperator, operator]
  | unary operator => simp [Opcode.isOperator, operator]
  | binary operator => simp [Opcode.isOperator, operator]

theorem Foldable.isPart_operand {list : Listing} {op : Opcode} {operands : List NodeId}
    {node : Instr} (foldable : list.Foldable op operands node) {operand : NodeId}
    (member : operand ∈ operands) :
    ∃ instr, list.node? operand = some instr ∧ list.isPart instr = true := by
  cases foldable with
  | @dup source instr operator found load =>
      obtain rfl := List.mem_singleton.mp member
      exact ⟨instr, found, list.isPart_of_objectLoad load⟩
  | @unary kind given instr value operator single found assignable fits =>
      obtain rfl := List.mem_singleton.mp member
      exact ⟨instr, found, isPart_of_assignable assignable⟩
  | @binary kind left right leftInstr rightInstr leftValue rightValue operator leftFound rightFound
      leftAssignable rightAssignable calm fits =>
      rcases List.mem_pair.mp member with rfl | rfl
      · exact ⟨leftInstr, leftFound, isPart_of_assignable leftAssignable⟩
      · exact ⟨rightInstr, rightFound, isPart_of_assignable rightAssignable⟩

theorem Foldable.isPart_node {list : Listing} {op : Opcode} {operands : List NodeId} {node : Instr}
    (foldable : list.Foldable op operands node) : list.isPart node = true := by
  have composite : node.operands ≠ [] := by
    rw [foldable.operands_eq]
    cases foldable <;> simp
  exact list.isPart_of_composite composite

/-! The order of the other instructions -/

theorem filterMap_node?_withNode (list : Listing) (before after : List NodeId) (node : Instr)
    {ids : List NodeId} (known : ∀ id : Nat, id ∈ ids → id < list.nodes.size) :
    ids.filterMap (list.withNode before after node).node? = ids.filterMap list.node? := by
  apply List.filterMap_congr
  intro id member
  have different : id ≠ list.nodes.size := Nat.ne_of_lt (known id member)
  simp [withNode, node?, Array.getElem?_push, different]

theorem unfoldable_withNode {list : Listing} (sound : list.Sound)
    {before operands after : List NodeId} {operator : NodeId} {op : Opcode}
    {immediate : Option Int32} {node : Instr}
    (split : list.order = before ++ operands ++ operator :: after)
    (found : list.node? operator = some (.basic op immediate))
    (foldable : list.Foldable op operands node) :
    (list.withNode before after node).unfoldable = list.unfoldable := by
  have known : ∀ id : Nat, id ∈ list.order → id < list.nodes.size :=
    fun id member => sound.known id (by simp [references, member])
  have beforeSame : before.filterMap (list.withNode before after node).node? =
      before.filterMap list.node? :=
    list.filterMap_node?_withNode before after node fun id member =>
      known id (by simp [split, member])
  have afterSame : after.filterMap (list.withNode before after node).node? =
      after.filterMap list.node? :=
    list.filterMap_node?_withNode before after node fun id member =>
      known id (by simp [split, member])
  have operandsGone :
      (operands.filterMap list.node?).filter (fun instr => !list.isPart instr) = [] := by
    rw [List.filter_eq_nil_iff]
    intro instr member
    obtain ⟨id, place, atId⟩ := List.mem_filterMap.mp member
    obtain ⟨other, again, part⟩ := foldable.isPart_operand place
    obtain rfl := Option.some.inj (atId.symm.trans again)
    simp [part]
  have operatorGone : list.isPart (.basic op immediate) = true := by
    simp [isPart, Instr.isOperator, foldable.isOperator]
  have newNode : (list.withNode before after node).node? list.nodes.size = some node :=
    node?_withNode_size ..
  have order : (list.withNode before after node).order = before ++ list.nodes.size :: after := rfl
  have samePart : (list.withNode before after node).isPart = list.isPart := isPart_of_names rfl
  unfold unfoldable instrs
  rw [samePart, order, split]
  simp only [List.filterMap_append, List.filterMap_cons, List.filter_append, List.filter_cons,
    beforeSame, afterSame, newNode, found, foldable.isPart_node, operatorGone, operandsGone]
  simp

theorem unfoldable_foldRun {list last : Listing} {count : Nat} (sound : list.Sound)
    (run : FoldRun count list last) : last.unfoldable = list.unfoldable := by
  induction run with
  | done list => rfl
  | step folded rest ih =>
      obtain ⟨before, operands, operator, after, op, immediate, node, split, found, foldable, rfl,
        rfl, rfl⟩ := (foldAt?_eq_some_iff ..).mp folded
      rw [ih (sound.withNode split foldable), unfoldable_withNode sound split found foldable]

/-! What comes and what goes -/

structure Reduces (list last : Listing) : Prop where
  names : last.names = list.names
  kept : ∀ id instr, list.node? id = some instr → last.node? id = some instr
  placed : ∀ id ∈ last.order, id ∈ list.order ∨
    ∃ instr, last.node? id = some instr ∧ instr.operands ≠ []
  gone : ∀ id ∈ list.order, id ∉ last.order →
    ∀ instr, list.node? id = some instr → list.isPart instr = true

theorem Reduces.refl (list : Listing) : list.Reduces list :=
  ⟨rfl, fun _ _ found => found, fun _ member => .inl member,
    fun _ member absent => absurd member absent⟩

theorem Reduces.trans {list middle last : Listing} (first : list.Reduces middle)
    (second : middle.Reduces last) : list.Reduces last := by
  refine ⟨second.names.trans first.names, ?_, ?_, ?_⟩
  · intro id instr found
    exact second.kept id instr (first.kept id instr found)
  · intro id member
    rcases second.placed id member with older | new
    · rcases first.placed id older with oldest | ⟨instr, found, composite⟩
      · exact .inl oldest
      · exact .inr ⟨instr, second.kept id instr found, composite⟩
    · exact .inr new
  · intro id member absent instr found
    by_cases still : id ∈ middle.order
    · have part := second.gone id still absent instr (first.kept id instr found)
      rwa [isPart_of_names first.names] at part
    · exact first.gone id member still instr found

theorem Reduces.foldAt? {list next : Listing} {pos start : Nat}
    (folded : list.foldAt? pos = some (start, next)) : list.Reduces next := by
  obtain ⟨before, operands, operator, after, op, immediate, node, split, found, foldable, rfl, rfl,
    rfl⟩ := (foldAt?_eq_some_iff ..).mp folded
  have order : (list.withNode before after node).order = before ++ list.nodes.size :: after := rfl
  refine ⟨rfl, fun id instr => node?_withNode_of_some before after node, ?_, ?_⟩
  · intro id member
    rw [order, List.mem_append, List.mem_cons] at member
    rcases member with member | rfl | member
    · exact .inl (by simp [split, member])
    · refine .inr ⟨node, node?_withNode_size .., ?_⟩
      rw [foldable.operands_eq]
      cases foldable <;> simp
    · exact .inl (by simp [split, member])
  · intro id member absent instr atId
    simp only [order, List.mem_append, List.mem_cons, not_or] at absent
    simp only [split, List.mem_append, List.mem_cons] at member
    rcases member with (member | member) | rfl | member
    · exact absurd member absent.1
    · obtain ⟨other, again, part⟩ := foldable.isPart_operand member
      obtain rfl := Option.some.inj (atId.symm.trans again)
      exact part
    · obtain rfl := Option.some.inj (atId.symm.trans found)
      simp [isPart, Instr.isOperator, foldable.isOperator]
    · exact absurd member absent.2.2

theorem Reduces.foldRun {list last : Listing} {count : Nat} (run : FoldRun count list last) :
    list.Reduces last := by
  induction run with
  | done list => exact .refl list
  | step folded rest ih => exact (Reduces.foldAt? folded).trans ih

theorem reduces_fold (list : Listing) : list.Reduces list.fold.1 := .foldRun list.fold_run

section Elementary

variable {list : Listing} (elementary : list.Elementary)
include elementary

theorem Elementary.unfoldable_fold : list.fold.1.unfoldable = list.unfoldable :=
  unfoldable_foldRun elementary.sound list.fold_run

theorem Elementary.mem_of_reduces {last : Listing} (reduces : list.Reduces last) {instr : Instr}
    (member : instr ∈ last.instrs) (leaf : instr.operands = []) : instr ∈ list.instrs := by
  obtain ⟨id, place, found⟩ := List.mem_filterMap.mp member
  rcases reduces.placed id place with older | ⟨other, again, composite⟩
  · have known : list.node? id = some _ := Array.getElem?_eq_getElem (elementary.known id older)
    have same := (reduces.kept id _ known).symm.trans found
    exact List.mem_filterMap.mpr ⟨id, older, known.trans same⟩
  · obtain rfl := Option.some.inj (found.symm.trans again)
    exact absurd leaf composite

theorem Elementary.mem_instrs_iff (instr : Instr) :
    instr ∈ list.instrs ↔
      instr ∈ list.absorbed ∨ instr ∈ list.fold.1.instrs ∧ instr.operands = [] := by
  have reduces := list.reduces_fold
  constructor
  · intro member
    obtain ⟨id, place, found⟩ := List.mem_filterMap.mp member
    by_cases still : id ∈ list.fold.1.order
    · exact .inr ⟨List.mem_filterMap.mpr ⟨id, still, reduces.kept id instr found⟩,
        elementary.leaves id instr found⟩
    · exact .inl (List.mem_filterMap.mpr ⟨id, by simp [place, still], found⟩)
  · rintro (member | ⟨member, leaf⟩)
    · obtain ⟨id, place, found⟩ := List.mem_filterMap.mp member
      exact List.mem_filterMap.mpr ⟨id, (List.mem_filter.mp place).1, found⟩
    · exact elementary.mem_of_reduces reduces member leaf

theorem Elementary.absorbed_subset : list.absorbed ⊆ list.instrs :=
  fun instr member => (elementary.mem_instrs_iff instr).mpr (.inl member)

theorem Elementary.operands_of_mem {instr : Instr} (member : instr ∈ list.instrs) :
    instr.operands = [] := by
  obtain ⟨id, _, found⟩ := List.mem_filterMap.mp member
  exact elementary.leaves id instr found

theorem Elementary.absorbed_part {instr : Instr} (member : instr ∈ list.absorbed) :
    (∃ value, list.leafValue? instr = some value) ∨ instr.isOperator = true := by
  have leaf := elementary.operands_of_mem (elementary.absorbed_subset member)
  obtain ⟨id, place, found⟩ := List.mem_filterMap.mp member
  have absent : id ∉ list.fold.1.order := by simpa using (List.mem_filter.mp place).2
  have part := list.reduces_fold.gone id (List.mem_filter.mp place).1 absent instr found
  simpa [isPart, leaf, Option.isSome_iff_exists] using part

theorem Elementary.flatMap_fold {α : Type} {contribute : Instr → List α}
    (silent : ∀ instr, list.isPart instr = true → contribute instr = []) :
    list.fold.1.instrs.flatMap contribute = list.instrs.flatMap contribute := by
  have same (given : List Instr) :
      (given.filter fun instr => !list.isPart instr).flatMap contribute =
        given.flatMap contribute := by
    induction given with
    | nil => rfl
    | cons instr rest ih =>
        by_cases part : list.isPart instr = true
        · simp [part, ih, silent instr part]
        · simp [part, ih]
  have unfoldable := elementary.unfoldable_fold
  unfold Listing.unfoldable at unfoldable
  rw [isPart_of_names list.reduces_fold.names] at unfoldable
  rw [← same, unfoldable, same]

theorem Elementary.labels_fold : list.fold.1.labels = list.labels := by
  unfold labels
  rw [List.filterMap_eq_flatMap_toList, List.filterMap_eq_flatMap_toList]
  apply elementary.flatMap_fold
  intro instr part
  cases instr with
  | label id => simp [isPart, Instr.operands, leafValue?, Instr.isOperator] at part
  | _ => rfl

theorem Elementary.jumpTargets_fold :
    list.fold.1.instrs.flatMap Instr.jumpTargets = list.instrs.flatMap Instr.jumpTargets := by
  apply elementary.flatMap_fold
  intro instr part
  cases instr with
  | jump op target condition => simp [isPart, Instr.operands, leafValue?, Instr.isOperator] at part
  | switch default keys targets =>
      simp [isPart, Instr.operands, leafValue?, Instr.isOperator] at part
  | _ => rfl

end Elementary

end Listing

end BytecodeToC
