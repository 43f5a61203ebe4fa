import BytecodeToC.Proofs.FoldRun

/-!
Folding until nothing folds has one result. Two folds that are possible at once never share an
instruction, since an operator is no operand, so that they can be made in either order. Hence every
run of folds that cannot go on ends with the same trees, after the same number of folds.
-/

namespace BytecodeToC

namespace ExprTree

theorem Folds.operands_assignable {list : Listing} {op : Opcode} {operands : List ExprTree}
    {tree : ExprTree} (folds : Folds list op operands tree) :
    ∀ operand ∈ operands, ∃ value, operand.operand? list = some value := by
  cases folds with
  | unary operator given fits load =>
      intro operand member
      obtain rfl := List.mem_singleton.mp member
      exact ⟨_, given⟩
  | binary operator leftGiven rightGiven calm fits =>
      intro operand member
      simp only [List.mem_cons, List.not_mem_nil, or_false] at member
      rcases member with rfl | rfl
      · exact ⟨_, leftGiven⟩
      · exact ⟨_, rightGiven⟩

theorem Folds.operator_not_mem {list : Listing} {op other : Opcode}
    {operands others : List ExprTree} {tree result : ExprTree}
    (folds : Folds list op operands tree) (immediate : Option Int32)
    (second : Folds list other others result) : leaf (.basic op immediate) ∉ others := by
  intro member
  obtain ⟨value, given⟩ := second.operands_assignable _ member
  simp [folds.operand?_operator immediate] at given

theorem Folds.length_eq {list : Listing} {op : Opcode} {operands others : List ExprTree}
    {tree result : ExprTree} (folds : Folds list op operands tree)
    (second : Folds list op others result) : operands.length = others.length := by
  cases folds with
  | unary operator =>
      cases second with
      | unary => rfl
      | binary other => simp [BinaryNode.ofOpcode?_of_unary operator] at other
  | binary operator =>
      cases second with
      | unary other => simp [BinaryNode.ofOpcode?_of_unary other] at operator
      | binary => rfl

theorem Folds.unique {list : Listing} {op : Opcode} {operands : List ExprTree}
    {tree result : ExprTree} (folds : Folds list op operands tree)
    (second : Folds list op operands result) : tree = result := by
  cases folds with
  | unary operator =>
      cases second with
      | unary other =>
          obtain rfl := Option.some.inj (operator.symm.trans other)
          rfl
  | binary operator =>
      cases second with
      | binary other =>
          obtain rfl := Option.some.inj (operator.symm.trans other)
          rfl

theorem split_before {before operands front rest : List ExprTree} {operator : ExprTree}
    (split : before ++ operands = front ++ operator :: rest) (absent : operator ∉ operands) :
    ∃ middle, before = front ++ operator :: middle ∧ rest = middle ++ operands := by
  rcases List.append_eq_append_iff.mp split with ⟨extra, -, inside⟩ | ⟨extra, rfl, tail⟩
  · exact absurd (by simp [inside]) absent
  · cases extra with
    | nil =>
        simp only [List.nil_append] at tail
        exact absurd (by simp [← tail]) absent
    | cons head middle =>
        simp only [List.cons_append, List.cons.injEq] at tail
        obtain ⟨rfl, rfl⟩ := tail
        exact ⟨middle, rfl, rfl⟩

theorem Folds.commute {list : Listing} {op other : Opcode} {operands others : List ExprTree}
    {tree result : ExprTree} (folds : Folds list op operands tree)
    (second : Folds list other others result) (immediate next : Option Int32)
    (before middle after : List ExprTree) :
    ∃ last,
      Step list (before ++ tree :: (middle ++ others ++ leaf (.basic other next) :: after)) last ∧
      Step list (before ++ operands ++ leaf (.basic op immediate) :: middle ++ result :: after)
        last := by
  refine ⟨before ++ tree :: (middle ++ result :: after), ?_, ?_⟩
  · simpa using Step.fold (before ++ tree :: middle) after next second
  · simpa using Step.fold before (middle ++ result :: after) immediate folds

/-- Two folds of one sequence, the operator of the first at or before that of the second: they are
the same fold, or they do not get in each other's way. -/
theorem Folds.diamond {list : Listing} {op other : Opcode} {operands others : List ExprTree}
    {tree result : ExprTree} (folds : Folds list op operands tree)
    (second : Folds list other others result) {immediate next : Option Int32}
    {before after otherBefore otherAfter extra : List ExprTree}
    (front : otherBefore ++ others = before ++ operands ++ extra)
    (back : leaf (.basic op immediate) :: after =
      extra ++ leaf (.basic other next) :: otherAfter) :
    before ++ tree :: after = otherBefore ++ result :: otherAfter ∨
      ∃ last, Step list (before ++ tree :: after) last ∧
        Step list (otherBefore ++ result :: otherAfter) last := by
  cases extra with
  | nil =>
      left
      simp only [List.append_nil, List.nil_append, List.cons.injEq, leaf.injEq,
        Instr.basic.injEq] at front back
      obtain ⟨⟨rfl, rfl⟩, rfl⟩ := back
      obtain ⟨rfl, rfl⟩ := List.append_inj' front (second.length_eq folds)
      rw [folds.unique second]
  | cons head extra =>
      right
      simp only [List.cons_append, List.cons.injEq] at back
      obtain ⟨rfl, rfl⟩ := back
      obtain ⟨middle, rfl, rfl⟩ := split_before front (folds.operator_not_mem immediate second)
      exact folds.commute second immediate next before middle otherAfter

theorem Step.diamond {list : Listing} {forest left right : List ExprTree}
    (first : Step list forest left) (second : Step list forest right) :
    left = right ∨ ∃ last, Step list left last ∧ Step list right last := by
  obtain ⟨before, after, immediate, folds⟩ := first
  generalize same : before ++ _ ++ leaf _ :: after = forest at second
  obtain ⟨otherBefore, otherAfter, next, otherFolds⟩ := second
  rcases List.append_eq_append_iff.mp same with ⟨extra, front, back⟩ | ⟨extra, front, back⟩
  · exact folds.diamond otherFolds front back
  · rcases otherFolds.diamond folds front back with equal | ⟨last, here, there⟩
    · exact .inl equal.symm
    · exact .inr ⟨last, there, here⟩

def Final (list : Listing) (forest : List ExprTree) : Prop := ∀ next, ¬Step list forest next

theorem Steps.start_anywhere {list : Listing} {count : Nat} {forest next last : List ExprTree}
    (steps : Steps list count forest last) (final : Final list last) (step : Step list forest next) :
    ∃ fewer, count = fewer + 1 ∧ Steps list fewer next last := by
  -- Along the run: the diamond moves its first fold behind the given one, or finds them equal.
  induction steps generalizing next with
  | done forest => exact absurd step (final next)
  | @step count forest other last first rest ih =>
      rcases first.diamond step with rfl | ⟨meeting, fromOther, fromNext⟩
      · exact ⟨count, rfl, rest⟩
      · obtain ⟨fewer, rfl, remaining⟩ := ih final fromOther
        exact ⟨fewer + 1, rfl, .step fromNext remaining⟩

theorem Steps.unique {list : Listing} {count other : Nat} {forest first second : List ExprTree}
    (steps : Steps list count forest first) (final : Final list first)
    (others : Steps list other forest second) (finalOther : Final list second) :
    first = second ∧ count = other := by
  -- On the second run; the first is rearranged to start with the same fold.
  induction others generalizing count with
  | done forest =>
      cases steps with
      | done => exact ⟨rfl, rfl⟩
      | step step _ => exact absurd step (finalOther _)
  | step step rest ih =>
      obtain ⟨fewer, rfl, remaining⟩ := steps.start_anywhere final step
      obtain ⟨same, equal⟩ := ih remaining finalOther
      exact ⟨same, by rw [equal]⟩

end ExprTree

namespace Listing

theorem Represents.final {list last : Listing} {forest : List ExprTree}
    (represents : last.Represents forest) (same : last.names = list.names) (settled : last.Settled) :
    ExprTree.Final list forest := by
  intro next step
  obtain ⟨pos, start, folded, found⟩ := represents.exists_foldAt? (step.of_names same)
  simp [settled pos] at found

end Listing

/-- Whatever folds are made in an assembled listing, and in whatever order, once nothing folds any
more the order stands for the same trees as after `fold`, and as many folds were made. After `fold`
nothing folds, so that folding again changes nothing. -/
theorem fold_unique_normal_form {method : MethodDecl} {unit after : UnitState} {list : Listing}
    (assembled : method.assemble unit = (.ok list, after)) :
    (∀ count last, Listing.FoldRun count list last → last.Settled →
      count = list.fold.2 ∧ ∃ forest, ∀ trees,
        (last.StandsFor trees ↔ trees = forest) ∧ (list.fold.1.StandsFor trees ↔ trees = forest)) ∧
    list.fold.1.Settled ∧ list.fold.1.fold = (list.fold.1, 0) := by
  have represents := (MethodDecl.elementary_assemble assembled).represents
  refine ⟨?_, list.fold_settled, Listing.fold_of_settled list.fold_settled⟩
  intro count last run settled
  obtain ⟨forest, steps, lastRepresents, same⟩ := represents.foldRun run
  obtain ⟨folded, foldSteps, foldRepresents, foldSame⟩ := represents.foldRun list.fold_run
  obtain ⟨rfl, rfl⟩ := steps.unique (lastRepresents.final same settled) foldSteps
    (foldRepresents.final foldSame list.fold_settled)
  exact ⟨rfl, forest, fun trees =>
    ⟨lastRepresents.trees.eq_iff, foldRepresents.trees.eq_iff⟩⟩

theorem fold_unique_normal_form_sample :
    Sample.method.assemble .empty = (.ok Sample.listing, .empty) ∧
    Listing.FoldRun 3 Sample.listing Sample.folded ∧ Sample.folded.Settled ∧
    Sample.folded ≠ Sample.listing.fold.1 ∧ 3 = Sample.listing.fold.2 ∧
    ∃ forest, ∀ trees, (Sample.folded.StandsFor trees ↔ trees = forest) ∧
      (Sample.listing.fold.1.StandsFor trees ↔ trees = forest) :=
  ⟨by decide, Sample.foldRun, Sample.folded_settled, by decide,
    (fold_unique_normal_form
      (by decide : Sample.method.assemble .empty = (.ok Sample.listing, .empty))).1
      3 Sample.folded Sample.foldRun Sample.folded_settled⟩

end BytecodeToC
