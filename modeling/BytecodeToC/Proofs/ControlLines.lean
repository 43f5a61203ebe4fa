import BytecodeToC.Proofs.LocalNames
import BytecodeToC.Proofs.Marks
import BytecodeToC.Proofs.TypeSymbols

/-!
The printed lines of an emitted body that carry labels, open or close try regions, or jump. Such a line
is known by the word it begins with and the character behind that word. What the lowering emits for
other instructions never prints one, whatever the names of classes, members and locals.
-/

namespace BytecodeToC

namespace C

def wordHead (text : List Char) : String × Option Char :=
  (String.ofList (text.takeWhile LocalName.isWordChar), (text.dropWhile LocalName.isWordChar).head?)

def lineHead (line : String) : String × Option Char := wordHead (line.toList.dropWhile (· = ' '))

inductive LineKind where
  /-- A label, or the opening or closing of a try region. -/
  | scope
  | jump
  | plain
deriving DecidableEq, Repr

def headKind : String × Option Char → LineKind
  | (word, some '(') =>
    if word ∈ ["SAVE_TRY_OFFSET", "BEGIN_TRY", "END_TRY"] then .scope
    else if word = "JUMP_TO" then .jump
    else .plain
  | (word, some ':') =>
    if "label_".toList.isPrefixOf word.toList then .scope
    else if word = "default" then .jump
    else .plain
  | (word, some ' ') => if word ∈ ["goto", "if", "switch", "case"] then .jump else .plain
  | _ => .plain

def lineKind (line : String) : LineKind := headKind (lineHead line)

def linesOf (kind : LineKind) (items : List Item) : List String :=
  (items.flatMap Item.lines).filter (lineKind · = kind)

@[simp] theorem linesOf_nil (kind : LineKind) : linesOf kind [] = [] := rfl

theorem linesOf_cons (kind : LineKind) (item : Item) (rest : List Item) :
    linesOf kind (item :: rest) = linesOf kind [item] ++ linesOf kind rest := by
  simp [linesOf]

theorem linesOf_append (kind : LineKind) (first second : List Item) :
    linesOf kind (first ++ second) = linesOf kind first ++ linesOf kind second := by
  simp [linesOf]

theorem linesOf_eq_nil {kind : LineKind} {items : List Item}
    (other : ∀ text ∈ items.flatMap Item.lines, lineKind text ≠ kind) : linesOf kind items = [] := by
  simpa [linesOf, List.filter_eq_nil_iff] using other

theorem linesOf_of_all {kind : LineKind} {items : List Item} {rows : List String}
    (printed : items.flatMap Item.lines = rows) (all : ∀ text ∈ rows, lineKind text = kind) :
    linesOf kind items = rows := by
  rw [linesOf, printed, List.filter_eq_self]
  simpa using all

theorem lineHead_line (depth : Nat) (text : String) :
    lineHead (line depth text) = lineHead (text ++ "\n") := by
  have blanks : ∀ c ∈ (String.join (List.replicate depth "    ")).toList, decide (c = ' ') = true := by
    intro c member
    rw [String.toList_join, List.mem_flatMap] at member
    obtain ⟨part, replicated, inside⟩ := member
    obtain rfl := List.eq_of_mem_replicate replicated
    simpa using inside
  unfold lineHead line
  simp only [String.toList_append, List.append_assoc]
  rw [List.dropWhile_append_of_pos blanks]

theorem lineHead_word {word rest : String} (symbolic : Symbol.IsSymbolic word) (filled : word ≠ "")
    {delimiter : Char} (behind : rest.toList.head? = some delimiter)
    (other : LocalName.isWordChar delimiter = false) :
    lineHead (word ++ rest) = (word, some delimiter) := by
  obtain ⟨tail, spelled⟩ : ∃ tail, rest.toList = delimiter :: tail := by
    cases shape : rest.toList <;> simp_all
  have inside : ∀ c ∈ word.toList, LocalName.isWordChar c = true := by
    intro c member
    simpa [LocalName.isWordChar, Symbol.IsWord] using symbolic c member
  obtain ⟨first, more, shape⟩ := List.exists_cons_of_ne_nil (by simpa using filled : word.toList ≠ [])
  have starts : first ≠ ' ' := by
    rintro rfl
    have word := inside ' ' (by simp [shape])
    revert word
    decide
  have unindented : (word.toList ++ delimiter :: tail).dropWhile (· = ' ') =
      word.toList ++ delimiter :: tail := by
    simp [shape, starts]
  unfold lineHead wordHead
  rw [String.toList_append, spelled, unindented, List.takeWhile_append_of_pos inside,
    List.dropWhile_append_of_pos inside]
  simp [other]

theorem wordHead_append {text : List Char} (settled : (wordHead text).2.isSome = true)
    (more : List Char) : wordHead (text ++ more) = wordHead text := by
  have behind : text.dropWhile LocalName.isWordChar ≠ [] := by
    intro none
    simp [wordHead, none] at settled
  have shorter : (text.takeWhile LocalName.isWordChar).length ≠ text.length := by
    have lengths := congrArg List.length
      (List.takeWhile_append_dropWhile (p := LocalName.isWordChar) (l := text))
    rw [List.length_append] at lengths
    have positive := List.length_pos_of_ne_nil behind
    omega
  unfold wordHead
  rw [List.takeWhile_append, if_neg shorter, List.dropWhile_append, if_neg (by simpa using behind),
    List.head?_append_of_ne_nil _ behind]

theorem lineHead_append {opening : String} (settled : (lineHead opening).2.isSome = true)
    (rest : String) : lineHead (opening ++ rest) = lineHead opening := by
  have filled : opening.toList.dropWhile (· = ' ') ≠ [] := by
    intro none
    simp [lineHead, wordHead, none] at settled
  unfold lineHead
  rw [String.toList_append, List.dropWhile_append, if_neg (by simpa using filled)]
  exact wordHead_append settled _

theorem lineKind_line (depth : Nat) (text : String) :
    lineKind (line depth text) = lineKind (text ++ "\n") :=
  congrArg headKind (lineHead_line depth text)

theorem lineKind_opening {opening : String} {kind : LineKind}
    (settled : (lineHead opening).2.isSome = true) (known : lineKind opening = kind) (rest : String) :
    lineKind (opening ++ rest) = kind := by
  rw [lineKind, lineHead_append settled]
  exact known

theorem lineKind_function {function rest : String} (symbolic : Symbol.IsSymbolic function)
    (other : function ∉ ["", "SAVE_TRY_OFFSET", "BEGIN_TRY", "END_TRY", "JUMP_TO"])
    (applied : rest.toList.head? = some '(') : lineKind (function ++ rest) = .plain := by
  simp only [List.mem_cons, not_or] at other
  rw [lineKind, lineHead_word symbolic other.1 applied (by decide)]
  simp [headKind, other]

theorem lineKind_variable {name rest : String} (symbolic : Symbol.IsSymbolic name)
    (filled : name ≠ "") (other : name ∉ LocalName.keywords) (apart : rest.toList.head? = some ' ') :
    lineKind (name ++ rest) = .plain := by
  simp only [LocalName.keywords, List.mem_cons, not_or] at other
  rw [lineKind, lineHead_word symbolic filled apart (by decide)]
  simp [headKind, other]

end C

/-! Names that lines begin with -/

theorem LocalName.isSymbolic_of_isUsable {name : String} (usable : isUsable name = true) :
    Symbol.IsSymbolic name := by
  unfold isUsable at usable
  split at usable
  next => simp at usable
  next first rest spelled =>
    simp only [Bool.and_eq_true, Bool.or_eq_true, decide_eq_true_eq, List.all_eq_true] at usable
    obtain ⟨⟨⟨⟨⟨initial, others⟩, _⟩, _⟩, _⟩, _⟩ := usable
    intro c member
    rw [spelled] at member
    rcases List.mem_cons.mp member with rfl | later
    · exact initial.imp (fun alpha => by simp [Char.isAlphanum, alpha]) id
    · simpa [isWordChar, Symbol.IsWord] using others c later

theorem LocalName.not_keyword_of_isUsable {name : String} (usable : isUsable name = true) :
    name ≠ "" ∧ name ∉ keywords := by
  unfold isUsable at usable
  split at usable
  next => simp at usable
  next first rest spelled =>
    simp only [Bool.and_eq_true, Bool.not_eq_true', List.contains_eq_mem, decide_eq_false_iff_not]
      at usable
    refine ⟨?_, usable.1.2⟩
    rintro rfl
    simp at spelled

theorem LocalName.isSymbolic_generated (slot : Slot) (type : StackType) :
    Symbol.IsSymbolic (generated slot type) := by
  have letter : Symbol.IsSymbolic (String.singleton type.localLetter) := by
    cases type <;> exact Symbol.isSymbolic_of_all rfl
  have middle : Symbol.IsSymbolic "locals_" := Symbol.isSymbolic_of_all rfl
  have last : Symbol.IsSymbolic "_" := Symbol.isSymbolic_of_all rfl
  simp only [generated, Symbol.isSymbolic_append, letter, middle, last, Symbol.isSymbolic_toString,
    and_self]

theorem LocalName.not_keyword_generated (slot : Slot) (type : StackType) :
    generated slot type ≠ "" ∧ generated slot type ∉ keywords := by
  have looks := looksGenerated_generated slot type
  constructor
  · intro same
    rw [same] at looks
    revert looks
    decide
  · intro member
    have others : ∀ word ∈ keywords, looksGenerated word.toList = false := by decide
    rw [others _ member] at looks
    cases looks

theorem Listing.WellNamed.localName_plain {list : Listing} (named : list.WellNamed) (slot : Slot)
    (type : StackType) :
    Symbol.IsSymbolic (list.localName slot type) ∧ list.localName slot type ≠ "" ∧
      list.localName slot type ∉ LocalName.keywords := by
  unfold localName boundName?
  cases found : list.names.lookup (slot, type) with
  | none => exact ⟨LocalName.isSymbolic_generated slot type, LocalName.not_keyword_generated slot type⟩
  | some name =>
      have usable := named.usable _ (mem_names_of_lookup found)
      exact ⟨LocalName.isSymbolic_of_isUsable usable, LocalName.not_keyword_of_isUsable usable⟩

theorem FieldAccess.isSymbolic_accessor {action : String} (symbolic : Symbol.IsSymbolic action)
    (owner name : String) : Symbol.IsSymbolic (accessor action owner name) := by
  have bar : Symbol.IsSymbolic "_" := Symbol.isSymbolic_of_all rfl
  simp only [accessor, Symbol.isSymbolic_append, symbolic, bar, Symbol.isSymbolic_ofClass,
    Symbol.isSymbolic_ofMember, and_self]

/-- Method symbols have more underscores than the words that open and close regions and jump. -/
theorem Symbol.underscores_ofMethod (owner name : String) (type : MethodType) :
    3 ≤ (ofMethod owner name type).toList.count '_' := by
  simp only [ofMethod, String.toList_append, List.count_append]
  have one : "_".toList.count '_' = 1 := by decide
  have two : "__".toList.count '_' = 2 := by decide
  omega

namespace Emission

open C

theorem isSymbolic_callTarget (index : ClassIndex) (call : BytecodeToC.Call) (type : MethodType) :
    Symbol.IsSymbolic (callTarget index call type) := by
  have mark : Symbol.IsSymbolic "virtual_" := Symbol.isSymbolic_of_all rfl
  unfold callTarget
  split
  · exact Symbol.isSymbolic_ofMethod _ call.name type
  · exact Symbol.isSymbolic_ofMethod call.owner call.name type
  all_goals exact Symbol.isSymbolic_append.mpr ⟨mark, Symbol.isSymbolic_ofMethod _ _ type⟩

theorem underscores_callTarget (index : ClassIndex) (call : BytecodeToC.Call) (type : MethodType) :
    3 ≤ (callTarget index call type).toList.count '_' := by
  unfold callTarget
  split
  · exact Symbol.underscores_ofMethod _ call.name type
  · exact Symbol.underscores_ofMethod call.owner call.name type
  all_goals
    rw [String.toList_append, List.count_append]
    have many := Symbol.underscores_ofMethod call.owner call.name type
    omega

theorem callTarget_other (index : ClassIndex) (call : BytecodeToC.Call) (type : MethodType) :
    callTarget index call type ∉ ["", "SAVE_TRY_OFFSET", "BEGIN_TRY", "END_TRY", "JUMP_TO"] := by
  intro member
  have others : ∀ word ∈ ["", "SAVE_TRY_OFFSET", "BEGIN_TRY", "END_TRY", "JUMP_TO"],
      word.toList.count '_' < 3 := by decide
  have few := others _ member
  have many := underscores_callTarget index call type
  omega

theorem accessor_other {action : String} (setter : action ∈ ["set_field", "set_static"])
    (owner name : String) : FieldAccess.accessor action owner name ∉
      ["", "SAVE_TRY_OFFSET", "BEGIN_TRY", "END_TRY", "JUMP_TO"] := by
  have first : (FieldAccess.accessor action owner name).toList.head? = some 's' := by
    simp only [List.mem_cons, List.not_mem_nil, or_false] at setter
    rcases setter with rfl | rfl <;> simp [FieldAccess.accessor]
  intro member
  have others : ∀ word ∈ ["", "SAVE_TRY_OFFSET", "BEGIN_TRY", "END_TRY", "JUMP_TO"],
      word.toList.head? ≠ some 's' := by decide
  exact others _ member first

theorem lineKind_local {context : MethodContext} (named : context.list.WellNamed) {name rest : String}
    (known : ∃ slot type, context.list.localName slot type = name)
    (apart : rest.toList.head? = some ' ') : lineKind (name ++ rest) = .plain := by
  obtain ⟨slot, type, rfl⟩ := known
  obtain ⟨symbolic, filled, other⟩ := named.localName_plain slot type
  exact lineKind_variable symbolic filled other apart

theorem lineKind_setter {action rest : String} (setter : action ∈ ["set_field", "set_static"])
    (owner name : String) (applied : rest.toList.head? = some '(') :
    lineKind (FieldAccess.accessor action owner name ++ rest) = .plain := by
  have symbolic : Symbol.IsSymbolic action := by
    simp only [List.mem_cons, List.not_mem_nil, or_false] at setter
    rcases setter with rfl | rfl <;> exact Symbol.isSymbolic_of_all rfl
  exact lineKind_function (FieldAccess.isSymbolic_accessor symbolic owner name)
    (accessor_other setter owner name) applied

theorem lineKind_pushText (type : StackType) (value rest : String) :
    lineKind (pushText type value ++ rest) = .plain := by
  cases type with
  | object =>
      simp only [pushText, String.append_assoc]
      exact lineKind_opening (by decide) (by decide) _
  | _ =>
      simp only [pushText, StackType.suffix, String.append_assoc]
      rw [← String.append_assoc]
      exact lineKind_function (Symbol.isSymbolic_of_all rfl) (by decide) (by simp)

theorem Ordinary.lineKind_text {context : MethodContext} (named : context.list.WellNamed)
    {single : Stmt} (ordinary : Ordinary context single) (depth : Nat) :
    lineKind (line depth single.text) = .plain := by
  rw [lineKind_line]
  cases single with
  | push type value => exact lineKind_pushText type value _
  | pushCall type application => exact lineKind_pushText type application.text _
  | shuffle kind => cases kind <;> decide
  | pop type name =>
      rw [Stmt.text_pop]
      simp only [String.append_assoc]
      cases type <;>
        exact lineKind_variable (Symbol.isSymbolic_of_all rfl) (by decide) (by decide) (by simp)
  | popInto type name =>
      obtain ⟨slot, known⟩ := ordinary
      rw [Stmt.text_popInto]
      simp only [String.append_assoc]
      exact lineKind_local named ⟨slot, type, known⟩ (by simp)
  | increment name delta =>
      rw [Stmt.text_increment]
      simp only [String.append_assoc]
      exact lineKind_local named ordinary (by simp)
  | assign target value =>
      rw [Stmt.text_assign]
      rcases ordinary with known | ⟨element, rfl⟩
      · simp only [String.append_assoc]
        exact lineKind_local named known (by simp)
      · simp only [elementText, String.append_assoc]
        rw [← String.append_assoc]
        cases element <;>
          exact lineKind_function (Symbol.isSymbolic_of_all rfl) (by decide) (by simp)
  | call application =>
      obtain ⟨call, type, target⟩ := ordinary
      rw [Stmt.text_call, C.Call.text, ← target]
      simp only [String.append_assoc]
      exact lineKind_function (isSymbolic_callTarget _ call type) (callTarget_other _ call type) (by simp)
  | set setter =>
      obtain ⟨action, known, owner, name, accessor⟩ := ordinary
      rw [Stmt.text_set, C.Call.text, ← accessor]
      simp only [String.append_assoc]
      exact lineKind_setter known owner name (by simp)
  | setPopped setter type =>
      obtain ⟨owner, name, rfl⟩ := ordinary
      rw [Stmt.text_setPopped]
      simp only [String.append_assoc]
      exact lineKind_setter (by simp) owner name (by simp)
  | monitor function name =>
      rw [Stmt.text_monitor]
      simp only [String.append_assoc]
      rcases ordinary with rfl | rfl <;>
        exact lineKind_function (Symbol.isSymbolic_of_all rfl) (by decide) (by simp)
  | returnValue type name =>
      rw [Stmt.text_returnValue]
      split <;> simp only [String.append_assoc] <;> exact lineKind_opening (by decide) (by decide) _
  | saveTry | beginTry | endTry | jump | branch => cases ordinary
  | exitTries | returnVoid | throwTop => decide
  | _ =>
      -- The other texts begin with a fixed word of the runtime.
      simp only [Stmt.text_comment, Stmt.text_pushFresh, Stmt.text_pushMoved, Stmt.text_retain,
        Stmt.text_release, Stmt.text_releaseFresh, Stmt.text_checkNull, Stmt.text_checkArrayAccess,
        Stmt.text_checkCast, Stmt.text_classBackref, Stmt.text_setFlag, String.append_assoc]
      exact lineKind_opening (by decide) (by decide) _

/-! Lines of instructions other than labels -/

theorem Routine.lineKind_lines {context : MethodContext} (named : context.list.WellNamed)
    {items : List Item} (routine : Routine context items) :
    ∀ text ∈ items.flatMap Item.lines, lineKind text = .plain := by
  intro text printed
  obtain ⟨item, member, here⟩ := List.mem_flatMap.mp printed
  have ordinary := routine item member
  cases item with
  | stmt single =>
      obtain rfl := List.mem_singleton.mp here
      exact Ordinary.lineKind_text named ordinary 1
  | block body =>
      simp only [Item.lines, List.mem_append, List.mem_cons, List.mem_map, List.not_mem_nil,
        or_false] at here
      rcases here with (rfl | ⟨single, inside, rfl⟩) | rfl
      · decide
      · exact Ordinary.lineKind_text named (ordinary single inside) 2
      · decide
  | switch | anchor => cases ordinary

theorem Routine.linesOf {context : MethodContext} (named : context.list.WellNamed)
    {items : List Item} (routine : Routine context items) {kind : LineKind} (other : kind ≠ .plain) :
    linesOf kind items = [] := by
  refine linesOf_eq_nil fun text printed => ?_
  rw [routine.lineKind_lines named text printed]
  exact other.symm

theorem lineKind_jump (depth : Nat) (jump : Jump) :
    lineKind (line depth (Stmt.jump jump).text) = .jump := by
  rw [lineKind_line, Stmt.text_jump, Jump.text]
  split <;> simp only [String.append_assoc] <;> exact lineKind_opening (by decide) (by decide) _

theorem lineKind_branch (depth : Nat) (test : Test) (jump : Jump) :
    lineKind (line depth (Stmt.branch test jump).text) = .jump := by
  rw [lineKind_line, Stmt.text_branch]
  simp only [String.append_assoc]
  exact lineKind_opening (by decide) (by decide) _

theorem lineKind_anchor (id : Label) : lineKind (labelName id ++ ": ;\n") = .scope := by
  have symbolic : Symbol.IsSymbolic (labelName id) :=
    Symbol.isSymbolic_append.mpr ⟨Symbol.isSymbolic_of_all rfl, Symbol.isSymbolic_toString _⟩
  have head : lineHead (labelName id ++ ": ;\n") = (labelName id, some ':') :=
    lineHead_word symbolic (by simp [labelName]) (by decide) (by decide)
  rw [lineKind, head]
  simp [headKind, labelName]

theorem lineKind_mark {single : Stmt} (marks : single.mark? ≠ none) (depth : Nat) :
    lineKind (line depth single.text) = .scope := by
  cases single with
  | beginTry classId handler seq =>
      rw [lineKind_line, Stmt.text_beginTry]
      simp only [String.append_assoc]
      exact lineKind_opening (by decide) (by decide) _
  | endTry seq =>
      rw [lineKind_line, Stmt.text_endTry]
      simp only [String.append_assoc]
      exact lineKind_opening (by decide) (by decide) _
  | _ => exact absurd rfl marks

theorem lineKind_saveTry (depth seq : Nat) :
    lineKind (line depth (Stmt.saveTry seq).text) = .scope := by
  rw [lineKind_line, Stmt.text_saveTry]
  simp only [String.append_assoc]
  exact lineKind_opening (by decide) (by decide) _

theorem lineKind_switch {cases : List (Int32 × Jump)} {default : Option Jump} {text : String}
    (printed : text ∈ (Item.switch cases default).lines.dropLast) : lineKind text = .jump := by
  simp only [Item.lines, List.dropLast_concat, List.mem_append, List.mem_cons, List.mem_map]
    at printed
  rcases printed with (rfl | ⟨entry, _, rfl⟩) | ⟨jump, _, rfl⟩
  · decide
  all_goals
    rw [lineKind_line]
    simp only [String.append_assoc]
    exact lineKind_opening (by decide) (by decide) _

end Emission

namespace C

def conditionalLine (jump : String) : Condition → String
  | .zero test => "    if (POP_INT() " ++ test.text ++ " 0) " ++ jump ++ "\n"
  | .ints test => "        if (__a " ++ test.text ++ " __b) " ++ jump ++ "\n"
  | .references _ | .null _ => "        if (__cond) " ++ jump ++ "\n"

/-- The jumps that an instruction prints, where `jump` prints the jump to a label. -/
def jumpLines (jump : Label → String) : Instr → List String
  | .jump op target given =>
    match op.condition?, given with
    | none, _ => ["    " ++ jump target ++ "\n"]
    | some _, some text => ["    if (" ++ text ++ ") " ++ jump target ++ "\n"]
    | some condition, none => [conditionalLine (jump target) condition]
  | .switch default keys targets =>
    "    switch (POP_INT()) \x7b\n" ::
      (keys.zip targets).map (fun entry =>
        "        case " ++ Literal.int entry.1 ++ ": " ++ jump entry.2 ++ "\n") ++
      default.toList.map fun target => "        default: " ++ jump target ++ "\n"
  | _ => []

end C

namespace Emission

open C

theorem linesOf_block {kind : LineKind} (other : kind ≠ .plain) (body : List Stmt) :
    linesOf kind [.block body] =
      (body.map fun single => line 2 single.text).filter (lineKind · = kind) := by
  have opening : lineKind (line 1 "\x7b") = .plain := by decide
  have closing : lineKind (line 1 "\x7d") = .plain := by decide
  simp [linesOf, Item.lines, opening, closing, other.symm]

theorem linesOf_branching {context : MethodContext} (named : context.list.WellNamed)
    {body : List Stmt} (ordinary : ∀ single ∈ body, Ordinary context single) (test : Test)
    (jump : Jump) :
    linesOf .jump [.block (body ++ [.branch test jump])] = [line 2 (Stmt.branch test jump).text] ∧
      linesOf .scope [.block (body ++ [.branch test jump])] = [] := by
  have plain (kind : LineKind) (other : kind ≠ .plain) :
      (body.map fun single => line 2 single.text).filter (lineKind · = kind) = [] := by
    refine List.filter_eq_nil_iff.mpr fun text printed same => ?_
    obtain ⟨single, member, rfl⟩ := List.mem_map.mp printed
    rw [Ordinary.lineKind_text named (ordinary single member), decide_eq_true_iff] at same
    exact other same.symm
  have branch := lineKind_branch 2 test jump
  constructor
  · rw [linesOf_block (by decide), List.map_append, List.filter_append, plain .jump (by decide)]
    simp only [List.map_cons, List.map_nil, List.nil_append, branch, decide_true,
      List.filter_cons_of_pos, List.filter_nil]
  · rw [linesOf_block (by decide), List.map_append, List.filter_append, plain .scope (by decide)]
    simp only [List.map_cons, List.map_nil, List.nil_append, List.filter_cons, branch, reduceCtorEq,
      decide_false, Bool.false_eq_true, ↓reduceIte, List.filter_nil]

theorem linesOf_stmt_jump {single : Stmt} (jumps : lineKind (line 1 single.text) = .jump) :
    linesOf .jump [.stmt single] = [line 1 single.text] ∧ linesOf .scope [.stmt single] = [] := by
  simp only [linesOf, Item.lines, List.flatMap_cons, List.flatMap_nil, List.append_nil,
    List.filter_cons, jumps, reduceCtorEq, decide_true, decide_false, Bool.false_eq_true, ↓reduceIte,
    List.filter_nil, and_self]

theorem linesOf_conditional {context : MethodContext} (named : context.list.WellNamed)
    (condition : Condition) (jump : Jump) :
    linesOf .jump (conditional condition jump) = [conditionalLine jump.text condition] ∧
      linesOf .scope (conditional condition jump) = [] := by
  have blocks {body : List Stmt} (ordinary : ∀ single ∈ body, Ordinary context single) (test : Test)
      {text : String} (same : line 2 (Stmt.branch test jump).text = text) {items : List Item}
      (shape : items = [.block (body ++ [.branch test jump])]) :
      linesOf .jump items = [text] ∧ linesOf .scope items = [] := by
    rw [← same, shape]
    exact linesOf_branching named ordinary test jump
  have flagged : line 2 (Stmt.branch (.flag "__cond") jump).text =
      "        if (__cond) " ++ jump.text ++ "\n" := by
    rw [line_two, Stmt.text_branch, Test.text]
    simp [← String.toList_inj]
  cases condition with
  | zero test =>
      obtain ⟨jumps, scopes⟩ := linesOf_stmt_jump (lineKind_branch 1 (.popped test) jump)
      have same : line 1 (Stmt.branch (.popped test) jump).text =
          "    if (POP_INT() " ++ test.text ++ " 0) " ++ jump.text ++ "\n" := by
        rw [line_one, Stmt.text_branch, Test.text]
        simp [← String.toList_inj]
      exact ⟨jumps.trans (congrArg (fun text => [text]) same), scopes⟩
  | ints test =>
      have ordinary : ∀ single ∈ [Stmt.pop .int "__b", .pop .int "__a"], Ordinary context single := by
        simp [Ordinary]
      have same : line 2 (Stmt.branch (.compared test "__a" "__b") jump).text =
          "        if (__a " ++ test.text ++ " __b) " ++ jump.text ++ "\n" := by
        rw [line_two, Stmt.text_branch, Test.text]
        simp [← String.toList_inj]
      exact blocks ordinary (.compared test "__a" "__b") same rfl
  | references test =>
      have ordinary : ∀ single ∈ [Stmt.pop .object "__b", .pop .object "__a",
          .setFlag "__cond" test "__a" "__b", .release "__a", .release "__b"],
          Ordinary context single := by
        simp [Ordinary]
      exact blocks ordinary (.flag "__cond") flagged rfl
  | null test =>
      have ordinary : ∀ single ∈ [Stmt.pop .object "__v",
          .setFlag "__cond" test "__v" "JAVA_NULL", .release "__v"], Ordinary context single := by
        simp [Ordinary]
      exact blocks ordinary (.flag "__cond") flagged rfl

theorem linesOf_switch (cases : List (Int32 × Jump)) (default : Option Jump) :
    linesOf .jump [.switch cases default] = (Item.switch cases default).lines.dropLast ∧
      linesOf .scope [.switch cases default] = [] := by
  have whole : (Item.switch cases default).lines =
      (Item.switch cases default).lines.dropLast ++ [line 1 "\x7d"] := by
    rw [Item.lines, List.dropLast_concat]
  have jumps (text : String) (printed : text ∈ (Item.switch cases default).lines.dropLast) :=
    lineKind_switch printed
  have closing : lineKind (line 1 "\x7d") = .plain := by decide
  generalize (Item.switch cases default).lines.dropLast = rows at whole jumps ⊢
  simp only [linesOf, List.flatMap_cons, List.flatMap_nil, List.append_nil, whole, List.filter_append]
  constructor
  · rw [List.filter_eq_self.mpr fun text printed => by simp [jumps text printed]]
    simp [closing]
  · rw [List.filter_eq_nil_iff.mpr fun text printed => by simp [jumps text printed]]
    simp [closing]

theorem Emits.linesOf_scope {context : MethodContext} (named : context.list.WellNamed)
    {reached : Label → Jump → Prop} {instruction : Instr} {items : List Item}
    (emits : Emits context reached instruction items) : linesOf .scope items = [] := by
  cases emits with
  | routine _ routine => exact routine.linesOf named (by decide)
  | goto => exact (linesOf_stmt_jump (lineKind_jump 1 _)).2
  | given => exact (linesOf_stmt_jump (lineKind_branch 1 _ _)).2
  | conditional => exact (linesOf_conditional named _ _).2
  | switch => exact (linesOf_switch _ _).2

/-- Where every label is jumped to in one way, an instruction prints that jump for its targets. -/
theorem Emits.linesOf_jump {context : MethodContext} (named : context.list.WellNamed)
    {jumpTo : Label → Jump} {instruction : Instr} {items : List Item}
    (emits : Emits context (jumpTo · = ·) instruction items) :
    linesOf .jump items = jumpLines (fun target => (jumpTo target).text) instruction := by
  cases emits with
  | routine none routine =>
      rw [routine.linesOf named (by decide)]
      cases instruction <;> first | rfl | cases none
  | goto unconditional reaches =>
      obtain rfl := reaches
      rw [(linesOf_stmt_jump (lineKind_jump 1 _)).1]
      simp [jumpLines, unconditional, line_one]
  | given conditional reaches =>
      obtain rfl := reaches
      rw [(linesOf_stmt_jump (lineKind_branch 1 _ _)).1]
      simp [jumpLines, conditional, line_one, Test.text, ← String.toList_inj]
  | conditional known reaches =>
      obtain rfl := reaches
      rw [(linesOf_conditional named _ _).1]
      simp [jumpLines, known]
  | @switch default keys targets jumps other arity reaches defaults =>
      have cases : targets.map jumpTo = jumps := by
        rw [← List.forall₂_eq_eq_eq]
        exact List.forall₂_map_left_iff.mpr reaches
      have rest : default.toList.map jumpTo = other.toList := by
        rw [← List.forall₂_eq_eq_eq]
        exact List.forall₂_map_left_iff.mpr defaults
      have header : line 1 "switch (POP_INT()) \x7b" = "    switch (POP_INT()) \x7b\n" := by decide
      rw [(linesOf_switch _ _).1, Item.lines, List.dropLast_concat, ← cases, ← rest, header,
        List.zip_map_right, List.map_map, List.map_map]
      simp only [Function.comp_def, line_case, line_default, Prod.map_fst, Prod.map_snd, id_eq]
      rfl

end Emission

end BytecodeToC
