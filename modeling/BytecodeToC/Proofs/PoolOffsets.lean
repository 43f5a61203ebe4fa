import BytecodeToC.Proofs.Annotations
import BytecodeToC.Proofs.SymbolWords

/-!
Offsets into the constant pool. A literal gets its offset while its method is assembled, the pool only
grows from then on, and the initializers of the C array are its entries in their order. So the
offset still leads to the literal when the whole unit is written, and the offset is what the code of the
method asks the pool for.
-/

namespace BytecodeToC

open Result

/-! Growth of the pool -/

namespace ConstantPool

theorem entries_intern (pool : ConstantPool) (entry : PoolEntry) :
    (pool.intern entry).2.entries =
      if entry ∈ pool.entries then pool.entries else pool.entries ++ [entry] := by
  unfold intern
  split
  next offset found =>
    have member : entry ∈ pool.entries := by
      by_contra absent
      simp [List.idxOf?_eq_none_iff.mpr absent] at found
    simp [member]
  next absent => simp [List.idxOf?_eq_none_iff.mp absent]

theorem internAll_append (pool : ConstantPool) (first second : List PoolEntry) :
    pool.internAll (first ++ second) = (pool.internAll first).internAll second :=
  List.foldl_append

theorem nodup_internAll {pool : ConstantPool} (distinct : pool.entries.Nodup)
    (entries : List PoolEntry) : (pool.internAll entries).entries.Nodup := by
  induction entries generalizing pool with
  | nil => exact distinct
  | cons entry rest ih => exact ih (intern_nodup distinct entry)

theorem entries_prefix_internAll (pool : ConstantPool) (entries : List PoolEntry) :
    pool.entries <+: (pool.internAll entries).entries := by
  induction entries generalizing pool with
  | nil => exact List.prefix_rfl
  | cons entry rest ih => exact (entries_prefix_intern pool entry).trans (ih _)

/-- A pool goes on with what is new, each entry where it comes first. -/
theorem entries_internAll (pool : ConstantPool) (entries : List PoolEntry) :
    (pool.internAll entries).entries =
      pool.entries ++ (entries.removeAll pool.entries).eraseDups := by
  induction entries generalizing pool with
  | nil => simp [internAll]
  | cons entry rest ih =>
      have step : pool.internAll (entry :: rest) = (pool.intern entry).2.internAll rest := rfl
      rw [step, ih, entries_intern]
      by_cases old : entry ∈ pool.entries
      · simp [old, List.cons_removeAll]
      · have later : rest.removeAll (pool.entries ++ [entry]) =
            (rest.removeAll pool.entries).filter fun other => !other == entry := by
          simp [List.removeAll, List.filter_filter, Bool.and_comm, ← Bool.beq_eq_decide_eq]
        simp [old, later, List.cons_removeAll, List.eraseDups_cons]

end ConstantPool

/-! Literals and their offsets -/

def Instr.literal? : Instr → Option (PoolEntry × Option Nat)
  | .constant value offset => value.poolEntry?.map fun entry => (entry, offset)
  | _ => none

theorem Instr.literal?_of_operands {instr : Instr} (composite : instr.operands ≠ []) :
    instr.literal? = none := by
  cases instr with
  | constant value offset => exact absurd rfl composite
  | _ => rfl

def PoolEntry.access (entry : PoolEntry) (offset : Nat) : String :=
  match entry with
  | string _ => "STRING_FROM_CONSTANT_POOL_OFFSET(" ++ toString offset ++ ")"
  | type _ => "CLASS_FROM_CONSTANT_POOL_OFFSET(" ++ toString offset ++ ")"

theorem Constant.value_of_poolEntry {value : Constant} {entry : PoolEntry}
    (literal : value.poolEntry? = some entry) (offset : Nat) :
    Instr.constantValue? value (some offset) = some (entry.access offset, .object) := by
  cases value with
  | string text =>
      cases literal
      exact Instr.constantValue?_string text offset
  | type name =>
      cases literal
      exact Instr.constantValue?_type name offset
  | _ => cases literal

theorem Instr.literal?_eq_some {instr : Instr} {entry : PoolEntry} {offset : Option Nat}
    (literal : instr.literal? = some (entry, offset)) :
    ∃ value, instr = .constant value offset ∧ value.poolEntry? = some entry := by
  cases instr with
  | constant value given =>
      obtain ⟨found, known, same⟩ := Option.map_eq_some_iff.mp literal
      cases same
      exact ⟨value, rfl, known⟩
  | _ => cases literal

/-- A literal stands for the access to its place in the pool, as an operand of any expression. -/
theorem Listing.assignable?_literal (list : Listing) {instr : Instr} {entry : PoolEntry} {offset : Nat}
    (literal : instr.literal? = some (entry, some offset)) :
    list.assignable? instr =
      some { text := entry.access offset, type := .object, effect := .pure } := by
  obtain ⟨value, rfl, known⟩ := Instr.literal?_eq_some literal
  simp only [assignable?, operandValue?, leafValue?, Constant.value_of_poolEntry known, Option.map_some]

theorem Emission.ensures_push_literal (context : MethodContext) (instruction : Instr) :
    Emit.Ensures (fun _ => True)
      (fun items => ∀ entry offset, instruction.literal? = some (entry, some offset) →
        C.bodyText items = "    PUSH_OBJ(RETAIN(" ++ entry.access offset ++ "));\n")
      (fun _ => True) (instr context instruction) := by
  intro state _
  refine ⟨trivial, ?_, fun _ _ => trivial⟩
  intro items made entry offset literal
  obtain ⟨value, rfl, known⟩ := Instr.literal?_eq_some literal
  have loaded : constantLoad value (some offset) = .ok items := made
  have pushed : constantLoad value (some offset) =
      .ok [.stmt (.push .object (entry.access offset))] := by
    unfold constantLoad
    rw [Constant.value_of_poolEntry known]
    cases value <;> first | rfl | cases known
  rw [pushed] at loaded
  cases loaded
  have printed := C.bodyText_stmts [.push .object (entry.access offset)]
  simpa [← String.toList_inj, C.pushText] using printed

def Listing.literals (list : Listing) : List (PoolEntry × Option Nat) :=
  list.nodes.toList.filterMap Instr.literal?

def ConstantPool.Holds (pool : ConstantPool) (literal : PoolEntry × Option Nat) : Prop :=
  ∃ offset, literal.2 = some offset ∧ pool.entries[offset]? = some literal.1

namespace ConstantPool

theorem Holds.mono {pool grown : ConstantPool} (grows : pool.entries <+: grown.entries)
    {literal : PoolEntry × Option Nat} (holds : pool.Holds literal) : grown.Holds literal := by
  obtain ⟨offset, carried, found⟩ := holds
  obtain ⟨rest, more⟩ := grows
  have bound := (List.getElem?_eq_some_iff.mp found).1
  exact ⟨offset, carried, by rw [← more, List.getElem?_append_left bound, found]⟩

theorem literal?_place (pool : ConstantPool) {record : Record} {instr : Instr}
    (makes : record.Makes instr) :
    (pool.place instr).1.literal?.map Prod.fst = record.literal? ∧
      ∀ literal ∈ (pool.place instr).1.literal?, (pool.place instr).2.Holds literal := by
  cases makes with
  | @constant value =>
      cases value with
      | string text =>
          refine ⟨rfl, ?_⟩
          rintro literal ⟨⟩
          exact ⟨_, rfl, pool.intern_get _⟩
      | type name =>
          refine ⟨rfl, ?_⟩
          rintro literal ⟨⟩
          exact ⟨_, rfl, pool.intern_get _⟩
      | _ => simp [place, Instr.literal?, Record.literal?, Constant.poolEntry?]
  | _ => simp [place, Instr.literal?, Record.literal?]

end ConstantPool

namespace Listing

theorem literals_push (list : Listing) (instr : Instr) :
    (list.push instr).2.literals = list.literals ++ instr.literal?.toList := by
  cases own : instr.literal? <;> simp [literals, Listing.push, alloc, own]

theorem literals_append (list : Listing) (receiverStable : Bool) (instr : Instr) :
    (list.append receiverStable instr).literals = list.literals ++ instr.literal?.toList := by
  unfold append
  split
  · split
    · exact literals_push list.pop.2 _
    · exact literals_push list _
  · exact literals_push list _

theorem literals_appendRegions (entries : List TryEntry) (list : Listing) (scope : MethodScope) :
    (appendRegions entries list scope).1.literals = list.literals := by
  induction entries generalizing list scope with
  | nil => rfl
  | cons entry rest ih =>
      simp only [appendRegions]
      split
      · exact ih list scope
      · rw [ih, literals_push]
        exact List.append_nil _

theorem literals_appendRecords {receiverStable : Bool} {records : List Record}
    {list result : Listing} {pool grown : ConstantPool}
    (held : ∀ literal ∈ list.literals, pool.Holds literal)
    (appended : appendRecords receiverStable records list pool = (.ok result, grown)) :
    result.literals.map Prod.fst = list.literals.map Prod.fst ++ records.filterMap Record.literal? ∧
      ∀ literal ∈ result.literals, grown.Holds literal := by
  induction records generalizing list pool with
  | nil =>
      cases appended
      exact ⟨by simp, held⟩
  | cons record rest ih =>
      simp only [appendRecords] at appended
      split at appended
      next => simp at appended
      next instr read =>
        split at appended
        next => simp at appended
        next named bound =>
          obtain ⟨names, rfl⟩ := bindNameOf_eq_ok bound
          have makes := Record.makes_of_instr read
          obtain ⟨entry, placed⟩ := pool.literal?_place makes
          have grows : pool.entries <+: (pool.place instr).2.entries := by
            rw [pool.place_of_makes makes]
            exact pool.entries_prefix_internAll _
          have next : ∀ literal ∈ list.literals ++ (pool.place instr).1.literal?.toList,
              (pool.place instr).2.Holds literal := by
            intro literal member
            rcases List.mem_append.mp member with older | new
            · exact (held literal older).mono grows
            · exact placed literal (Option.mem_toList.mp new)
          obtain ⟨order, holds⟩ := ih (by rw [literals_append]; exact next) appended
          have own : (pool.place instr).1.literal?.toList.map Prod.fst = record.literal?.toList := by
            rw [← entry]
            cases (pool.place instr).1.literal? <;> rfl
          have renamed : Listing.literals { list with names } = list.literals := rfl
          refine ⟨?_, holds⟩
          rw [order, literals_append, List.map_append, own, renamed]
          cases literal : record.literal? <;> simp [literal]

theorem literals_foldRun {list last : Listing} {count : Nat} (run : FoldRun count list last) :
    last.literals = list.literals := by
  induction run with
  | done list => rfl
  | step folded rest ih =>
      obtain ⟨before, operands, operator, after, op, immediate, node, _, _, foldable, _, _, rfl⟩ :=
        (foldAt?_eq_some_iff ..).mp folded
      have composite : node.literal? = none :=
        Instr.literal?_of_operands (by cases foldable <;> simp)
      rw [ih]
      simp [literals, withNode, composite]

theorem literals_under (list : Listing) (options : Options) :
    (list.under options).literals = list.literals := by
  unfold under
  split
  · exact literals_foldRun list.fold_run
  · rfl

end Listing

/-! Methods and runs -/

theorem MethodDecl.literals_assemble {method : MethodDecl} {unit after : UnitState} {list : Listing}
    (assembled : method.assemble unit = (.ok list, after)) :
    list.literals.map Prod.fst = method.code.filterMap Record.literal? ∧
      ∀ literal ∈ list.literals, after.pool.Holds literal := by
  obtain ⟨pool, appended, rfl⟩ := MethodDecl.assemble_eq_ok assembled
  have none : (Listing.appendRegions method.tryCatch .empty unit.scope).1.literals = [] :=
    Listing.literals_appendRegions ..
  obtain ⟨order, holds⟩ := Listing.literals_appendRecords (by simp [none]) appended
  exact ⟨by simpa [none] using order, holds⟩

theorem MethodDecl.pool_lower (method : MethodDecl) (owner : String) (index : ClassIndex)
    (options : Options) (unit : UnitState) :
    (method.lower owner index options unit).2.pool = unit.pool.internAll method.literals := by
  have grown := (method.assemble_recordsRead unit.beginMethod).1
  rw [← show unit.beginMethod.pool = unit.pool from rfl, ← grown]
  unfold MethodDecl.lower
  split
  next error after failed => rw [failed]
  next list after assembled =>
    obtain ⟨result, last, calls, same⟩ :=
      (method.header owner).lower_frame list index options after.scope
    rw [assembled, show after = ⟨after.scope, after.pool, after.virtualCalls⟩ from rfl, same]

namespace Program

def literals (program : Program) : List PoolEntry :=
  program.methodsWithCode.flatMap fun entry => entry.2.literals

theorem pool_lowerMethods {index : ClassIndex} {options : Options}
    {methods : List (String × MethodDecl)} {unit : UnitState} {progress : Progress}
    (success : lowerMethods index options methods unit = .ok progress) :
    progress.unit.pool = unit.pool.internAll (methods.flatMap fun entry => entry.2.literals) := by
  induction methods generalizing unit progress with
  | nil =>
      cases success
      rfl
  | cons entry rest ih =>
      obtain ⟨owner, method⟩ := entry
      have here := method.pool_lower owner index options unit
      rw [List.flatMap_cons, ConstantPool.internAll_append, ← here]
      simp only [lowerMethods] at success
      split at success
      next lowered after made =>
        obtain ⟨others, later, rfl⟩ := (map_eq_ok_iff ..).mp success
        have last := ih later
        rwa [made]
      next error after failed =>
        split at success
        next =>
          obtain ⟨others, later, rfl⟩ := (map_eq_ok_iff ..).mp success
          have last := ih later
          rwa [failed]
        next => simp at success

theorem literals_of_mem_visitsFrom {methods : List (String × MethodDecl)} {pool : ConstantPool}
    {visit : Visit} (member : visit ∈ visitsFrom methods pool) :
    ∃ entry ∈ methods, visit.header = entry.2.header entry.1 ∧
      visit.list.literals.map Prod.fst = entry.2.code.filterMap Record.literal? ∧
      ∀ literal ∈ visit.list.literals,
        (pool.internAll (methods.flatMap fun entry => entry.2.literals)).Holds literal := by
  induction methods generalizing pool with
  | nil => simp [visitsFrom] at member
  | cons entry rest ih =>
      obtain ⟨owner, method⟩ := entry
      have grown : (method.assemble { pool }).2.pool = pool.internAll method.literals :=
        (method.assemble_recordsRead { pool }).1
      rw [List.flatMap_cons, ConstantPool.internAll_append, ← grown]
      have later (found : visit ∈ visitsFrom rest (method.assemble { pool }).2.pool) :
          ∃ entry ∈ (owner, method) :: rest, visit.header = entry.2.header entry.1 ∧
            visit.list.literals.map Prod.fst = entry.2.code.filterMap Record.literal? ∧
            ∀ literal ∈ visit.list.literals,
              ((method.assemble { pool }).2.pool.internAll
                (rest.flatMap fun entry => entry.2.literals)).Holds literal := by
        obtain ⟨other, known, facts⟩ := ih found
        exact ⟨other, List.mem_cons_of_mem _ known, facts⟩
      simp only [visitsFrom] at member
      split at member
      next list unit made =>
        rw [made] at later ⊢
        rcases List.mem_cons.mp member with rfl | found
        · obtain ⟨order, holds⟩ := MethodDecl.literals_assemble made
          refine ⟨_, List.mem_cons_self, rfl, order, fun literal known => ?_⟩
          exact (holds literal known).mono (unit.pool.entries_prefix_internAll _)
        · exact later found
      next error unit failed =>
        rw [failed] at later ⊢
        exact later member

end Program

/-! Lines of the C text -/

namespace C

def lines (text : String) : List String := (text.toList.splitOn '\n').map String.ofList

theorem lines_cons {line : String} (single : '\n' ∉ line.toList) (rest : String) :
    lines (line ++ "\n" ++ rest) = line :: lines rest := by
  simp [lines, List.splitOn_append_cons_self_of_not_mem single]

theorem lines_join {written : List String} (single : ∀ line ∈ written, '\n' ∉ line.toList)
    (rest : String) :
    lines (String.join (written.map (· ++ "\n")) ++ rest) = written ++ lines rest := by
  induction written with
  | nil => simp
  | cons line others ih =>
      have first := single line List.mem_cons_self
      have later := ih fun other member => single other (List.mem_cons_of_mem _ member)
      rw [List.map_cons, String.join_cons, String.append_assoc, lines_cons first, later,
        List.cons_append]

end C

namespace LoweredUnit

def poolOpening : String := "static const char* const CONSTANT_POOL[] = \x7b"

def poolClosing : String := "\x7d;"

def poolLines (text : String) : List String :=
  ((C.lines text).dropWhile (· ≠ poolOpening)).tail.takeWhile (· ≠ poolClosing)

def initializer (entry : PoolEntry) : String := "    " ++ Literal.string entry.text ++ ","

theorem newline_not_mem_escapeByte (byte : UInt8) : '\n' ∉ Literal.escapeByte byte := by
  have all : ∀ code < 256, '\n' ∉ Literal.escapeByte (UInt8.ofNat code) := by decide +kernel
  simpa using all byte.toNat byte.toNat_lt

theorem newline_not_mem_initializer (entry : PoolEntry) : '\n' ∉ (initializer entry).toList := by
  simp [initializer, Literal.string, newline_not_mem_escapeByte]

def includeLine (header : String) : String := "#include \"" ++ header ++ "\""

def leadingLines (unit : LoweredUnit) : List String :=
  includeLine runtimeHeader ::
    unit.dependencies.names.map (fun name => includeLine (name ++ ".h")) ++ [""]

theorem text_eq (unit : LoweredUnit) (used : unit.pool.entries ≠ []) :
    unit.text =
      String.join ((unit.leadingLines ++
        poolOpening :: unit.pool.entries.map initializer ++ [poolClosing]).map (· ++ "\n")) ++
      String.join (unit.methods.map fun method => "\n" ++ method.code) := by
  have opening : "\nstatic const char* const CONSTANT_POOL[] = \x7b\n" =
      "\n" ++ (poolOpening ++ "\n") := rfl
  have closing : "\x7d;\n" = poolClosing ++ "\n" := rfl
  unfold text poolText
  split
  next none => exact absurd none used
  next =>
    simp [opening, closing, leadingLines, includeText, includeLine, initializer, C.line,
      String.append_assoc, Function.comp_def]

theorem mem_leadingLines {unit : LoweredUnit} {line : String}
    (single : ∀ name ∈ unit.dependencies, '\n' ∉ name.toList) (member : line ∈ unit.leadingLines) :
    '\n' ∉ line.toList ∧ line ≠ poolOpening := by
  have header (name : String) (clean : '\n' ∉ name.toList) :
      '\n' ∉ (includeLine name).toList ∧ includeLine name ≠ poolOpening := by
    refine ⟨by simpa [includeLine] using clean, fun same => ?_⟩
    have first := congrArg (fun text => text.toList.head?) same
    simp [includeLine, poolOpening] at first
  simp only [leadingLines, List.cons_append, List.mem_cons, List.mem_append, List.mem_map,
    List.not_mem_nil, or_false] at member
  rcases member with rfl | ⟨name, known, rfl⟩ | rfl
  · exact header runtimeHeader (by decide)
  · exact header _ (by simpa using single name known)
  · decide

theorem initializer_ne_poolClosing (entry : PoolEntry) : initializer entry ≠ poolClosing := by
  intro same
  have first := congrArg (fun text => text.toList.head?) same
  simp [initializer, poolClosing] at first

theorem poolLines_text {unit : LoweredUnit} (used : unit.pool.entries ≠ [])
    (single : ∀ name ∈ unit.dependencies, '\n' ∉ name.toList) :
    poolLines unit.text = unit.pool.entries.map initializer := by
  have whole : ∀ line ∈ unit.leadingLines ++
      poolOpening :: unit.pool.entries.map initializer ++ [poolClosing], '\n' ∉ line.toList := by
    intro line member
    simp only [List.mem_append, List.mem_cons, List.mem_map, List.not_mem_nil, or_false] at member
    rcases member with (leading | rfl | ⟨entry, _, rfl⟩) | rfl
    · exact (mem_leadingLines single leading).1
    · decide
    · exact newline_not_mem_initializer entry
    · decide
  have leading : ∀ line ∈ unit.leadingLines, decide (line ≠ poolOpening) = true := by
    intro line member
    simpa using (mem_leadingLines single member).2
  have inside : ∀ line ∈ unit.pool.entries.map initializer, decide (line ≠ poolClosing) = true := by
    intro line member
    obtain ⟨entry, _, rfl⟩ := List.mem_map.mp member
    simpa using initializer_ne_poolClosing entry
  rw [poolLines, text_eq unit used, C.lines_join whole, List.append_assoc, List.append_assoc,
    List.dropWhile_append_of_pos leading, List.cons_append, List.dropWhile_cons_of_neg (by simp),
    List.tail_cons, List.takeWhile_append_of_pos inside]
  simp

end LoweredUnit

namespace Instr

theorem mem_typeDependencies {type : FieldType} {name : String} (member : name ∈ typeDependencies type) :
    ∃ source, name = Symbol.ofClass source := by
  induction type with
  | primitive kind => simp [typeDependencies] at member
  | reference source => exact ⟨source, by simpa [typeDependencies] using member⟩
  | array element ih => exact ih member

theorem mem_nameDependencies {typeName name : String} (member : name ∈ nameDependencies typeName) :
    ∃ source, name = Symbol.ofClass source := by
  simp only [nameDependencies, Option.mem_toList, Option.map_eq_some_iff] at member
  obtain ⟨source, _, same⟩ := member
  exact ⟨source, same.symm⟩

theorem exists_of_mem_dependencies {instr : Instr} {name : String}
    (member : name ∈ instr.dependencies) : ∃ source, name = Symbol.ofClass source := by
  cases instr with
  | field access =>
      rcases List.mem_cons.mp member with rfl | later
      · exact ⟨access.owner, rfl⟩
      · exact mem_nameDependencies later
  | invoke call =>
      rcases List.mem_append.mp member with owner | types
      · split at owner
        · simp at owner
        · exact ⟨call.owner, by simpa using owner⟩
      · split at types
        · obtain ⟨type, _, found⟩ := List.mem_flatMap.mp types
          exact mem_typeDependencies found
        · simp at types
  | type op typeName => exact mem_nameDependencies member
  | multiArray descriptor dimensions => exact mem_nameDependencies member
  | constant value offset =>
      cases value with
      | type source => exact mem_nameDependencies member
      | string text => exact ⟨_, by simpa [dependencies] using member⟩
      | _ => simp [dependencies] at member
  | tryRegion region =>
      simp only [dependencies, Option.mem_toList, Option.map_eq_some_iff] at member
      obtain ⟨source, _, same⟩ := member
      exact ⟨source, same.symm⟩
  | _ => simp [dependencies] at member

end Instr

theorem Program.newline_not_mem_dependencies {program : Program} {options : Options}
    {unit : LoweredUnit} (success : program.lower options = .ok unit) :
    ∀ name ∈ unit.dependencies, '\n' ∉ name.toList := by
  intro name member
  obtain ⟨progress, made, rfl⟩ := (map_eq_ok_iff ..).mp success
  obtain ⟨lowered, known, mentioned⟩ := List.mem_flatMap.mp (NameSet.mem_ofList.mp member)
  rw [(lowerMethods_visits made).1] at known
  obtain ⟨visit, _, result⟩ := List.mem_filterMap.mp known
  have success : visit.lower program.classIndex options =
      (.ok lowered, (visit.lower program.classIndex options).2) :=
    Prod.ext ((Result.toOption_eq_some_iff ..).mp result) rfl
  obtain ⟨type, scope, lowers⟩ := MethodHeader.lower_eq_ok success
  rw [← NameSet.mem_def, lowers.dependencies, NameSet.mem_ofList] at mentioned
  obtain ⟨instr, _, mentions⟩ := List.mem_flatMap.mp mentioned
  obtain ⟨source, rfl⟩ := Instr.exists_of_mem_dependencies mentions
  intro newline
  exact absurd (Symbol.isWord_of_mem_ofClass newline) (by decide)

/-- After a run every literal of a lowered method carries an offset that leads to it in the final
pool, and the code of the method asks the pool for that offset. The pool has the literals of all
methods, also of skipped ones, without repetition in the order in which assembly met them, and the
lines of its C array spell its entries in that order. -/
theorem literal_offsets_stay_valid {program : Program} {options : Options} {unit : LoweredUnit}
    (success : program.lower options = .ok unit) :
    unit.methods = program.visits.filterMap
        (fun visit => (visit.lower program.classIndex options).1.toOption) ∧
      (∀ visit ∈ program.visits, ∃ entry ∈ program.methodsWithCode,
        let code := visit.list.under options
        visit.header = entry.2.header entry.1 ∧
        code.literals.map Prod.fst = entry.2.code.filterMap Record.literal? ∧
        (∀ literal ∈ code.literals, unit.pool.Holds literal) ∧
        (∀ instr entry offset, instr.literal? = some (entry, some offset) →
          code.assignable? instr =
            some { text := entry.access offset, type := .object, effect := .pure }) ∧
        ∀ lowered, (visit.lower program.classIndex options).1 = .ok lowered →
          lowered.code =
            lowered.function.opening ++ C.bodyText lowered.function.body ++ "\x7d\n" ∧
          ∃ pieces, lowered.function.body = Emission.weave options.annotate code.instrs pieces ∧
            List.Forall₂ (fun instr piece => ∀ entry offset,
              instr.literal? = some (entry, some offset) →
                C.bodyText piece = "    PUSH_OBJ(RETAIN(" ++ entry.access offset ++ "));\n")
              code.instrs pieces) ∧
      unit.pool.entries.Nodup ∧
      unit.pool.entries = program.literals.eraseDups ∧
      ∀ (offset : Nat) (entry : PoolEntry), unit.pool.entries[offset]? = some entry →
        (LoweredUnit.poolLines unit.text)[offset]? =
          some ("    " ++ Literal.string entry.text ++ ",") := by
  have clean := Program.newline_not_mem_dependencies success
  have methods := Program.methods_of_lower success
  obtain ⟨progress, made, rfl⟩ := (map_eq_ok_iff ..).mp success
  have pool : progress.unit.pool = ConstantPool.internAll {} program.literals :=
    Program.pool_lowerMethods made
  refine ⟨methods, ?_, ?_, ?_, ?_⟩
  · intro visit member
    obtain ⟨entry, known, header, order, holds⟩ := Program.literals_of_mem_visitsFrom member
    refine ⟨entry, known, header, ?_, ?_, ?_, ?_⟩
    · rw [visit.list.literals_under, order]
    · rw [visit.list.literals_under, pool]
      exact holds
    · intro instr literal offset carried
      exact Listing.assignable?_literal _ carried
    · intro lowered result
      refine ⟨C.Function.text_eq _, ?_⟩
      have success : visit.lower program.classIndex options =
          (.ok lowered, (visit.lower program.classIndex options).2) := Prod.ext result rfl
      obtain ⟨type, scope, lowers⟩ := MethodHeader.lower_eq_ok success
      obtain ⟨state, ran, _⟩ := MethodHeader.lowerBody_eq_ok lowers.body
      exact Emission.exists_pieces ran (Emission.ensures_push_literal _)
  · rw [pool]
    exact ConstantPool.nodup_internAll (by simp) _
  · rw [pool, ConstantPool.entries_internAll]
    simp [List.removeAll]
  · intro offset entry found
    have used : progress.unit.pool.entries ≠ [] := List.ne_nil_of_mem (List.mem_of_getElem? found)
    rw [LoweredUnit.poolLines_text used clean]
    simp [found, LoweredUnit.initializer]

def Sample.literalProgram : Program :=
  { classes :=
      [{ name := "t/Main", superName := none, fields := []
         methods :=
           [{ name := "bad", descriptor := "()V", isStatic := true, maxStack := 1, maxLocals := 0
              code := [.constant (.string "a"), .simple "bogus" none], tryCatch := [] },
            { name := "run", descriptor := "()V", isStatic := true, maxStack := 3, maxLocals := 0
              code :=
                [.constant (.string "b?"), .constant (.type "a"), .constant (.string "a"),
                 .simple "return" none]
              tryCatch := [] }] }] }

theorem literals_after_skipped_method :
    ∃ unit, Sample.literalProgram.lower { keepGoing := true } = .ok unit ∧
      unit.skipped.map (·.method) = ["t/Main.bad()V"] ∧
      unit.pool.entries = [.string "a", .string "b?", .type "a"] ∧
      (LoweredUnit.poolLines unit.text)[1]? = some "    \"b\\?\"," ∧
      ∃ visit ∈ Sample.literalProgram.visits,
        visit.list.literals = [(.string "b?", some 1), (.type "a", some 2), (.string "a", some 0)] ∧
        (∀ literal ∈ (visit.list.under { keepGoing := true }).literals, unit.pool.Holds literal) ∧
        ∃ lowered pieces,
          (visit.lower Sample.literalProgram.classIndex { keepGoing := true }).1 = .ok lowered ∧
          lowered.function.body =
            Emission.weave false (visit.list.under { keepGoing := true }).instrs pieces ∧
          pieces[1]?.map C.bodyText =
            some "    PUSH_OBJ(RETAIN(CLASS_FROM_CONSTANT_POOL_OFFSET(2)));\n" := by
  have made : (Sample.literalProgram.lower { keepGoing := true }).map
      (fun unit => unit.skipped.map (·.method)) = .ok ["t/Main.bad()V"] := by
    decide +kernel
  obtain ⟨unit, success, skipped⟩ := (map_eq_ok_iff ..).mp made
  obtain ⟨_, offsets, _, order, lines⟩ := literal_offsets_stay_valid success
  have entries : unit.pool.entries = [.string "a", .string "b?", .type "a"] := by
    rw [order]
    decide +kernel
  have spelled : "    " ++ Literal.string "b?" ++ "," = "    \"b\\?\"," := by decide +kernel
  have visited : ∃ visit ∈ Sample.literalProgram.visits,
      visit.list.literals = [(.string "b?", some 1), (.type "a", some 2), (.string "a", some 0)] ∧
      (visit.list.under { keepGoing := true }).instrs[1]? = some (.constant (.type "a") (some 2)) ∧
      (visit.lower Sample.literalProgram.classIndex { keepGoing := true }).1.toBool = true := by
    decide +kernel
  obtain ⟨visit, member, literals, second, accepted⟩ := visited
  obtain ⟨_, _, _, _, holds, _, printed⟩ := offsets visit member
  refine ⟨unit, success, skipped, entries, ?_, visit, member, literals, holds, ?_⟩
  · rw [← spelled]
    exact lines 1 (.string "b?") (by simp [entries])
  · cases result : (visit.lower Sample.literalProgram.classIndex { keepGoing := true }).1 with
    | error => rw [result] at accepted; cases accepted
    | ok lowered =>
        obtain ⟨_, pieces, woven, aligned⟩ := printed lowered result
        obtain ⟨bound, instr⟩ := List.getElem?_eq_some_iff.mp second
        have further : 1 < pieces.length := aligned.length_eq ▸ bound
        have line := aligned.get bound further (.type "a") 2
          (by simp [instr, Instr.literal?, Constant.poolEntry?])
        refine ⟨lowered, pieces, rfl, woven, ?_⟩
        rw [List.getElem?_eq_getElem further]
        exact congrArg some (line.trans (by decide))

end BytecodeToC
