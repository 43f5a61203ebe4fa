import BytecodeToC.Proofs.Anchors
import BytecodeToC.Proofs.PoolOffsets

/-!
Field reads through the receiver. Assembly turns each record into an instruction by itself, and then
shortens: where local 0 is the receiver throughout, a load of it and the field read that follows become
one read of the receiver's field. What counts is read off the records, with a decoding of its own; it
comes to the same as asking whether an instruction of the listing writes local 0.
-/

namespace BytecodeToC

open Result

namespace Instr

def loadsReceiver : Instr → Bool
  | .localVar op slot _ => op = .aload && slot = 0
  | _ => false

def throughReceiver? : Instr → Option Instr
  | .field access =>
    if access.op = .getfield && !access.useThis then some (.field { access with useThis := true })
    else none
  | _ => none

/-- The slots that an instruction writes; a long or double takes two. -/
def written : Instr → List Nat
  | .localVar op slot delta | .namedLocal op slot _ _ delta =>
    if op.isStore then
      if op = .lstore ∨ op = .dstore then [slot.toNat, slot.toNat + 1] else [slot.toNat]
    else if op = .iinc ∧ delta.isSome then [slot.toNat]
    else []
  | _ => []

theorem loadsReceiver_iff (instr : Instr) :
    instr.loadsReceiver = true ↔ ∃ delta, instr = .localVar .aload 0 delta := by
  cases instr <;> simp [loadsReceiver]

theorem throughReceiver?_eq_some_iff (read direct : Instr) :
    read.throughReceiver? = some direct ↔
      ∃ access : FieldAccess, access.op = .getfield ∧ access.useThis = false ∧
        read = .field access ∧ direct = .field { access with useThis := true } := by
  cases read with
  | field access =>
      constructor
      · intro through
        simp only [throughReceiver?] at through
        split at through
        next fits =>
          cases through
          obtain ⟨gets, own⟩ : access.op = .getfield ∧ access.useThis = false := by
            simpa using fits
          exact ⟨access, gets, own, rfl, rfl⟩
        next => cases through
      · rintro ⟨_, gets, own, ⟨⟩, rfl⟩
        simp [throughReceiver?, gets, own]
  | _ => simp [throughReceiver?]

end Instr

namespace ConstantPool

theorem intern_offset (pool : ConstantPool) (entry : PoolEntry) :
    (pool.intern entry).1 = pool.entries.idxOf entry := by
  rw [List.idxOf_eq_getD_idxOf?, intern]
  cases pool.entries.idxOf? entry <;> rfl

theorem intern_of_grows {pool grown : ConstantPool} {entry : PoolEntry}
    (grows : (pool.intern entry).2.entries <+: grown.entries) :
    (grown.intern entry).1 = (pool.intern entry).1 := by
  obtain ⟨rest, more⟩ := grows
  rw [intern_offset, intern_offset, ← more, entries_intern]
  by_cases old : entry ∈ pool.entries
  · rw [if_pos old, List.idxOf_append_of_mem old]
  · simp [old, List.idxOf_append]

theorem place_of_grows {pool grown : ConstantPool} {record : Record} {instr : Instr}
    (makes : record.Makes instr) (grows : (pool.place instr).2.entries <+: grown.entries) :
    (grown.place instr).1 = (pool.place instr).1 := by
  cases makes with
  | @constant value =>
      cases value with
      | string text => simp only [place, intern_of_grows grows]
      | type name => simp only [place, intern_of_grows grows]
      | _ => rfl
  | _ => rfl

end ConstantPool

def Record.Translates (pool : ConstantPool) (record : Record) (instr : Instr) : Prop :=
  ∃ made, record.instr = .ok made ∧ instr = (pool.place made).1

namespace Listing

/-- Puts a read of the receiver's field in the place of every load of local 0 that a field read
follows. -/
def shorten : List Instr → List Instr
  | load :: read :: rest =>
    match load.loadsReceiver, read.throughReceiver? with
    | true, some direct => direct :: shorten rest
    | _, _ => load :: shorten (read :: rest)
  | rest => rest

theorem shorten_pair {load read direct : Instr} (loads : load.loadsReceiver = true)
    (through : read.throughReceiver? = some direct) (rest : List Instr) :
    shorten (load :: read :: rest) = direct :: shorten rest := by
  simp [shorten, loads, through]

theorem shorten_cons {instr : Instr} {rest : List Instr}
    (apart : instr.loadsReceiver = true → ∀ read ∈ rest.head?, read.throughReceiver? = none) :
    shorten (instr :: rest) = instr :: shorten rest := by
  cases rest with
  | nil => rfl
  | cons read others =>
      rw [shorten]
      split
      next direct loads through => simp [loads, through] at apart
      next => rfl

theorem shorten_label (before : List Instr) (id : Label) (rest : List Instr) :
    shorten (before ++ .label id :: rest) = shorten before ++ .label id :: shorten rest := by
  have alone : shorten (.label id :: rest) = .label id :: shorten rest :=
    shorten_cons fun loads => by simp [Instr.loadsReceiver] at loads
  fun_induction shorten before with
  | case1 load read others direct through loads ih =>
      rw [List.cons_append, List.cons_append, shorten_pair loads through, ih]
      rfl
  | case2 load read others apart ih =>
      show shorten (load :: (read :: others ++ .label id :: rest)) =
        load :: (shorten (read :: others) ++ .label id :: shorten rest)
      rw [← ih]
      refine shorten_cons fun loads other first => ?_
      obtain rfl : read = other := by simpa using first
      exact Option.eq_none_iff_forall_ne_some.mpr fun direct through => apart direct loads through
  | case3 before short =>
      match before, short with
      | [], _ => exact alone
      | [single], _ =>
          rw [List.singleton_append, shorten_cons, alone]
          · rfl
          · simp [Instr.throughReceiver?]
      | load :: read :: others, short => exact absurd rfl (short load read others)

def extend (receiverStable : Bool) (instrs : List Instr) (instr : Instr) : List Instr :=
  match receiverStable && instrs.getLast?.any Instr.loadsReceiver, instr.throughReceiver? with
  | true, some direct => instrs.dropLast ++ [direct]
  | _, _ => instrs ++ [instr]

/-- Extending by one instruction after the other shortens. What has been put in place so far does not
change any more, except for a load at its end. -/
theorem foldl_extend (instrs before : List Instr) :
    (before.getLast?.any Instr.loadsReceiver = false →
      instrs.foldl (extend true) before = before ++ shorten instrs) ∧
    ∀ load : Instr, load.loadsReceiver = true →
      instrs.foldl (extend true) (before ++ [load]) = before ++ shorten (load :: instrs) := by
  induction instrs generalizing before with
  | nil => exact ⟨fun _ => (List.append_nil _).symm, fun _ _ => rfl⟩
  | cons instr rest ih =>
      constructor
      · intro settled
        have added : extend true before instr = before ++ [instr] := by
          simp [extend, settled]
        rw [List.foldl_cons, added]
        by_cases loads : instr.loadsReceiver = true
        · exact (ih before).2 instr loads
        · rw [(ih (before ++ [instr])).1 (by simpa using loads), List.append_assoc,
            shorten_cons fun given => absurd given loads]
          rfl
      · intro load loads
        rw [List.foldl_cons]
        cases through : instr.throughReceiver? with
        | some direct =>
            have replaced : extend true (before ++ [load]) instr = before ++ [direct] := by
              simp [extend, loads, through]
            have other : direct.loadsReceiver = false := by
              obtain ⟨access, _, _, _, rfl⟩ := (Instr.throughReceiver?_eq_some_iff ..).mp through
              rfl
            rw [replaced, (ih (before ++ [direct])).1 (by simpa using other), List.append_assoc,
              shorten_pair loads through]
            rfl
        | none =>
            have added : extend true (before ++ [load]) instr = before ++ [load] ++ [instr] := by
              simp [extend, through]
            have kept : shorten (load :: instr :: rest) = load :: shorten (instr :: rest) :=
              shorten_cons fun _ => by simpa using through
            rw [added, kept]
            by_cases again : instr.loadsReceiver = true
            · rw [(ih (before ++ [load])).2 instr again, List.append_assoc]
              rfl
            · rw [(ih (before ++ [load] ++ [instr])).1 (by simpa using again),
                shorten_cons fun given => absurd given again]
              simp

theorem foldl_extend_plain (instrs before : List Instr) :
    instrs.foldl (extend false) before = before ++ instrs := by
  induction instrs generalizing before with
  | nil => exact (List.append_nil _).symm
  | cons instr rest ih => simp [extend, ih]

theorem written_shorten (instrs : List Instr) :
    (shorten instrs).flatMap Instr.written = instrs.flatMap Instr.written := by
  fun_induction shorten instrs with
  | case1 load read rest direct through loads ih =>
      -- neither the load that goes nor the field read writes a local
      obtain ⟨delta, rfl⟩ := (Instr.loadsReceiver_iff load).mp loads
      obtain ⟨access, _, _, rfl, rfl⟩ := (Instr.throughReceiver?_eq_some_iff ..).mp through
      exact ih
  | case2 load read rest apart ih => rw [List.flatMap_cons, ih]; rfl
  | case3 => rfl

/-! Assembly in terms of the instructions -/

theorem Elementary.instrs_pop {list : Listing} (elementary : list.Elementary) :
    list.pop.2.instrs = list.instrs.dropLast ∧
      list.order.getLast?.bind list.node? = list.instrs.getLast? := by
  rcases List.eq_nil_or_concat list.order with empty | ⟨before, id, order⟩
  · simp [instrs, empty]
  · have known := elementary.known id (by simp [order])
    have found : list.node? id = some list.nodes[id] := Array.getElem?_eq_getElem known
    have parts : list.instrs = before.filterMap list.node? ++ [list.nodes[id]] := by
      simp [instrs, order, List.filterMap_append, found]
    have popped : list.pop.2.instrs = before.filterMap list.node? := by
      have shorter : list.pop.2.order = before := by simp [order]
      rw [instrs, shorter]
      rfl
    simp [parts, popped, order, found]

theorem Elementary.instrs_append {list : Listing} (elementary : list.Elementary)
    (receiverStable : Bool) (instr : Instr) :
    (list.append receiverStable instr).instrs = extend receiverStable list.instrs instr := by
  obtain ⟨popped, last⟩ := elementary.instrs_pop
  have ends : list.endsWithReceiver = list.instrs.getLast?.any Instr.loadsReceiver := by
    rw [endsWithReceiver, last]
    cases list.instrs.getLast? with
    | none => rfl
    | some instr => cases instr <;> rfl
  cases instr with
  | field access =>
      by_cases merged : (receiverStable && access.op = .getfield && !access.useThis &&
          list.endsWithReceiver) = true
      · have through : Instr.throughReceiver? (.field access) =
            some (.field { access with useThis := true }) := by
          simp_all [Instr.throughReceiver?]
        rw [Listing.append, if_pos merged, elementary.pop.instrs_push, popped]
        simp_all [extend]
      · rw [Listing.append, if_neg merged, elementary.instrs_push]
        cases through : Instr.throughReceiver? (.field access) with
        | none => simp [extend, through]
        | some direct =>
            obtain ⟨_, read, own, ⟨⟩, _⟩ := (Instr.throughReceiver?_eq_some_iff ..).mp through
            simp_all [extend]
  | _ =>
      rw [Listing.append, elementary.instrs_push]
      · simp [extend, Instr.throughReceiver?]
      · simp

theorem Elementary.translates_appendRecords {receiverStable : Bool} {records : List Record}
    {list named result : Listing} {pool grown : ConstantPool} (elementary : list.Elementary)
    (same : list.names = named.names)
    (appended : Listing.appendRecords receiverStable records list pool = (.ok result, grown)) :
    ∃ plain, List.Forall₂ (Record.Translates grown) records plain ∧
      (plain.foldlM Listing.bindNameOf named).map names = .ok result.names ∧
      result.instrs = plain.foldl (extend receiverStable) list.instrs := by
  induction records generalizing list named pool with
  | nil =>
      cases appended
      exact ⟨[], .nil, by simp [Except.map, pure, Except.pure, same], rfl⟩
  | cons record rest ih =>
      simp only [Listing.appendRecords] at appended
      split at appended
      next => simp at appended
      next made read =>
        split at appended
        next => simp at appended
        next bound binds =>
          obtain ⟨next, again, names⟩ : ∃ next,
              named.bindNameOf (pool.place made).1 = .ok next ∧ next.names = bound.names := by
            have alike := names_bindNameOf same (pool.place made).1
            rw [binds] at alike
            exact (map_eq_ok_iff ..).mp alike.symm
          have leaf := pool.operands_place (Record.operands_instr read)
          have kept := elementary.bindNameOf binds
          have step : (bound.append receiverStable (pool.place made).1).names = next.names :=
            (names_append ..).trans names.symm
          obtain ⟨plain, translates, bindings, instrs⟩ :=
            ih (kept.append receiverStable leaf) step appended
          -- The literal of this record keeps its offset while the others are taken in.
          have grows : (pool.place made).2.entries <+: grown.entries := by
            have whole := (appendRecords_accepted receiverStable rest step (pool.place made).2).1
            simp only [appended] at whole
            rw [whole]
            exact ConstantPool.entries_prefix_internAll ..
          refine ⟨(pool.place made).1 :: plain, .cons ⟨made, read, ?_⟩ translates, ?_, ?_⟩
          · exact (ConstantPool.place_of_grows (Record.makes_of_instr read) grows).symm
          · rw [List.foldlM_cons, again]
            exact bindings
          · rw [instrs, kept.instrs_append, List.foldl_cons]
            obtain ⟨_, rfl⟩ := bindNameOf_eq_ok binds
            rfl

theorem Elementary.instrs_appendRegions {list : Listing} (elementary : list.Elementary)
    (entries : List TryEntry) (scope : MethodScope) :
    (Listing.appendRegions entries list scope).1.instrs = list.instrs ++
      ((Listing.appendRegions entries list scope).2.regions.drop scope.regions.length).map
        Instr.tryRegion := by
  rw [regions_appendRegions, List.drop_left]
  induction entries generalizing list scope with
  | nil => simp [Listing.appendRegions]
  | cons entry rest ih =>
      by_cases empty : entry.start = entry.finish
      · simp [Listing.appendRegions, empty, ih elementary]
      · simp only [Listing.appendRegions, if_neg empty]
        rw [ih (elementary.push rfl), elementary.instrs_push]
        simp [empty, MethodScope.register, TryEntry.region]

end Listing

/-! Writes of local 0 -/

theorem Slot.zero_eq_toNat (slot : Slot) : 0 = slot.toNat ↔ slot = 0 := by
  rw [eq_comm, ← UInt16.toNat_inj]
  rfl

theorem Instr.zero_mem_written (op : Opcode) (slot : Slot) :
    0 ∈ (Instr.localVar op slot none).written ↔ (op.isStore && slot = 0) = true := by
  cases store : op.isStore with
  | false => simp [written, store]
  | true =>
      simp only [written, store, if_true]
      split <;> simp [slot.zero_eq_toNat]

namespace Record

theorem mnemonic_of_opcodeNamed {name : String} {op : Opcode} (named : opcodeNamed name = .ok op) :
    Opcode.ofMnemonic? name = some op := by
  unfold opcodeNamed at named
  split at named
  next found => cases named; exact found
  next => cases named

theorem writesReceiver_localAccess {op : String} {given : Option Slot} {code : Opcode} {slot : Slot}
    (access : localAccess op given = .ok (code, slot)) (name : Option String) (tag : Option Char) :
    writesReceiver (.localVar op given name tag) = (code.isStore && slot = 0) := by
  unfold localAccess at access
  split at access
  next form found =>
    cases access
    simp only [writesReceiver, found]
  next own found =>
    obtain ⟨code, named, ⟨⟩⟩ := (map_eq_ok_iff ..).mp access
    simp [writesReceiver, found, mnemonic_of_opcodeNamed named]
  next => cases access

theorem written_localInstr {op : String} {given : Option Slot} {name : Option String}
    {tag : Option Char} {instr : Instr} (made : localInstr op given name tag = .ok instr) :
    ∃ code slot, localAccess op given = .ok (code, slot) ∧
      instr.written = (Instr.localVar code slot none).written := by
  simp only [localInstr] at made
  obtain ⟨⟨code, slot⟩, access, made⟩ := (bind_eq_ok_iff ..).mp made
  refine ⟨code, slot, access, ?_⟩
  split at made
  next => simp at made
  next =>
    split at made
    next => simp at made
    next =>
      cases name with
      | none => cases made; rfl
      | some name =>
          -- a name does not matter to what is written
          obtain ⟨_, _, rfl⟩ := (map_eq_ok_iff ..).mp made
          rfl

theorem Translates.writesReceiver {pool : ConstantPool} {record : Record} {instr : Instr}
    (translates : record.Translates pool instr) :
    record.writesReceiver = true ↔ 0 ∈ instr.written := by
  obtain ⟨made, read, rfl⟩ := translates
  cases record with
  | simple op operand =>
      simp only [Record.instr] at read
      split at read
      next code slot form =>
        cases read
        simp only [Record.writesReceiver, form]
        exact (Instr.zero_mem_written code slot).symm
      next form =>
        obtain ⟨code, _, read⟩ := (bind_eq_ok_iff ..).mp read
        split at read
        next => simp at read
        next =>
          cases read
          simp [Record.writesReceiver, form, ConstantPool.place, Instr.written]
  | localVar op slot name tag =>
      have makes := makes_of_instr read
      have placed : (pool.place made).1 = made := by cases makes <;> rfl
      rw [placed]
      obtain ⟨code, slot, access, written⟩ := written_localInstr read
      rw [writesReceiver_localAccess access, written, Instr.zero_mem_written]
  | increment slot delta name =>
      have counts : Opcode.iinc.isStore = false := by decide
      cases makes_of_instr read <;>
        simp [Record.writesReceiver, ConstantPool.place, Instr.written, counts, slot.zero_eq_toNat]
  | constant value =>
      cases makes_of_instr read
      cases value <;> simp [Record.writesReceiver, ConstantPool.place, Instr.written]
  | _ =>
      cases makes_of_instr read
      simp [Record.writesReceiver, ConstantPool.place, Instr.written]

theorem any_writesReceiver {pool : ConstantPool} {records : List Record} {plain : List Instr}
    (translates : List.Forall₂ (Translates pool) records plain) :
    records.any Record.writesReceiver = true ↔ ∃ instr ∈ plain, 0 ∈ instr.written := by
  induction translates with
  | nil => simp
  | cons first _ ih => simp [ih, first.writesReceiver]

end Record

/-! The listing of a method -/

/-- The locals as a run goes through instructions of the code, in whichever order branches and handlers
take it. A slot that an instruction does not write keeps its value. -/
inductive Instr.LocalsRun {Value : Type} (code : List Instr) :
    (Nat → Value) → (Nat → Value) → Prop
  | start (locals : Nat → Value) : LocalsRun code locals locals
  | step {entry now next : Nat → Value} {instr : Instr} (before : LocalsRun code entry now)
      (member : instr ∈ code) (frame : ∀ slot, slot ∉ instr.written → next slot = now slot) :
      LocalsRun code entry next

theorem Instr.LocalsRun.unwritten {Value : Type} {code : List Instr} {entry now : Nat → Value}
    (run : LocalsRun code entry now) {slot : Nat} (never : ∀ instr ∈ code, slot ∉ instr.written) :
    now slot = entry slot := by
  induction run with
  | start => rfl
  | step _ member frame ih => rw [frame slot (never _ member), ih]

namespace MethodDecl

variable {method : MethodDecl} {unit after : UnitState} {list : Listing}
  (assembled : method.assemble unit = (.ok list, after))
include assembled

theorem instrs_assemble :
    ∃ plain, List.Forall₂ (Record.Translates after.pool) method.code plain ∧
      (plain.foldlM Listing.bindNameOf .empty).map Listing.names = .ok list.names ∧
      list.instrs = (after.scope.regions.drop unit.scope.regions.length).map Instr.tryRegion ++
        if method.receiverStable then Listing.shorten plain else plain := by
  obtain ⟨pool, appended, rfl⟩ := assemble_eq_ok assembled
  have empty : Listing.empty.Elementary := .empty
  have names : (Listing.appendRegions method.tryCatch .empty unit.scope).1.names =
      Listing.empty.names := Listing.names_appendRegions ..
  obtain ⟨plain, translates, bindings, instrs⟩ :=
    empty.appendRegions.translates_appendRecords names appended
  refine ⟨plain, translates, bindings, ?_⟩
  rw [instrs, empty.instrs_appendRegions]
  cases method.receiverStable with
  | false => exact Listing.foldl_extend_plain ..
  | true =>
      have settled (regions : List Region) :
          (regions.map Instr.tryRegion).getLast?.any Instr.loadsReceiver = false := by
        rw [List.getLast?_map]
        cases regions.getLast? <;> rfl
      exact (Listing.foldl_extend plain _).1 (settled _)

end MethodDecl

/-- An assembled listing is the instructions of the records one by one, after the regions, with every
field read through a load of the receiver shortened if local 0 is the receiver throughout. -/
theorem receiver_reads_shortened {method : MethodDecl} {unit after : UnitState} {list : Listing}
    (assembled : method.assemble unit = (.ok list, after)) :
    ∃ plain : List Instr,
      List.Forall₂ (Record.Translates after.pool) method.code plain ∧
      (plain.foldlM Listing.bindNameOf .empty).map Listing.names = .ok list.names ∧
      list.instrs = (after.scope.regions.drop unit.scope.regions.length).map Instr.tryRegion ++
        (if method.isStatic = false ∧ ∀ instr ∈ list.instrs, 0 ∉ instr.written then
          Listing.shorten plain
        else plain) ∧
      (∀ before id rest, plain = before ++ .label id :: rest →
        Listing.shorten plain = Listing.shorten before ++ .label id :: Listing.shorten rest) ∧
      ((∀ instr ∈ list.instrs, 0 ∉ instr.written) →
        ∀ (Value : Type) (entry now : Nat → Value), Instr.LocalsRun plain entry now →
          now 0 = entry 0) := by
  obtain ⟨plain, translates, bindings, instrs⟩ := MethodDecl.instrs_assemble assembled
  -- the regions write nothing, and shortening does not change what is written
  have writes : list.instrs.flatMap Instr.written = plain.flatMap Instr.written := by
    rw [instrs, List.flatMap_append, List.flatMap_map]
    split
    · simp [Instr.written, Listing.written_shorten]
    · simp [Instr.written]
  have unwritten : (∀ instr ∈ list.instrs, 0 ∉ instr.written) ↔
      ∀ instr ∈ plain, 0 ∉ instr.written := by
    have same : 0 ∈ list.instrs.flatMap Instr.written ↔ 0 ∈ plain.flatMap Instr.written := by
      rw [writes]
    simpa using not_congr same
  have stable : method.receiverStable = true ↔
      method.isStatic = false ∧ ∀ instr ∈ list.instrs, 0 ∉ instr.written := by
    have records := Record.any_writesReceiver translates
    simp only [unwritten, MethodDecl.receiverStable, Bool.and_eq_true, Bool.not_eq_true',
      ← Bool.not_eq_true, records, not_exists, not_and]
  refine ⟨plain, translates, bindings, ?_, ?_, ?_⟩
  · simp only [← stable]
    exact instrs
  · rintro before id rest rfl
    exact Listing.shorten_label before id rest
  · intro never Value entry now run
    exact run.unwritten (unwritten.mp never)

def Sample.ownFields : MethodDecl :=
  { name := "sum", descriptor := "()I", isStatic := false, maxStack := 2, maxLocals := 1
    code :=
      [.simple "aload_0" none, .label 7, .field "getfield" "t/Main" "left" "I" false,
       .localVar "aload" (some 0) none none, .field "getfield" "t/Main" "right" "I" false,
       .simple "iadd" none, .simple "ireturn" none]
    tryCatch := [] }

def Sample.ownFieldsListing : Listing :=
  { nodes :=
      #[.localVar .aload 0 none, .label 7, .field ⟨.getfield, "t/Main", "left", "I", false⟩,
        .localVar .aload 0 none, .field ⟨.getfield, "t/Main", "right", "I", true⟩,
        .basic ⟨0x60⟩ none, .basic .ireturn none]
    order := [0, 1, 2, 4, 5, 6] }

theorem receiver_reads_shortened_sample :
    Sample.ownFields.assemble .empty = (.ok Sample.ownFieldsListing, .empty) ∧
      ∃ plain, List.Forall₂ (Record.Translates .empty) Sample.ownFields.code plain ∧
        Sample.ownFieldsListing.instrs = Listing.shorten plain ∧ plain.length = 7 ∧
        Sample.ownFieldsListing.instrs.length = 6 := by
  have assembled : Sample.ownFields.assemble .empty = (.ok Sample.ownFieldsListing, .empty) := by
    decide +kernel
  obtain ⟨plain, translates, _, instrs, _⟩ := receiver_reads_shortened assembled
  have stable : Sample.ownFields.isStatic = false ∧
      ∀ instr ∈ Sample.ownFieldsListing.instrs, 0 ∉ instr.written := by decide
  rw [if_pos stable] at instrs
  exact ⟨assembled, plain, translates, instrs, translates.length_eq.symm, rfl⟩

end BytecodeToC
