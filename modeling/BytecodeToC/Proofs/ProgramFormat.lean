import BytecodeToC.Program.Format
import BytecodeToC.Proofs.JsonText

/-!
Programs read back from their JSON text, provided that they hold no floating-point constants.
-/

namespace BytecodeToC

namespace Json

/-! Records -/

theorem mapM_map_eq_some {α β γ : Type} {encode : α → β} {decode : β → Option γ} {result : α → γ}
    {values : List α} (each : ∀ value ∈ values, decode (encode value) = some (result value)) :
    (values.map encode).mapM decode = some (values.map result) := by
  induction values with
  | nil => rfl
  | cons value others ih =>
      obtain ⟨here, later⟩ := List.forall_mem_cons.mp each
      simp [List.mapM_cons, here, ih later]

theorem valuesAt_keyed_cons (key : String) (member : String × Json) (others : List (String × Json)) :
    valuesAt key (keyed (member :: others)) =
      if member.1 = key then member.2 :: valuesAt key (keyed others)
      else valuesAt key (keyed others) := by
  by_cases same : member.1 = key <;> simp [valuesAt, keyed, same]

theorem valuesAt_keyed_of_notMem {key : String} {members : List (String × Json)}
    (absent : key ∉ members.map Prod.fst) : valuesAt key (keyed members) = [] := by
  induction members with
  | nil => rfl
  | cons member others ih =>
      rw [List.map_cons, List.mem_cons, not_or] at absent
      rw [valuesAt_keyed_cons, if_neg (Ne.symm absent.1), ih absent.2]

theorem valuesAt_keyed {members : List (String × Json)} (distinct : (members.map Prod.fst).Nodup)
    {member : String × Json} (found : member ∈ members) :
    valuesAt member.1 (keyed members) = [member.2] := by
  induction members with
  | nil => simp at found
  | cons first others ih =>
      obtain ⟨fresh, later⟩ := List.nodup_cons.mp distinct
      rw [valuesAt_keyed_cons]
      rcases List.mem_cons.mp found with rfl | inside
      · rw [if_pos rfl, valuesAt_keyed_of_notMem fresh]
      · have other : first.1 ≠ member.1 := fun same => fresh (same ▸ List.mem_map_of_mem inside)
        rw [if_neg other, ih later inside]

theorem fields?_ofMembers {names : List String} {members : List (String × Json)}
    (spelled : members.map Prod.fst = names) (distinct : names.Nodup) :
    fields? names (ofMembers members) = some (members.map fun member => some member.2) := by
  subst spelled
  have keys : (keyed members).all fun member => member.1.isSome := by simp [keyed]
  rw [ofMembers_eq, fields?, if_pos keys]
  refine mapM_map_eq_some fun member found => ?_
  rw [onlyValueAt?, valuesAt_keyed distinct found]

theorem tagged?_ofMembers {tag kind : String} {members : List (String × Json)}
    (fresh : tag ∉ members.map Prod.fst) :
    tagged? tag (ofMembers ((tag, ofString kind) :: members)) = some (kind, ofMembers members) := by
  have only : valuesAt tag (keyed ((tag, ofString kind) :: members)) = [ofString kind] := by
    rw [valuesAt_keyed_cons, if_pos rfl, valuesAt_keyed_of_notMem fresh]
  have left : (keyed ((tag, ofString kind) :: members)).filter (fun member => member.1 ≠ some tag) =
      keyed members := by
    have kept : ∀ member ∈ keyed members, decide (member.1 ≠ some tag) = true := by
      intro member found
      obtain ⟨given, inside, rfl⟩ := List.mem_map.mp found
      have other : given.1 ≠ tag := fun same => fresh (same ▸ List.mem_map_of_mem inside)
      simp [other]
    rw [keyed, List.map_cons, List.filter_cons_of_neg (by simp)]
    exact List.filter_eq_self.mpr kept
  rw [ofMembers_eq, tagged?, only, left]
  rfl

/-! Fields -/

@[simp] theorem required_some {α : Type} (decode : Json → Option α) (json : Json) :
    required decode (some json) = decode json :=
  rfl

@[simp] theorem optional_some {α : Type} (decode : Json → Option α) (json : Json) :
    optional decode (some json) = nullable decode json :=
  rfl

@[simp] theorem withDefault_some {α : Type} (default : α) (decode : Json → Option α) (json : Json) :
    withDefault default decode (some json) = decode json :=
  rfl

@[simp] theorem bool?_bool (value : Bool) : bool? (.bool value) = some value := rfl

@[simp] theorem string?_ofString (text : String) : string? (ofString text) = some text := by
  rw [ofString, string?]

@[simp] theorem char?_singleton (c : Char) : char? (ofString (String.singleton c)) = some c := by
  simp [char?]

theorem integer?_ofInt {least greatest value : Int} (low : least ≤ value) (high : value ≤ greatest) :
    integer? least greatest (ofInt value) = some value := by
  rw [ofInt, integer?, if_pos ⟨low, high⟩]

theorem integer?_ofNat {greatest : Int} {value : Nat} (high : value ≤ greatest) :
    integer? 0 greatest (ofNat value) = some (value : Int) :=
  integer?_ofInt (by omega) high

@[simp] theorem uint8?_ofNat (value : UInt8) : uint8? (ofNat value.toNat) = some value := by
  have bound := value.toNat_lt
  rw [uint8?, integer?_ofNat (by omega)]
  simp

@[simp] theorem uint16?_ofNat (value : UInt16) : uint16? (ofNat value.toNat) = some value := by
  have bound := value.toNat_lt
  rw [uint16?, integer?_ofNat (by omega)]
  simp

@[simp] theorem uint32?_ofNat (value : UInt32) : uint32? (ofNat value.toNat) = some value := by
  have bound := value.toNat_lt
  rw [uint32?, integer?_ofNat (by omega)]
  simp

@[simp] theorem int32?_ofInt (value : Int32) : int32? (ofInt value.toInt) = some value := by
  rw [int32?, integer?_ofInt value.minValue_le_toInt value.toInt_le]
  simp

@[simp] theorem int64?_ofInt (value : Int64) : int64? (ofInt value.toInt) = some value := by
  rw [int64?, integer?_ofInt value.minValue_le_toInt value.toInt_le]
  simp

@[simp] theorem ofString_ne_null (text : String) : ofString text ≠ .null := nofun

@[simp] theorem ofInt_ne_null (value : Int) : ofInt value ≠ .null := nofun

@[simp] theorem ofNat_ne_null (value : Nat) : ofNat value ≠ .null := nofun

@[simp] theorem nullable_ofOption {α : Type} {encode : α → Json} {decode : Json → Option α}
    (back : ∀ value, decode (encode value) = some value) (shown : ∀ value, encode value ≠ .null)
    (value : Option α) : nullable decode (ofOption encode value) = some value := by
  cases value with
  | none => rfl
  | some given =>
      rw [ofOption, nullable, optional, back given]
      · rfl
      · exact shown given

@[simp] theorem list_ofList {α : Type} {encode : α → Json} {decode : Json → Option α}
    {values : List α} (back : ∀ value ∈ values, decode (encode value) = some value) :
    list decode (ofList encode values) = some values := by
  have each : (values.map encode).mapM decode = some (values.map id) := mapM_map_eq_some back
  rwa [List.map_id] at each

/-! Plain values -/

theorem itemsMeaningful_of_forall {items : List Json}
    (all : ∀ item ∈ items, item.isMeaningful = true) : itemsMeaningful items = true := by
  induction items with
  | nil => rfl
  | cons item others ih =>
      obtain ⟨here, later⟩ := List.forall_mem_cons.mp all
      simp [itemsMeaningful, here, ih later]

theorem membersMeaningful_of_forall {members : List (String × Json)}
    (all : ∀ member ∈ members, member.2.isMeaningful = true) :
    membersMeaningful (keyed members) = true := by
  induction members with
  | nil => rfl
  | cons member others ih =>
      obtain ⟨here, later⟩ := List.forall_mem_cons.mp all
      have rest := ih later
      simp_all [keyed, membersMeaningful]

theorem IsPlain.isMeaningful {json : Json} (plain : json.IsPlain) : json.isMeaningful = true := by
  induction plain with
  | null => rfl
  | bool value => rfl
  | integer least greatest => rfl
  | string text => rfl
  | array all ih => exact itemsMeaningful_of_forall ih
  | object all ih => exact membersMeaningful_of_forall ih

@[simp] theorem isPlain_bool (value : Bool) : (Json.bool value).IsPlain := .bool value

@[simp] theorem isPlain_ofString (text : String) : (ofString text).IsPlain := .string text

theorem isPlain_ofNat {value : Nat} (small : value < 2 ^ 64) : (ofNat value).IsPlain :=
  .integer (by omega) (by omega)

theorem isPlain_ofInt {value : Int} (low : -2 ^ 63 ≤ value) (high : value < 2 ^ 63) :
    (ofInt value).IsPlain :=
  .integer low (by omega)

@[simp] theorem isPlain_uint8 (value : UInt8) : (ofNat value.toNat).IsPlain :=
  isPlain_ofNat (value.toNat_lt.trans (by decide))

@[simp] theorem isPlain_uint16 (value : UInt16) : (ofNat value.toNat).IsPlain :=
  isPlain_ofNat (value.toNat_lt.trans (by decide))

@[simp] theorem isPlain_uint32 (value : UInt32) : (ofNat value.toNat).IsPlain :=
  isPlain_ofNat (value.toNat_lt.trans (by decide))

@[simp] theorem isPlain_int32 (value : Int32) : (ofInt value.toInt).IsPlain := by
  have low := value.le_toInt
  have high := value.toInt_lt
  exact isPlain_ofInt (by omega) (by omega)

@[simp] theorem isPlain_int64 (value : Int64) : (ofInt value.toInt).IsPlain :=
  isPlain_ofInt value.le_toInt value.toInt_lt

@[simp] theorem isPlain_ofOption {α : Type} {encode : α → Json}
    (plain : ∀ value, (encode value).IsPlain) (value : Option α) : (ofOption encode value).IsPlain := by
  cases value with
  | none => exact .null
  | some given => exact plain given

@[simp] theorem isPlain_ofList {α : Type} {encode : α → Json} {values : List α}
    (plain : ∀ value ∈ values, (encode value).IsPlain) : (ofList encode values).IsPlain := by
  refine .array fun item member => ?_
  obtain ⟨value, given, rfl⟩ := List.mem_map.mp member
  exact plain value given

/-! Heights -/

@[simp] theorem height_bool (value : Bool) : (Json.bool value).height = 0 := rfl

@[simp] theorem height_ofString (text : String) : (ofString text).height = 0 := by
  simp [ofString, height]

@[simp] theorem height_ofInt (value : Int) : (ofInt value).height = 0 := by
  simp [ofInt, height]

@[simp] theorem height_ofNat (value : Nat) : (ofNat value).height = 0 := by
  rw [ofNat, height_ofInt]

@[simp] theorem height_ofOption {α : Type} {encode : α → Json}
    (flat : ∀ value, (encode value).height = 0) (value : Option α) :
    (ofOption encode value).height = 0 := by
  cases value with
  | none => rfl
  | some given => exact flat given

@[simp] theorem height_ofList {α : Type} {encode : α → Json}
    (flat : ∀ value, (encode value).height = 0) (values : List α) :
    (ofList encode values).height = 1 := by
  have items : heightOfItems (values.map encode) = 0 := by
    induction values with
    | nil => rfl
    | cons value others ih => simp [heightOfItems, flat, ih]
  rw [ofList, height, items]

theorem height_ofMembers_le {members : List (String × Json)} {bound : Nat}
    (low : ∀ member ∈ members, member.2.height ≤ bound) : (ofMembers members).height ≤ bound + 1 := by
  have inside : heightOfMembers (keyed members) ≤ bound := by
    induction members with
    | nil => exact Nat.zero_le bound
    | cons member others ih =>
        obtain ⟨here, later⟩ := List.forall_mem_cons.mp low
        exact Nat.max_le.mpr ⟨here, ih later⟩
  exact Nat.succ_le_succ inside

end Json

open Json

/-! Constants -/

namespace Constant

def isFloating : Constant → Bool
  | float _ | double _ => true
  | _ => false

theorem ofJson?_typed (typeName : String) (value : Json) :
    ofJson? (ofMembers [("type", ofString typeName), ("value", value)]) = ofTyped? typeName value := by
  have found : fields? ["type", "value"] (ofMembers [("type", ofString typeName), ("value", value)]) =
      some [some (ofString typeName), some value] :=
    fields?_ofMembers rfl (by decide)
  rw [ofMembers_eq] at found ⊢
  rw [ofJson?, found]
  rfl

theorem ofJson?_toJson {constant : Constant} (exact : constant.isFloating = false) :
    ofJson? constant.toJson = some constant := by
  cases constant with
  | float bits => simp [isFloating] at exact
  | double bits => simp [isFloating] at exact
  | _ => simp [toJson, ofJson?_typed, ofTyped?]

theorem isPlain_toJson {constant : Constant} (exact : constant.isFloating = false) :
    constant.toJson.IsPlain := by
  cases constant with
  | float bits => simp [isFloating] at exact
  | double bits => simp [isFloating] at exact
  | _ => exact IsPlain.object (by simp)

theorem height_toJson_le (constant : Constant) : constant.toJson.height ≤ 1 := by
  cases constant <;> exact height_ofMembers_le (by simp [height])

end Constant

/-! Instruction records -/

namespace Record

def isFloating : Record → Bool
  | constant value => value.isFloating
  | _ => false

theorem isPlain_toJson {record : Record} (exact : record.isFloating = false) : record.toJson.IsPlain := by
  cases record with
  | constant value => exact IsPlain.object (by simp [Constant.isPlain_toJson exact])
  | _ => exact IsPlain.object (by simp)

theorem height_toJson_le (record : Record) : record.toJson.height ≤ 2 := by
  cases record with
  | constant value => exact height_ofMembers_le (by simp [Constant.height_toJson_le])
  | _ => exact height_ofMembers_le (by simp)

theorem ofJson?_tagged {kind : String} {members : List (String × Json)}
    (fresh : "kind" ∉ members.map Prod.fst)
    (plain : (ofMembers (("kind", ofString kind) :: members)).IsPlain)
    (low : (ofMembers (("kind", ofString kind) :: members)).height ≤ 2) :
    ofJson? (ofMembers (("kind", ofString kind) :: members)) = ofFields? kind (ofMembers members) := by
  -- Two levels are far below the limit.
  have within := low.trans (show 2 ≤ heightLimit by decide)
  rw [ofJson?, if_pos (by simp [plain.isMeaningful, within]), tagged?_ofMembers fresh]
  rfl

theorem ofJson?_toJson {record : Record} (exact : record.isFloating = false) :
    ofJson? record.toJson = some record := by
  have plain := isPlain_toJson exact
  have low := record.height_toJson_le
  cases record
  all_goals
    rw [toJson, ofJson?_tagged (by simp) plain low, ofFields?, fields?_ofMembers (by rfl) (by decide)]
  case constant value => simp [Constant.ofJson?_toJson exact]
  all_goals simp

end Record

/-! Declarations -/

namespace TryEntry

theorem isPlain_toJson (entry : TryEntry) : entry.toJson.IsPlain := IsPlain.object (by simp)

theorem ofJson?_toJson (entry : TryEntry) : ofJson? entry.toJson = some entry := by
  simp [toJson, ofJson?, fields?_ofMembers]

end TryEntry

namespace FieldDecl

theorem isPlain_toJson (field : FieldDecl) : field.toJson.IsPlain := IsPlain.object (by simp)

theorem ofJson?_toJson (field : FieldDecl) : ofJson? field.toJson = some field := by
  simp [toJson, ofJson?, fields?_ofMembers]

end FieldDecl

namespace MethodDecl

def FloatFree (method : MethodDecl) : Prop := ∀ record ∈ method.code, record.isFloating = false

instance (method : MethodDecl) : Decidable method.FloatFree :=
  inferInstanceAs (Decidable (∀ record ∈ method.code, record.isFloating = false))

variable {method : MethodDecl} (exact : method.FloatFree)
include exact

theorem isPlain_toJson : method.toJson.IsPlain := by
  have code : ∀ record ∈ method.code, record.toJson.IsPlain :=
    fun record member => Record.isPlain_toJson (exact record member)
  exact IsPlain.object (by simp [isPlain_ofList code, TryEntry.isPlain_toJson])

theorem ofJson?_toJson : ofJson? method.toJson = some method := by
  have code : ∀ record ∈ method.code, Record.ofJson? record.toJson = some record :=
    fun record member => Record.ofJson?_toJson (exact record member)
  simp [toJson, ofJson?, fields?_ofMembers, list_ofList code, TryEntry.ofJson?_toJson]

end MethodDecl

namespace ClassDecl

def FloatFree (decl : ClassDecl) : Prop := ∀ method ∈ decl.methods, method.FloatFree

instance (decl : ClassDecl) : Decidable decl.FloatFree :=
  inferInstanceAs (Decidable (∀ method ∈ decl.methods, method.FloatFree))

variable {decl : ClassDecl} (exact : decl.FloatFree)
include exact

theorem isPlain_toJson : decl.toJson.IsPlain := by
  have methods : ∀ method ∈ decl.methods, method.toJson.IsPlain :=
    fun method member => MethodDecl.isPlain_toJson (exact method member)
  exact IsPlain.object (by simp [isPlain_ofList methods, FieldDecl.isPlain_toJson])

theorem ofJson?_toJson : ofJson? decl.toJson = some decl := by
  have methods : ∀ method ∈ decl.methods, MethodDecl.ofJson? method.toJson = some method :=
    fun method member => MethodDecl.ofJson?_toJson (exact method member)
  simp [toJson, ofJson?, fields?_ofMembers, list_ofList methods, FieldDecl.ofJson?_toJson]

end ClassDecl

namespace Program

def FloatFree (program : Program) : Prop := ∀ decl ∈ program.classes, decl.FloatFree

instance (program : Program) : Decidable program.FloatFree :=
  inferInstanceAs (Decidable (∀ decl ∈ program.classes, decl.FloatFree))

variable {program : Program} (exact : program.FloatFree)
include exact

theorem isPlain_toJson : program.toJson.IsPlain := by
  have classes : ∀ decl ∈ program.classes, decl.toJson.IsPlain :=
    fun decl member => ClassDecl.isPlain_toJson (exact decl member)
  exact IsPlain.object (by simp [isPlain_ofList classes])

theorem ofJson?_toJson : ofJson? program.toJson = some program := by
  have classes : ∀ decl ∈ program.classes, ClassDecl.ofJson? decl.toJson = some decl :=
    fun decl member => ClassDecl.ofJson?_toJson (exact decl member)
  simp [toJson, ofJson?, fields?_ofMembers, list_ofList classes]

end Program

/-- A program without floating-point constants reads back from its text, which is the JSON text of its
records. -/
theorem program_text_reads_back (program : Program) (exact : program.FloatFree) :
    Json.parse? program.text = some program.toJson ∧ Program.parse program.text = .ok program := by
  have parsed : Json.parse? program.text = some program.toJson :=
    Json.parse?_compact (Program.isPlain_toJson exact)
  refine ⟨parsed, ?_⟩
  rw [Program.parse, parsed, Option.bind_some, Program.ofJson?_toJson exact]

namespace Sample

def everyKind : Program where
  classes :=
    [{ name := "app/\"Größe\"", superName := none, fields := [], methods := [] },
     { name := "app/日本語", superName := some "java\\lang\\Object"
       fields := [{ name := "\u0001\u001f", descriptor := "I", isStatic := true }]
       methods :=
        [{ name := "😀", descriptor := "()V", isStatic := false, maxStack := 65535, maxLocals := 0
           code :=
            [.simple "sipush" (some (-32768)), .simple "nop" none,
             .localVar "iload" (some 1) (some "tab\there") (some 'ß'), .localVar "aload" none none none,
             .increment 0 (-2147483648) (some ""), .field "getfield" "A" "b" "J" true,
             .invoke "invokestatic" "A" "m" "()V" [none, some "\n"] (some "this") true false,
             .jump "goto" 4294967295 none, .label 0,
             .switch (some 7) [-1, 0, 1] none [1, 2, 3], .switch none [] (some (-5)) [],
             .type "checkcast" "A", .newArray "int", .multiArray "[[I" 255,
             .constant (.int (-7)), .constant (.long (-9223372036854775808)),
             .constant (.string "\u007f\r"), .constant (.type "[I"), .constant (.methodHandle "h")]
           tryCatch := [{ start := 1, finish := 2, handler := 3, catchType := none }] }] }]

end Sample

theorem program_text_reads_back_sample :
    Sample.everyKind.FloatFree ∧
      Json.parse? Sample.everyKind.text = some Sample.everyKind.toJson ∧
      Program.parse Sample.everyKind.text = .ok Sample.everyKind :=
  ⟨by decide, program_text_reads_back Sample.everyKind (by decide)⟩

end BytecodeToC
