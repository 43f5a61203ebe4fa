import BytecodeToC.Instr

/-!
The C statements that lowered methods are made of, as data. A method body is a list of items: simple
statements, braced blocks of them, switches and label anchors. The text of each is fixed here and
nowhere else; what a statement does to the operand stack and to references can be read off its
constructor.

An object on the operand stack, in an object local or in an array of objects counts as one reference.
-/

namespace BytecodeToC

namespace C

/-- A jump. Once a method has try regions, a jump says how many are open at its target. -/
structure Jump where
  target : Label
  depth : Option Nat
deriving DecidableEq, Repr

def Jump.text (jump : Jump) : String :=
  match jump.depth with
  | none => "goto " ++ labelName jump.target ++ ";"
  | some depth => "JUMP_TO(" ++ labelName jump.target ++ ", " ++ toString depth ++ ");"

structure Call where
  function : String
  args : List String
deriving DecidableEq, Repr

def Call.text (call : Call) : String :=
  call.function ++ "(" ++ String.intercalate ", " call.args ++ ")"

/-- An object reference that arrives owned, or null. -/
inductive Fresh where
  | null
  | object (classSymbol : String)
  | array (classIdentity elementType : String) (dimensions : Nat)
  | multiArray (dimensions : Nat) (args : List String)
  | clone (source : String)
deriving DecidableEq, Repr

def Fresh.text : Fresh → String
  | null => "JAVA_NULL"
  | object classSymbol => "__NEW_" ++ classSymbol ++ "(threadStateData)"
  | array classIdentity elementType dimensions =>
    "allocArray(threadStateData, POP_INT(), &" ++ classIdentity ++ ", sizeof(" ++ elementType ++ "), " ++
      toString dimensions ++ ")"
  | multiArray dimensions args =>
    (Call.mk ("ALLOC_ARRAY_" ++ toString dimensions ++ "D") ("threadStateData" :: args)).text
  | clone source => "cloneArray(threadStateData, " ++ source ++ ")"

inductive Shuffle where
  | pop
  | pop2
  | dup
  | dupX1
  | dupX2
  | dup2
  | dup2X1
  | dup2X2
  | swap
deriving DecidableEq, Repr

def Shuffle.text : Shuffle → String
  | pop => "BC_POP();"
  | pop2 => "BC_POP2();"
  | dup => "BC_DUP();"
  | dupX1 => "BC_DUP_X1();"
  | dupX2 => "BC_DUP_X2();"
  | dup2 => "BC_DUP2();"
  | dup2X1 => "BC_DUP2_X1();"
  | dup2X2 => "BC_DUP2_X2();"
  | swap => "BC_SWAP();"

inductive Test where
  | given (condition : String)
  | popped (test : Comparison)
  | compared (test : Comparison) (left right : String)
  | flag (name : String)
deriving DecidableEq, Repr

def Test.text : Test → String
  | given condition => condition
  | popped test => "POP_INT() " ++ test.text ++ " 0"
  | compared test left right => left ++ " " ++ test.text ++ " " ++ right
  | flag name => name

inductive Stmt where
  | comment (note : String)
  /-- Pushes a value it does not own; an object is retained. -/
  | push (type : StackType) (value : String)
  | pushCall (type : StackType) (application : Call)
  | pushFresh (value : Fresh)
  | pushMoved (name : String)
  | shuffle (kind : Shuffle)
  | pop (type : StackType) (name : String)
  | popInto (type : StackType) (name : String)
  | assign (target value : String)
  | increment (name : String) (delta : Int32)
  | retain (name : String)
  | release (target : String)
  | releaseFresh (value : Fresh)
  | checkNull (name : String)
  | checkArrayAccess (array index : String)
  | checkCast (name classIdentity : String)
  | call (application : Call)
  /-- Hands a variable to a field setter, which takes a reference of its own. -/
  | set (setter : Call)
  | setPopped (setter : String) (type : StackType)
  | monitor (function name : String)
  | classBackref (outer inner : String)
  | setFlag (name : String) (test : Comparison) (left right : String)
  | jump (destination : Jump)
  | branch (test : Test) (destination : Jump)
  | saveTry (region : Nat)
  | beginTry (classId : String) (handler : Label) (region : Nat)
  | endTry (region : Nat)
  | exitTries
  | returnVoid
  | returnValue (type : StackType) (name : String)
  | throwTop
deriving DecidableEq, Repr

def tryVariable (region : Nat) : String := "__try_offset_" ++ toString region

def popText (type : StackType) : String := "POP_" ++ type.suffix ++ "()"

def pushText (type : StackType) (value : String) : String :=
  match type with
  | .object => "PUSH_OBJ(RETAIN(" ++ value ++ "));"
  | type => "PUSH_" ++ type.suffix ++ "(" ++ value ++ ");"

def Stmt.text : Stmt → String
  | comment note => "/* " ++ note ++ " */"
  | push type value => pushText type value
  | pushCall type application => pushText type application.text
  | pushFresh value => "PUSH_OBJ(" ++ value.text ++ ");"
  | pushMoved name => "PUSH_OBJ(" ++ name ++ ");"
  | shuffle kind => kind.text
  | pop type name => type.cType ++ " " ++ name ++ " = " ++ popText type ++ ";"
  | popInto type name => name ++ " = " ++ popText type ++ ";"
  | assign target value => target ++ " = " ++ value ++ ";"
  | increment name delta => name ++ " += " ++ toString delta.toInt ++ ";"
  | retain name => "RETAIN(" ++ name ++ ");"
  | release target => "RELEASE(" ++ target ++ ");"
  | releaseFresh value => "RELEASE(" ++ value.text ++ ");"
  | checkNull name => "CHECK_NULL(" ++ name ++ ");"
  | checkArrayAccess array index => "CHECK_ARRAY_ACCESS(" ++ array ++ ", " ++ index ++ ");"
  | checkCast name classIdentity => "CHECK_CAST(" ++ name ++ ", &" ++ classIdentity ++ ");"
  | call application => application.text ++ ";"
  | set setter => setter.text ++ ";"
  | setPopped setter type => setter ++ "(threadStateData, " ++ popText type ++ ");"
  | monitor function name => function ++ "(threadStateData, " ++ name ++ ");"
  | classBackref outer inner => "ARRAY_CLASS_BACKREF(" ++ outer ++ ", " ++ inner ++ ");"
  | setFlag name test left right =>
    "JAVA_BOOLEAN " ++ name ++ " = " ++ left ++ " " ++ test.text ++ " " ++ right ++ ";"
  | jump destination => destination.text
  | branch test destination => "if (" ++ test.text ++ ") " ++ destination.text
  | saveTry region => "SAVE_TRY_OFFSET(" ++ tryVariable region ++ ");"
  | beginTry classId handler region =>
    "BEGIN_TRY(" ++ classId ++ ", " ++ labelName handler ++ ", " ++ tryVariable region ++ ");"
  | endTry region => "END_TRY(" ++ tryVariable region ++ ");"
  | exitTries => "EXIT_TRY_SCOPES();"
  | returnVoid => "return;"
  | returnValue .object name => "return AUTORELEASE(" ++ name ++ ");"
  | returnValue _ name => "return " ++ name ++ ";"
  | throwTop => "THROW(POP_OBJ());"

namespace Stmt

@[simp] theorem text_comment (note : String) : (comment note).text = "/* " ++ note ++ " */" := rfl

@[simp] theorem text_push (type : StackType) (value : String) :
    (push type value).text = pushText type value := rfl

@[simp] theorem text_pushCall (type : StackType) (application : Call) :
    (pushCall type application).text = pushText type application.text := rfl

@[simp] theorem text_pushFresh (value : Fresh) :
    (pushFresh value).text = "PUSH_OBJ(" ++ value.text ++ ");" := rfl

@[simp] theorem text_pushMoved (name : String) :
    (pushMoved name).text = "PUSH_OBJ(" ++ name ++ ");" := rfl

@[simp] theorem text_shuffle (kind : Shuffle) : (shuffle kind).text = kind.text := rfl

@[simp] theorem text_pop (type : StackType) (name : String) :
    (pop type name).text = type.cType ++ " " ++ name ++ " = " ++ popText type ++ ";" := rfl

@[simp] theorem text_popInto (type : StackType) (name : String) :
    (popInto type name).text = name ++ " = " ++ popText type ++ ";" := rfl

@[simp] theorem text_assign (target value : String) :
    (assign target value).text = target ++ " = " ++ value ++ ";" := rfl

@[simp] theorem text_increment (name : String) (delta : Int32) :
    (increment name delta).text = name ++ " += " ++ toString delta.toInt ++ ";" := rfl

@[simp] theorem text_retain (name : String) : (retain name).text = "RETAIN(" ++ name ++ ");" := rfl

@[simp] theorem text_release (target : String) :
    (release target).text = "RELEASE(" ++ target ++ ");" := rfl

@[simp] theorem text_releaseFresh (value : Fresh) :
    (releaseFresh value).text = "RELEASE(" ++ value.text ++ ");" := rfl

@[simp] theorem text_checkNull (name : String) :
    (checkNull name).text = "CHECK_NULL(" ++ name ++ ");" := rfl

@[simp] theorem text_checkArrayAccess (array index : String) :
    (checkArrayAccess array index).text = "CHECK_ARRAY_ACCESS(" ++ array ++ ", " ++ index ++ ");" := rfl

@[simp] theorem text_checkCast (name classIdentity : String) :
    (checkCast name classIdentity).text = "CHECK_CAST(" ++ name ++ ", &" ++ classIdentity ++ ");" := rfl

@[simp] theorem text_call (application : Call) :
    (call application).text = application.text ++ ";" := rfl

@[simp] theorem text_set (setter : Call) : (set setter).text = setter.text ++ ";" := rfl

@[simp] theorem text_setPopped (setter : String) (type : StackType) :
    (setPopped setter type).text = setter ++ "(threadStateData, " ++ popText type ++ ");" := rfl

@[simp] theorem text_monitor (function name : String) :
    (monitor function name).text = function ++ "(threadStateData, " ++ name ++ ");" := rfl

@[simp] theorem text_classBackref (outer inner : String) :
    (classBackref outer inner).text = "ARRAY_CLASS_BACKREF(" ++ outer ++ ", " ++ inner ++ ");" := rfl

@[simp] theorem text_setFlag (name : String) (test : Comparison) (left right : String) :
    (setFlag name test left right).text =
      "JAVA_BOOLEAN " ++ name ++ " = " ++ left ++ " " ++ test.text ++ " " ++ right ++ ";" := rfl

@[simp] theorem text_jump (destination : Jump) : (jump destination).text = destination.text := rfl

@[simp] theorem text_branch (test : Test) (destination : Jump) :
    (branch test destination).text = "if (" ++ test.text ++ ") " ++ destination.text := rfl

@[simp] theorem text_saveTry (region : Nat) :
    (saveTry region).text = "SAVE_TRY_OFFSET(" ++ tryVariable region ++ ");" := rfl

@[simp] theorem text_beginTry (classId : String) (handler : Label) (region : Nat) :
    (beginTry classId handler region).text =
      "BEGIN_TRY(" ++ classId ++ ", " ++ labelName handler ++ ", " ++ tryVariable region ++ ");" := rfl

@[simp] theorem text_endTry (region : Nat) :
    (endTry region).text = "END_TRY(" ++ tryVariable region ++ ");" := rfl

@[simp] theorem text_exitTries : exitTries.text = "EXIT_TRY_SCOPES();" := rfl

@[simp] theorem text_returnVoid : returnVoid.text = "return;" := rfl

@[simp] theorem text_returnValue (type : StackType) (name : String) :
    (returnValue type name).text =
      if type = .object then "return AUTORELEASE(" ++ name ++ ");" else "return " ++ name ++ ";" := by
  cases type <;> rfl

@[simp] theorem text_throwTop : throwTop.text = "THROW(POP_OBJ());" := rfl

end Stmt

inductive Item where
  | stmt (statement : Stmt)
  | block (body : List Stmt)
  | switch (cases : List (Int32 × Jump)) (default : Option Jump)
  | anchor (label : Label)
deriving DecidableEq, Repr

def line (depth : Nat) (text : String) : String :=
  String.join (List.replicate depth "    ") ++ text ++ "\n"

namespace Item

def text : Item → String
  | stmt statement => line 1 statement.text
  | block body =>
    line 1 "\x7b" ++ String.join (body.map fun statement => line 2 statement.text) ++ line 1 "\x7d"
  | switch cases default =>
    line 1 "switch (POP_INT()) \x7b" ++
      String.join (cases.map fun (key, jump) =>
        line 2 ("case " ++ Literal.int key ++ ": " ++ jump.text)) ++
      String.join (default.toList.map fun jump => line 2 ("default: " ++ jump.text)) ++
      line 1 "\x7d"
  | anchor label => labelName label ++ ": ;\n"

def lines : Item → List String
  | stmt statement => [line 1 statement.text]
  | block body => line 1 "\x7b" :: body.map (fun statement => line 2 statement.text) ++ [line 1 "\x7d"]
  | switch cases default =>
    line 1 "switch (POP_INT()) \x7b" ::
      cases.map (fun entry => line 2 ("case " ++ Literal.int entry.1 ++ ": " ++ entry.2.text)) ++
      default.toList.map (fun jump => line 2 ("default: " ++ jump.text)) ++ [line 1 "\x7d"]
  | anchor label => [labelName label ++ ": ;\n"]

theorem text_eq_join_lines (item : Item) : item.text = String.join item.lines := by
  cases item <;> simp [text, lines, String.join_append, String.append_assoc]

end Item

def bodyText (items : List Item) : String := String.join (items.map Item.text)

theorem bodyText_append (first second : List Item) :
    bodyText (first ++ second) = bodyText first ++ bodyText second := by
  simp [bodyText, String.join_append]

theorem bodyText_eq_join_lines (items : List Item) :
    bodyText items = String.join (items.flatMap Item.lines) := by
  induction items with
  | nil => rfl
  | cons item rest ih =>
      rw [List.flatMap_cons, String.join_append, ← ih, ← item.text_eq_join_lines]
      simp [bodyText]

theorem line_one (text : String) : line 1 text = "    " ++ text ++ "\n" := rfl

theorem line_two (text : String) : line 2 text = "        " ++ text ++ "\n" := rfl

theorem line_case (key : Int32) (text : String) :
    line 2 ("case " ++ Literal.int key ++ ": " ++ text) =
      "        case " ++ Literal.int key ++ ": " ++ text ++ "\n" := by
  rw [line_two]
  simp [← String.toList_inj]

theorem line_default (text : String) :
    line 2 ("default: " ++ text) = "        default: " ++ text ++ "\n" := by
  rw [line_two]
  simp [← String.toList_inj]

theorem bodyText_stmts (body : List Stmt) :
    bodyText (body.map .stmt) = String.join ((body.map Stmt.text).map ("    " ++ · ++ "\n")) := by
  simp [bodyText, Item.text, line_one, Function.comp_def]

theorem bodyText_block (body : List Stmt) :
    bodyText [.block body] =
      "    \x7b\n" ++ String.join ((body.map Stmt.text).map ("        " ++ · ++ "\n")) ++ "    \x7d\n" := by
  simp [bodyText, Item.text, line_one, line_two, Function.comp_def]

end C

end BytecodeToC
