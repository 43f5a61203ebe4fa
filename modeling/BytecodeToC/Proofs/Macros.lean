import BytecodeToC.Proofs.References

/-!
The runtime macros that lowered code is printed with, and what each of them does to references:
`RETAIN` adds one and `RELEASE` removes one, `PUSH_OBJ` and `POP_OBJ` move the one of a slot, what is
allocated or cloned arrives with one, what a function returns or an expression reads without.

A statement is printed as one command over these macros, and a step of it is a run of that command.
-/

namespace BytecodeToC

namespace C

inductive Source where
  | value (text : String)
  | held (name : String)
  | call (application : Call)
  | fresh (value : Fresh)
  | popped (type : StackType)
  | retained (source : Source)

/-- What is printed and changes no reference: comments, checks and the marks of try regions. -/
inductive Notice where
  | comment (note : String)
  | nullCheck (name : String)
  | accessCheck (array index : String)
  | castCheck (name classIdentity : String)
  | backref (outer inner : String)
  | saveTry (region : Nat)
  | beginTry (classId : String) (handler : Label) (region : Nat)
  | endTry (region : Nat)
  | exitTries

inductive Command where
  | push (type : StackType) (source : Source)
  | declare (type : StackType) (name : String) (source : Source)
  | declareFlag (name : String) (test : Comparison) (left right : String)
  | assign (target : String) (source : Source)
  | increment (name : String) (delta : Int32)
  | retain (name : String)
  | release (source : Source)
  | notice (given : Notice)
  | run (application : Call)
  | runOn (function : String) (source : Source)
  | shuffle (kind : Shuffle)
  | jump (destination : Jump)
  | branch (test : Test) (destination : Jump)
  | returnVoid
  | returnNumber (name : String)
  | returnObject (name : String)
  | throw (source : Source)

/-! Texts -/

def kindSuffix : StackType → String
  | .int => "INT"
  | .long => "LONG"
  | .float => "FLOAT"
  | .double => "DOUBLE"
  | .object => "OBJ"

def kindType : StackType → String
  | .int => "JAVA_INT"
  | .long => "JAVA_LONG"
  | .float => "JAVA_FLOAT"
  | .double => "JAVA_DOUBLE"
  | .object => "JAVA_OBJECT"

def applied (function : String) (args : List String) : String :=
  function ++ "(" ++ String.intercalate ", " args ++ ")"

def Source.print : Source → String
  | value text | held text => text
  | call application => applied application.function application.args
  | fresh .null => "JAVA_NULL"
  | fresh (.object symbol) => "__NEW_" ++ symbol ++ "(threadStateData)"
  | fresh (.array identity element dimensions) =>
    "allocArray(threadStateData, POP_INT(), &" ++ identity ++ ", sizeof(" ++ element ++ "), " ++
      toString dimensions ++ ")"
  | fresh (.multiArray dimensions args) =>
    applied ("ALLOC_ARRAY_" ++ toString dimensions ++ "D") ("threadStateData" :: args)
  | fresh (.clone source) => "cloneArray(threadStateData, " ++ source ++ ")"
  | popped type => "POP_" ++ kindSuffix type ++ "()"
  | retained source => "RETAIN(" ++ source.print ++ ")"

def Test.print : Test → String
  | given condition => condition
  | popped test => "POP_INT() " ++ test.text ++ " 0"
  | compared test left right => left ++ " " ++ test.text ++ " " ++ right
  | flag name => name

def Shuffle.print (kind : Shuffle) : String :=
  let action := match kind with
    | pop => "POP"
    | pop2 => "POP2"
    | dup => "DUP"
    | dupX1 => "DUP_X1"
    | dupX2 => "DUP_X2"
    | dup2 => "DUP2"
    | dup2X1 => "DUP2_X1"
    | dup2X2 => "DUP2_X2"
    | swap => "SWAP"
  "BC_" ++ action ++ "();"

def Notice.print : Notice → String
  | comment note => "/* " ++ note ++ " */"
  | nullCheck name => "CHECK_NULL(" ++ name ++ ");"
  | accessCheck array index => "CHECK_ARRAY_ACCESS(" ++ array ++ ", " ++ index ++ ");"
  | castCheck name classIdentity => "CHECK_CAST(" ++ name ++ ", &" ++ classIdentity ++ ");"
  | backref outer inner => "ARRAY_CLASS_BACKREF(" ++ outer ++ ", " ++ inner ++ ");"
  | saveTry region => "SAVE_TRY_OFFSET(__try_offset_" ++ toString region ++ ");"
  | beginTry classId handler region =>
    "BEGIN_TRY(" ++ classId ++ ", " ++ labelName handler ++ ", __try_offset_" ++ toString region ++ ");"
  | endTry region => "END_TRY(__try_offset_" ++ toString region ++ ");"
  | exitTries => "EXIT_TRY_SCOPES();"

def Command.print : Command → String
  | push type source => "PUSH_" ++ kindSuffix type ++ "(" ++ source.print ++ ");"
  | declare type name source => kindType type ++ " " ++ name ++ " = " ++ source.print ++ ";"
  | declareFlag name test left right =>
    "JAVA_BOOLEAN " ++ name ++ " = " ++ left ++ " " ++ test.text ++ " " ++ right ++ ";"
  | assign target source => target ++ " = " ++ source.print ++ ";"
  | increment name delta => name ++ " += " ++ toString delta.toInt ++ ";"
  | retain name => "RETAIN(" ++ name ++ ");"
  | release source => "RELEASE(" ++ source.print ++ ");"
  | notice given => given.print
  | run application => applied application.function application.args ++ ";"
  | runOn function source => function ++ "(threadStateData, " ++ source.print ++ ");"
  | shuffle kind => kind.print
  | jump destination => destination.text
  | branch test destination => "if (" ++ test.print ++ ") " ++ destination.text
  | returnVoid => "return;"
  | returnNumber name => "return " ++ name ++ ";"
  | returnObject name => "return AUTORELEASE(" ++ name ++ ");"
  | throw source => "THROW(" ++ source.print ++ ");"

/-! Effects -/

/-- A value and what its evaluation leaves. Only what is popped, allocated or retained has a reference
of its own. -/
inductive Eval : Machine → Source → Word → Machine → Prop
  | value {machine text word} : Eval machine (.value text) word machine
  | held {machine name word} : machine.read? name = some word →
      Eval machine (.held name) word machine
  | call {machine application word heap} : machine.heap.Settles heap →
      Eval machine (.call application) word (machine.withHeap heap)
  | fresh {machine value rest heap object} :
      Leaves value.popsNumber machine.stack rest → machine.heap.Settles heap →
      Eval machine (.fresh value) (.reference object)
        (((machine.withStack rest).withHeap heap).retain (.reference object) 1)
  | popped {machine type word rest} : machine.stack = word :: rest → word.fits type = true →
      Eval machine (.popped type) word (machine.withStack rest)
  | retained {machine source word next} : Eval machine source word next →
      Eval machine (.retained source) word (next.retain word 1)

inductive Exec : Machine → Command → Flow → Machine → Prop
  | push {machine type source word next} : Eval machine source word next → word.fits type = true →
      Exec machine (.push type source) .next (next.push word)
  | declare {machine type name source word next} : Eval machine source word next →
      word.fits type = true → Exec machine (.declare type name source) .next (next.declare name word)
  | declareFlag {machine name test left right value} :
      Exec machine (.declareFlag name test left right) .next (machine.declare name (.number value))
  | assign {machine target source word next last} : isNumberElement target = false →
      Eval machine source word next → next.write? target word = some last →
      Exec machine (.assign target source) .next last
  | storeNumber {machine target value} : isNumberElement target = true →
      Exec machine (.assign target (.held value)) .next machine
  | increment {machine name delta value next} : machine.write? name (.number value) = some next →
      Exec machine (.increment name delta) .next next
  | retain {machine name word} : machine.read? name = some word → word.isReference = true →
      Exec machine (.retain name) .next (machine.retain word 1)
  | release {machine source word next} : Eval machine source word next → word.isReference = true →
      Exec machine (.release source) .next (next.retain word (-1))
  | notice {machine given} : Exec machine (.notice given) .next machine
  | run {machine application heap} : machine.heap.Settles heap →
      Exec machine (.run application) .next (machine.withHeap heap)
  | runOn {machine function source word next heap} : Eval machine source word next →
      next.heap.Settles heap → Exec machine (.runOn function source) .next (next.withHeap heap)
  | shuffle {machine kind refs stack} :
      (∀ object, refs object - references object stack =
        machine.heap.refs object - machine.onStack object) →
      Exec machine (.shuffle kind) .next
        ((machine.withStack stack).withHeap { machine.heap with refs })
  | jump {machine destination} : Exec machine (.jump destination) (.jumps destination) machine
  | branch {machine test destination rest flow} : Leaves test.popsNumber machine.stack rest →
      flow = .next ∨ flow = .jumps destination →
      Exec machine (.branch test destination) flow (machine.withStack rest)
  | returnVoid {machine} : Exec machine .returnVoid .returns machine
  | returnNumber {machine name} : Exec machine (.returnNumber name) .returns machine
  | returnObject {machine name word} : machine.read? name = some word → word.isReference = true →
      Exec machine (.returnObject name) .returns (machine.handOver word)
  | throw {machine source word next} : Eval machine source word next → word.isReference = true →
      Exec machine (.throw source) .throws (next.handOver word)

/-! Statements -/

/-- What is pushed without a reference of its own is retained if it is an object. -/
def Source.owned (type : StackType) (source : Source) : Source :=
  if type = .object then .retained source else source

def Stmt.command : Stmt → Command
  | comment note => .notice (.comment note)
  | push type value => .push type (.owned type (.value value))
  | pushCall type application => .push type (.owned type (.call application))
  | pushFresh value => .push .object (.fresh value)
  | pushMoved name => .push .object (.held name)
  | shuffle kind => .shuffle kind
  | pop type name => .declare type name (.popped type)
  | popInto type name => .assign name (.popped type)
  | assign target value => .assign target (.held value)
  | increment name delta => .increment name delta
  | retain name => .retain name
  | release target => .release (.held target)
  | releaseFresh value => .release (.fresh value)
  | checkNull name => .notice (.nullCheck name)
  | checkArrayAccess array index => .notice (.accessCheck array index)
  | checkCast name classIdentity => .notice (.castCheck name classIdentity)
  | call application | set application => .run application
  | setPopped setter type => .runOn setter (.popped type)
  | monitor function name => .run { function, args := ["threadStateData", name] }
  | classBackref outer inner => .notice (.backref outer inner)
  | setFlag name test left right => .declareFlag name test left right
  | jump destination => .jump destination
  | branch test destination => .branch test destination
  | saveTry region => .notice (.saveTry region)
  | beginTry classId handler region => .notice (.beginTry classId handler region)
  | endTry region => .notice (.endTry region)
  | exitTries => .notice .exitTries
  | returnVoid => .returnVoid
  | returnValue .object name => .returnObject name
  | returnValue _ name => .returnNumber name
  | throwTop => .throw (.popped .object)

theorem Machine.retain_of_not_isReference {word : Word} (number : word.isReference = false)
    (machine : Machine) (count : Int) : machine.retain word count = machine := by
  simp [retain, withHeap, Heap.retain, Word.weight_of_not_isReference number]

section

variable {machine next : Machine} {flow : Flow}

theorem exec_push_owned_iff {type : StackType} {source : Source} :
    Exec machine (.push type (.owned type source)) flow next ↔
      ∃ word middle, Eval machine source word middle ∧ word.fits type = true ∧ flow = .next ∧
        next = (middle.retain word 1).push word := by
  by_cases object : type = .object
  · simp only [Source.owned, object, ↓reduceIte]
    constructor
    · intro ran
      cases ran with
      | push evaluated fits =>
          cases evaluated with
          | retained inner => exact ⟨_, _, inner, fits, rfl, rfl⟩
    · rintro ⟨word, middle, inner, fits, rfl, rfl⟩
      exact .push (.retained inner) fits
  · simp only [Source.owned, object, ↓reduceIte]
    constructor
    · intro ran
      cases ran with
      | push evaluated fits =>
          refine ⟨_, _, evaluated, fits, rfl, ?_⟩
          rw [Machine.retain_of_not_isReference (Word.not_isReference_of_fits fits object)]
    · rintro ⟨word, middle, inner, fits, rfl, rfl⟩
      rw [Machine.retain_of_not_isReference (Word.not_isReference_of_fits fits object)]
      exact .push inner fits

theorem Step.exec {single : Stmt} (step : Step machine single flow next) :
    Exec machine single.command flow next := by
  cases step with
  | silent idle => cases single <;> first | exact .notice | cases idle
  | call runs settles => cases single <;> first | exact .run settles | cases runs
  | push fits => exact exec_push_owned_iff.mpr ⟨_, _, .value, fits, rfl, rfl⟩
  | pushCall settles fits => exact exec_push_owned_iff.mpr ⟨_, _, .call settles, fits, rfl, rfl⟩
  | pushFresh leaves settles => exact .push (.fresh leaves settles) rfl
  | releaseFresh leaves settles => exact .release (.fresh leaves settles) rfl
  | pushMoved found reference => exact .push (.held found) (by simpa [Word.fits] using reference)
  | shuffle kept => exact .shuffle kept
  | pop top fits => exact .declare (.popped top fits) fits
  | popInto place top fits written => exact .assign place (.popped top fits) written
  | assign place found written => exact .assign place (.held found) written
  | storeNumber element => exact .storeNumber element
  | increment written => exact .increment written
  | retain found reference => exact .retain found reference
  | release found reference => exact .release (.held found) reference
  | setPopped top fits settles => exact .runOn (.popped top fits) settles
  | setFlag => exact .declareFlag
  | jump => exact .jump
  | branch leaves flows => exact .branch leaves flows
  | returnVoid => exact .returnVoid
  | @returnNumber type name number => cases type <;> first | exact .returnNumber | exact absurd rfl number
  | returnReference found reference => exact .returnObject found reference
  | throwTop top reference => exact .throw (.popped top (by simpa [Word.fits] using reference)) reference

theorem Exec.step {single : Stmt} (ran : Exec machine single.command flow next) :
    Step machine single flow next := by
  cases single with
  | push type value =>
      obtain ⟨word, middle, evaluated, fits, rfl, rfl⟩ := exec_push_owned_iff.mp ran
      cases evaluated
      exact .push fits
  | pushCall type application =>
      obtain ⟨word, middle, evaluated, fits, rfl, rfl⟩ := exec_push_owned_iff.mp ran
      cases evaluated with
      | call settles => exact .pushCall settles fits
  | pushFresh value =>
      cases ran with
      | push evaluated fits =>
          cases evaluated with
          | fresh leaves settles => exact .pushFresh leaves settles
  | pushMoved name =>
      cases ran with
      | push evaluated fits =>
          cases evaluated with
          | held found => exact .pushMoved found (by simpa [Word.fits] using fits)
  | shuffle kind =>
      cases ran with
      | shuffle kept => exact .shuffle kept
  | pop type name =>
      cases ran with
      | declare evaluated =>
          cases evaluated with
          | popped top fits => exact .pop top fits
  | popInto type name =>
      cases ran with
      | assign place evaluated written =>
          cases evaluated with
          | popped top fits => exact .popInto place top fits written
  | assign target value =>
      cases ran with
      | assign place evaluated written =>
          cases evaluated with
          | held found => exact .assign place found written
      | storeNumber element => exact .storeNumber element
  | increment name delta =>
      cases ran with
      | increment written => exact .increment written
  | retain name =>
      cases ran with
      | retain found reference => exact .retain found reference
  | release target =>
      cases ran with
      | release evaluated reference =>
          cases evaluated with
          | held found => exact .release found reference
  | releaseFresh value =>
      cases ran with
      | release evaluated =>
          cases evaluated with
          | fresh leaves settles => exact .releaseFresh leaves settles
  | call | set | monitor =>
      cases ran with
      | run settles => exact .call rfl settles
  | setPopped setter type =>
      cases ran with
      | runOn evaluated settles =>
          cases evaluated with
          | popped top fits => exact .setPopped top fits settles
  | setFlag name test left right =>
      cases ran
      exact .setFlag
  | jump destination =>
      cases ran
      exact .jump
  | branch test destination =>
      cases ran with
      | branch leaves flows => exact .branch leaves flows
  | returnVoid =>
      cases ran
      exact .returnVoid
  | returnValue type name =>
      cases type with
      | object =>
          cases ran with
          | returnObject found reference => exact .returnReference found reference
      | _ =>
          cases ran
          exact .returnNumber (by decide)
  | throwTop =>
      cases ran with
      | throw evaluated reference =>
          cases evaluated with
          | popped top => exact .throwTop top reference
  | _ =>
      cases ran
      exact .silent rfl

end

theorem step_eq_exec : Step = fun machine single flow next => Exec machine single.command flow next := by
  funext machine single flow next
  exact propext ⟨Step.exec, Exec.step⟩

def Item.printed : Item → List String
  | stmt single => ["    " ++ single.command.print ++ "\n"]
  | block body =>
    "    \x7b\n" :: body.map (fun single => "        " ++ single.command.print ++ "\n") ++ ["    \x7d\n"]
  | switch cases default =>
    "    switch (POP_INT()) \x7b\n" ::
      cases.map (fun entry =>
        "        case " ++ Literal.int entry.1 ++ ": " ++ entry.2.text ++ "\n") ++
      default.toList.map (fun jump => "        default: " ++ jump.text ++ "\n") ++ ["    \x7d\n"]
  | anchor label => [labelName label ++ ": ;\n"]

/-- A run of the commands that items are printed as. -/
abbrev PrintedRun : Machine → List Item → Flow → Machine → Prop :=
  Sequence (ItemStep fun machine single flow next => Exec machine single.command flow next)

theorem printedRun_eq : PrintedRun = Run := by
  rw [PrintedRun, Run, step_eq_exec]

end C

end BytecodeToC
