import BytecodeToC.Emission.Context

/-!
Lowering of labels, branches, switches and returns. A label first closes the try regions that end at
it, innermost first, and then opens those that begin at it, the first registered innermost.
-/

namespace BytecodeToC

namespace Emission

open C

/-- Closes `count` regions at a label, each of which must end there. -/
def closeRegions (label : Label) (ending : List Nat) :
    Nat → List Nat → Except Error (List Item × List Nat)
  | 0, opened => .ok ([], opened)
  | _ + 1, [] => .error (.unbalanced (.neverOpened label))
  | count + 1, innermost :: outer =>
    if ending.contains innermost then
      (closeRegions label ending count outer).map fun (items, opened) =>
        (.stmt (.endTry innermost) :: items, opened)
    else .error (.unbalanced (.outOfOrder label innermost))

def catchClass (region : Region) : String :=
  match region.catchType with
  | some name => Symbol.classId name
  | none => "CATCH_ALL"

def openRegion (region : Region) : List Item :=
  [.stmt (.saveTry region.seq), .stmt (.beginTry (catchClass region) region.handler region.seq)]

def label (scope : MethodScope) (opened : List Nat) (id : Label) :
    Except Error (List Item × List Nat) := do
  let anchor := if scope.isReferenced id then [Item.anchor id] else []
  let ending := (scope.endingAt id).map (·.seq)
  let (closes, stillOpen) ← closeRegions id ending ending.length opened
  let beginning := (scope.beginningAt id).reverse
  .ok (anchor ++ closes ++ beginning.flatMap openRegion,
    (beginning.map (·.seq)).reverse ++ stillOpen)

def jumpTo (labels : List Label) (target : Label) : Emit Jump := do
  let state ← get
  if state.scope.hasRegions then
    let (depth, scope) := state.scope.catchDepth target labels
    set { state with scope }
    let depth ← depth
    pure { target, depth := some depth }
  else
    pure { target, depth := none }

def conditional (condition : Condition) (jump : Jump) : List Item :=
  match condition with
  | .zero test => [.stmt (.branch (.popped test) jump)]
  | .ints test =>
    [.block [.pop .int "__b", .pop .int "__a", .branch (.compared test "__a" "__b") jump]]
  | .references test =>
    [.block
      [.pop .object "__b", .pop .object "__a", .setFlag "__cond" test "__a" "__b",
       .release "__a", .release "__b", .branch (.flag "__cond") jump]]
  | .null test =>
    [.block
      [.pop .object "__v", .setFlag "__cond" test "__v" "JAVA_NULL", .release "__v",
       .branch (.flag "__cond") jump]]

def branch (labels : List Label) (op : Opcode) (target : Label) (given : Option String) :
    Emit (List Item) := do
  match op with
  | .jsr | .jsrW => throw (.unsupported .subroutineCall)
  | .goto | .gotoW =>
    let jump ← jumpTo labels target
    pure [.stmt (.jump jump)]
  | op =>
    match op.condition? with
    | none => throw (.unsupported (.notBranch op))
    | some condition =>
      let jump ← jumpTo labels target
      match given with
      | some text => pure [.stmt (.branch (.given text) jump)]
      | none => pure (conditional condition jump)

def switch (labels : List Label) (default : Option Label) (keys : List Int32)
    (targets : List Label) : Emit (List Item) := do
  if keys.length ≠ targets.length then
    throw (.unsupported (.switchArity keys.length targets.length))
  else
    let jumps ← targets.mapM (jumpTo labels)
    let default ← default.mapM (jumpTo labels)
    pure [.switch (keys.zip jumps) default]

def leave (context : MethodContext) (hasRegions : Bool) : List Stmt :=
  (if hasRegions then [.exitTries] else []) ++ context.objectLocals.map .release

def methodReturn (context : MethodContext) (hasRegions : Bool) : Option StackType → List Item
  | none => (leave context hasRegions ++ [Stmt.returnVoid]).map .stmt
  | some type =>
    [.block ([.pop type "__ret"] ++ leave context hasRegions ++ [.returnValue type "__ret"])]

end Emission

end BytecodeToC
