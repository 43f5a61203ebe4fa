import BytecodeToC.Proofs.StackKinds

/-!
What each instruction takes off the operand stack and what it leaves there, told by its opcode and its
operands. The code that an instruction is lowered to passes the check of kinds from the one to the
other, except that the check does not see what is in arrays of objects and what a shuffle does.
-/

namespace BytecodeToC

open Result

/-- Kinds of values, the top of the stack first. -/
structure StackEffect where
  takes : List StackType := []
  /-- Unknown for a shuffle, where it depends on what is there. -/
  gives : Option (List StackType) := some []
deriving DecidableEq, Repr

namespace StackEffect

def keep : StackEffect := {}

def gain (type : StackType) : StackEffect := { gives := some [type] }

def lose (types : List StackType) : StackEffect := { takes := types }

def turn (types : List StackType) (result : StackType) : StackEffect :=
  { takes := types, gives := some [result] }

def shuffle : StackEffect := { gives := none }

def numbers : List StackType := [.int, .long, .float, .double]

def integers : List StackType := [.int, .long]

def values : List StackType := [.int, .long, .float, .double, .object]

def elements : List StackType := [.int, .long, .float, .double, .object, .int, .int, .int]

end StackEffect

namespace Opcode

open StackEffect

/-- The opcodes whose effect depends on nothing else, as runs of consecutive bytes from the given one
on. -/
def effects : List (Nat × List StackEffect) :=
  -- No operation and constants.
  [(0x00, keep :: gain .object :: List.replicate 7 (gain .int) ++ List.replicate 2 (gain .long) ++
    List.replicate 3 (gain .float) ++ List.replicate 2 (gain .double) ++
    List.replicate 2 (gain .int)),
  -- Loads and stores, first of locals and then of array elements, whose index is above the array.
  (0x15, values.map gain),
  (0x2e, elements.map (turn [.int, .object])),
  (0x36, values.map fun type => lose [type]),
  (0x4f, elements.map fun type => lose [type, .int, .object]),
  (0x57, List.replicate 9 shuffle),
  -- Five operations on numbers, negation, three shifts by an int, three operations on bits.
  (0x60, (List.replicate 5 numbers).flatten.map fun type => turn [type, type] type),
  (0x74, numbers.map fun type => turn [type] type),
  (0x78, (List.replicate 3 integers).flatten.map fun type => turn [.int, type] type),
  (0x7e, (List.replicate 3 integers).flatten.map fun type => turn [type, type] type),
  (0x84, [keep]),
  -- Conversions, and comparisons of longs, floats and doubles.
  (0x85, numbers.flatMap fun source => (numbers.erase source).map (turn [source])),
  (0x91, List.replicate 3 (turn [.int] .int)),
  (0x94, [.long, .float, .float, .double, .double].map fun type => turn [type, type] .int),
  -- Branches, and returns.
  (0x99, List.replicate 6 (lose [.int]) ++ List.replicate 6 (lose [.int, .int]) ++
    List.replicate 2 (lose [.object, .object]) ++ [keep]),
  (0xac, values.map (fun type => lose [type]) ++ [keep]),
  -- Objects: `new`, two kinds of arrays, length, throw, cast, test, two for monitors.
  (0xbb, [gain .object, turn [.int] .object, turn [.int] .object, turn [.object] .int,
    lose [.object], turn [.object] .object, turn [.object] .int, lose [.object], lose [.object]]),
  (0xc6, [lose [.object], lose [.object], keep])]

variable {op : Opcode}

end Opcode

open StackEffect

namespace Emission

open C C.StackFrame Emit

variable {kinds : List (String × StackType)}

def Does (kinds : List (String × StackType)) (effect : StackEffect) (items : List Item) : Prop :=
  ∃ gives, effect.gives = some gives ∧ Types kinds effect.takes gives items

def declared (operand : StackType × String) : String × StackType := (operand.2, operand.1)

/-- What is known of the items of an instruction: they pass the check, or they shuffle the stack, or
they store an object in an array, which the check knows nothing of. -/
inductive Performs (kinds : List (String × StackType)) (instruction : Instr) (effect : StackEffect)
    (items : List Item) : Prop
  | checked : Does kinds effect items → Performs kinds instruction effect items
  | shuffles (kind : Shuffle) : effect = shuffle → items = [.stmt (.shuffle kind)] →
      Performs kinds instruction effect items
  | stores (immediate : Option Int32) : instruction = .basic ⟨0x53⟩ immediate →
      effect = lose [.object, .int, .object] → items = arrayStore .object →
      Performs kinds instruction effect items

theorem Makes.mono {α : Type} {good fine : α → Prop} {action : Emit α} (makes : Makes fine action)
    (all : ∀ value, fine value → good value) : Makes good action := by
  intro state given
  obtain ⟨kept, values, fails⟩ := makes state given
  exact ⟨kept, fun value made => all value (values value made), fails⟩

end Emission

end BytecodeToC
