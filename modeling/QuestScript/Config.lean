/-!
# Configuration

The limits of an engine and the choices a host can make for it.
-/

namespace QuestScript

/-- The configuration of an engine. -/
structure Config where
  /-- Most variables that hold something. -/
  maxVariables : Nat := 16384
  /-- Most items of a variable. -/
  maxArrayItems : Nat := 1048576
  /-- Most nested calls of locations and code. -/
  maxCallDepth : Nat := 512
  /-- The random seed; without one the host provides it. -/
  randSeed : Option UInt32 := none
  /-- Whether going to another location leaves the second text panel as it is. -/
  keepStatText : Bool := true
deriving DecidableEq, Repr

end QuestScript
