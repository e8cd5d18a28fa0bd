import QuestScript.Pattern.Reader
import QuestScript.Pattern.Search
import QuestScript.Error

/-!
# Patterns

Scripts search and compare texts with regular expressions. A pattern is compiled twice: for finding
it anywhere in a text, and for asking whether it covers all of it. Of several matches the leftmost
one counts, and of those the one that a search from left to right through the alternatives finds
first. Positions count characters.
-/

namespace QuestScript

/-- A compiled pattern. -/
structure Pattern where
  anywhere : Pattern.Program
  whole : Pattern.Program
deriving DecidableEq, Repr

namespace Pattern

/-- Compile the text of a regular expression. -/
def Program.compile (cs : List Char) : Except PatternError Program := do
  let tree ← Tree.read cs
  let (node, _) ← tree.meaning {}
  Program.ofNode node

/-- The text of the pattern that matches where `cs` covers all of the text. -/
def anchored (cs : List Char) : List Char :=
  ['\\', 'A', '(', '?', ':'] ++ cs ++ [')', '\\', 'z']

/-- Compile a pattern. -/
def read (cs : List Char) : Except PatternError Pattern := do
  let anywhere ← Program.compile cs
  let whole ← Program.compile (anchored cs)
  return { anywhere, whole }

/-- Compile a pattern for a script. -/
def compile (source : String) : Except Error Pattern :=
  match read source.toList with
  | .ok p => .ok p
  | .error e => .error ⟨.badPattern, some e.message⟩

/-- Whether the pattern covers a text. -/
def covers (p : Pattern) (text : String) : Bool := (p.whole.search text.toList).isSome

/-- Where a group of the first match starts and ends. -/
def span? (p : Pattern) (cs : List Char) (group : Nat) : Option (Nat × Nat) := do
  let slots ← p.anywhere.search cs
  let start ← slots.lookup (2 * group)
  let stop ← slots.lookup (2 * group + 1)
  return (start, stop)

/-- The text of a group of the first match; group zero is the match. -/
def find? (p : Pattern) (text : String) (group : Nat) : Option String :=
  let cs := text.toList
  (p.span? cs group).map fun (start, stop) => String.ofList ((cs.take stop).drop start)

/-- The position of a group of the first match, counted from one, or zero. -/
def position (p : Pattern) (text : String) (group : Nat) : Number :=
  match p.span? text.toList group with
  | some (start, _) => Number.ofCount (start + 1)
  | none => 0

end Pattern

end QuestScript
