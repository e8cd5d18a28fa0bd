import QuestScript.Text.Blank
import QuestScript.Text.Case

/-!
# Similar names

When a location is not found, the message suggests the known name that takes the fewest edits. The
edit distance is computed row by row: the row for a prefix of the first text holds its distances to
all prefixes of the second one.
-/

namespace QuestScript.Text

/-! ## Edit distance -/

/-- The cells of a row after its first one: `left` is the cell just computed, the list the previous
row from the cell above `left` on. -/
def editCells (a : Char) : List Char → Nat → List Nat → List Nat
  | b :: bs, left, diagonal :: above :: row =>
    let cell := min (min (above + 1) (left + 1)) (diagonal + if a == b then 0 else 1)
    cell :: editCells a bs cell (above :: row)
  | _, _, _ => []

/-- The row after `row`, for one more character `a` of the first text. -/
def editRow (bs : List Char) (row : List Nat) (a : Char) : List Nat :=
  let first := row.headD 0 + 1
  first :: editCells a bs first row

/-- Least number of insertions, deletions and substitutions that turn one text into the other. -/
def editDistance (as bs : List Char) : Nat :=
  (as.foldl (editRow bs) (List.range (bs.length + 1))).getLastD 0

/-! ## Suggestions -/

/-- The first element with the least key. -/
def firstLeast {α : Type} (key : α → Nat) : List α → Option α
  | [] => none
  | a :: as =>
    match firstLeast key as with
    | none => some a
    | some b => if key b < key a then some b else some a

/-- The known name closest to `name` within `threshold` edits; case and surrounding white space of
`name` do not matter. -/
def similarName? (name : String) (known : List String) (threshold : Nat) : Option String :=
  let wanted := upper (trimWhite name.toList)
  let distance (s : String) : Nat := editDistance wanted (upper s.toList)
  firstLeast distance (known.filter fun s => distance s ≤ threshold)

/-- The end of a "not found" message. -/
def suggestion : Option String → String
  | some name => " (did you mean '" ++ name ++ "'?)"
  | none => ""

end QuestScript.Text
