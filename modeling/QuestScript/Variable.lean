import QuestScript.Value

/-!
# Variables

A variable is an array of slots. A slot keeps a number, a text and a tuple side by side. Besides, a
variable may have keys: texts that lead to positions of the array, kept in ascending order.
-/

namespace QuestScript

/-! ## Slots -/

/-- One item of a variable. -/
structure Slot where
  number : Number := 0
  text : String := ""
  tuple : List Value := []
deriving DecidableEq, Repr, Inhabited

namespace Slot

/-- The part of a type. -/
def get (s : Slot) : ValueType → Value
  | .number => .number s.number
  | .text => .text s.text
  | .tuple => .tuple s.tuple

/-- Store a value in the part of its type. -/
def put (s : Slot) : Value → Slot
  | .number n => { s with number := n }
  | .text t => { s with text := t }
  | .tuple vs => { s with tuple := vs }

/-- The part that counts when none is asked for: the tuple or else the text, unless empty, and
otherwise the number. -/
def preferred (s : Slot) : Value :=
  if !s.tuple.isEmpty then .tuple s.tuple
  else if !s.text.isEmpty then .text s.text
  else .number s.number

/-- The part that was written is read back. -/
theorem get_put (s : Slot) (v : Value) : (s.put v).get v.type = v := by cases v <;> rfl

/-- The other parts stay. -/
theorem get_put_of_ne {s : Slot} {v : Value} {ty : ValueType} (h : ty ≠ v.type) :
    (s.put v).get ty = s.get ty := by
  cases v <;> cases ty <;> first | rfl | exact absurd rfl h

end Slot

/-! ## Variables -/

/-- The items of a variable and its keys with their positions, in ascending order of the keys. -/
structure Variable where
  values : Array Slot := #[]
  keys : List (String × Nat) := []
deriving DecidableEq, Repr, Inhabited

namespace Variable

/-- Whether the variable holds nothing. -/
def isEmpty (v : Variable) : Bool := v.values.isEmpty && v.keys.isEmpty

def size (v : Variable) : Nat := v.values.size

/-- The item at a position; past the end all items are empty. -/
def get (v : Variable) (position : Nat) (ty : ValueType) : Value :=
  (v.values[position]?.getD {}).get ty

/-- Store a value at a position; the array grows as far as it must. -/
def put (v : Variable) (position : Nat) (value : Value) : Variable :=
  let grown := v.values ++ Array.replicate (position + 1 - v.values.size) ({} : Slot)
  { v with values := grown.modify position (·.put value) }

/-! ## Keys -/

/-- The position a key leads to. -/
def keyPosition? (v : Variable) (key : String) : Option Nat := v.keys.lookup key

/-- Put a key in its place. -/
def insertKey (key : String) (position : Nat) : List (String × Nat) → List (String × Nat)
  | [] => [(key, position)]
  | (k, p) :: rest =>
    if key < k then (key, position) :: (k, p) :: rest else (k, p) :: insertKey key position rest

/-- Append an empty item with a key of its own. -/
def appendKey (v : Variable) (key : String) : Variable :=
  { values := v.values.push {}, keys := insertKey key v.values.size v.keys }

/-! ## Reshaping -/

/-- Remove an item; its keys go, and the positions after it move down by one. -/
def remove (v : Variable) (position : Nat) : Variable :=
  if position < v.values.size then
    { values := v.values.eraseIdxIfInBounds position
      keys := (v.keys.filter fun (_, p) => p != position).map fun (k, p) =>
        (k, if position < p then p - 1 else p) }
  else v

/-- The `count` items from `start` on, with their keys. -/
def slice (v : Variable) (start count : Nat) : Variable :=
  if v.values.size ≤ start || count == 0 then {}
  else
    let stop := min v.values.size (start + count)
    { values := v.values.extract start stop
      keys := (v.keys.filter fun (_, p) => start ≤ p && p < stop).map fun (k, p) => (k, p - start) }

end Variable

end QuestScript
