import QuestScript.Value.Number
import QuestScript.Text.Literal
import QuestScript.Text.Case
import QuestScript.Error

/-!
# Values

A value is a number, a text or a tuple of values. Values convert into one another: every value has a
text and is a tuple, and a value is a number when there is one obvious reading.

`Value.compare` is the order scripts see: a text that spells a number compares with numbers as one,
and tuples compare item by item.
-/

namespace QuestScript

/-! ## Values and their types -/

/-- The value of an expression. -/
inductive Value where
  | number (n : Number)
  | text (s : String)
  | tuple (items : List Value)
deriving Repr, Inhabited

/-- The three types; a variable keeps one part of each. -/
inductive ValueType where
  | number
  | text
  | tuple
deriving DecidableEq, Repr

namespace ValueType

/-- The type a name's first character selects. -/
def ofName : List Char → ValueType
  | '$' :: _ => text
  | '%' :: _ => tuple
  | _ => number

/-- The word for the type in messages. -/
def name : ValueType → String
  | number => "number"
  | text => "string"
  | tuple => "tuple"

end ValueType

namespace Value

/-- The empty value of a type. -/
def empty : ValueType → Value
  | .number => number 0
  | .text => text ""
  | .tuple => tuple []

def type : Value → ValueType
  | number _ => .number
  | text _ => .text
  | tuple _ => .tuple

/-- One for true, zero for false. -/
def ofBool (b : Bool) : Value := number (Number.ofBool b)

/-! ## Equality -/

mutual

/-- Equality of values. -/
def beq : Value → Value → Bool
  | number a, number b => a == b
  | text a, text b => a == b
  | tuple as, tuple bs => beqItems as bs
  | _, _ => false

/-- Equality of lists of values. -/
def beqItems : List Value → List Value → Bool
  | [], [] => true
  | a :: as, b :: bs => beq a b && beqItems as bs
  | _, _ => false

end

instance : BEq Value := ⟨beq⟩

mutual

theorem beq_eq_true : ∀ {a b : Value}, beq a b = true ↔ a = b
  | number _, b => by cases b <;> simp [beq]
  | text _, b => by cases b <;> simp [beq]
  | tuple _, b => by cases b <;> simp [beq, beqItems_eq_true]

theorem beqItems_eq_true : ∀ {as bs : List Value}, beqItems as bs = true ↔ as = bs
  | [], bs => by cases bs <;> simp [beqItems]
  | _ :: _, bs => by cases bs <;> simp [beqItems, beq_eq_true, beqItems_eq_true]

end

instance : LawfulBEq Value where
  eq_of_beq h := beq_eq_true.1 h
  rfl := beq_eq_true.2 rfl

instance : DecidableEq Value := fun _ _ => decidable_of_iff _ beq_eq_true

/-! ## Text -/

mutual

/-- The text of a value. -/
def display : Value → String
  | number n => n.text
  | text s => s
  | tuple items => "(" ++ displayItems items ++ ")"

/-- The texts of the items of a tuple with commas between them; texts stand in quotes. -/
def displayItems : List Value → String
  | [] => ""
  | [v] => displayItem v
  | v :: vs => displayItem v ++ "," ++ displayItems vs

/-- The text of an item of a tuple. -/
def displayItem : Value → String
  | number n => n.text
  | text s => Text.singleQuoted s
  | tuple items => "(" ++ displayItems items ++ ")"

end

/-! ## Numbers -/

/-- The number a value reads as. A tuple reads as its only item, and as zero when it is empty. -/
def number? : Value → Option Number
  | number n => some n
  | text s => Number.read? s.toList
  | tuple [] => some 0
  | tuple [v] => number? v
  | tuple _ => none

/-- Whether the value reads as a number. -/
def isNumeric (v : Value) : Bool := v.number?.isSome

/-- Truth of a value that reads as a number. -/
def truth? (v : Value) : Option Bool := v.number?.map (· != 0)

/-! ## Conversion -/

/-- The items of a tuple; any other value is its own only item. -/
def items : Value → List Value
  | tuple vs => vs
  | v => [v]

/-- The value as one of the given type; only the conversion to a number can fail. -/
def convert? (v : Value) : ValueType → Option Value
  | .number => v.number?.map number
  | .text => some (text v.display)
  | .tuple => some (tuple v.items)

/-- The error that a value has the wrong type. -/
def mismatch (expected : ValueType) (v : Value) : Error :=
  ⟨.typeMismatch, some ("expected " ++ expected.name ++ ", got " ++ v.type.name)⟩

/-- The number of a value, or the error that it has none. -/
def toNumber (v : Value) : Except Error Number :=
  match v.number? with
  | some n => .ok n
  | none => .error (mismatch .number v)

/-- The truth of a value, or the error that it is no number. -/
def toTruth (v : Value) : Except Error Bool := (· != 0) <$> v.toNumber

/-- The value converted to a type, or the error that it cannot be. -/
def convert (v : Value) (ty : ValueType) : Except Error Value :=
  match v.convert? ty with
  | some w => .ok w
  | none => .error (mismatch ty v)

theorem type_convert? {v w : Value} {ty : ValueType} (h : v.convert? ty = some w) :
    w.type = ty := by
  cases ty <;> simp only [convert?, Option.map_eq_some_iff, Option.some.injEq] at h
  · obtain ⟨_, _, rfl⟩ := h; rfl
  · subst h; rfl
  · subst h; rfl

/-! ## Keys -/

/-- Separates the items of a tuple in a key. -/
def keySeparator : Char := Char.ofNat 0x1f

/-- Opens a nested tuple in a key. -/
def keyOpen : Char := Char.ofNat 0x02

/-- Closes a nested tuple in a key. -/
def keyClose : Char := Char.ofNat 0x03

mutual

/-- The key of a value before it is put in upper case. -/
def rawKey : Value → List Char
  | number n => n.text.toList
  | text s => s.toList
  | tuple items => rawKeyItems items

/-- The keys of the items of a tuple with separators between them. -/
def rawKeyItems : List Value → List Char
  | [] => []
  | [v] => rawKeyItem v
  | v :: vs => rawKeyItem v ++ keySeparator :: rawKeyItems vs

/-- The key of an item of a tuple; a nested tuple is enclosed. -/
def rawKeyItem : Value → List Char
  | number n => n.text.toList
  | text s => s.toList
  | tuple items => keyOpen :: rawKeyItems items ++ [keyClose]

end

/-- The key under which a value indexes a variable: its text in upper case, and for a tuple the keys
of its items between control characters. -/
def key (v : Value) : String := String.ofList (Text.upper v.rawKey)

/-! ## Order -/

/-- The order of a number and a text: as numbers if the text spells one, else as texts. -/
def compareNumberText (n : Number) (s : String) : Ordering :=
  match Number.read? s.toList with
  | some m => Ord.compare n.toInt m.toInt
  | none => Ord.compare n.text s

/-- The order of a tuple and a number: as numbers if the tuple reads as one, else as texts. -/
def compareTupleNumber (items : List Value) (n : Number) : Ordering :=
  match (tuple items).number? with
  | some m => Ord.compare m.toInt n.toInt
  | none => Ord.compare (tuple items).display n.text

mutual

/-- The order scripts see. -/
def compare : Value → Value → Ordering
  | number a, number b => Ord.compare a.toInt b.toInt
  | text a, text b => Ord.compare a b
  | tuple as, tuple bs => compareItems as bs
  | number a, text b => compareNumberText a b
  | text a, number b => (compareNumberText b a).swap
  | tuple as, number b => compareTupleNumber as b
  | number a, tuple bs => (compareTupleNumber bs a).swap
  | tuple as, text b => Ord.compare (tuple as).display b
  | text a, tuple bs => (Ord.compare (tuple bs).display a).swap

/-- Tuples compare by their first items that differ; of two that agree as far as the shorter one
goes, that one is the smaller. -/
def compareItems : List Value → List Value → Ordering
  | [], [] => .eq
  | [], _ :: _ => .lt
  | _ :: _, [] => .gt
  | a :: as, b :: bs => (compare a b).then (compareItems as bs)

end

/-- The least or the greatest of two values, the first one when neither is. -/
def pickExtreme (least : Bool) (best v : Value) : Value :=
  let order := v.compare best
  if (if least then order == .lt else order == .gt) then v else best

/-- The least or the greatest value of a list, the first one of several. -/
def extreme (least : Bool) : List Value → Value
  | [] => number 0
  | v :: vs => vs.foldl (pickExtreme least) v

end Value

end QuestScript
