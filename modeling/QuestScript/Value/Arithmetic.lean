import QuestScript.Value

/-!
# Arithmetic

Numbers wrap around at 64 bits and division goes toward zero. A tuple spreads an operation over its
items, the left operand first. A sum of texts, or of a text that spells no number and anything else,
is their concatenation.
-/

namespace QuestScript

/-- The four operations that spread over tuples. -/
inductive Arithmetic where
  | add
  | sub
  | mul
  | div
deriving DecidableEq, Repr

namespace Arithmetic

open Value (number text tuple)

/-- The sum of two values that are no tuples. -/
def sum : Value → Value → Value
  | number a, number b => number (a + b)
  | text a, text b => text (a ++ b)
  | number a, text b =>
    match Number.read? b.toList with
    | some n => number (a + n)
    | none => text (a.text ++ b)
  | text a, number b =>
    match Number.read? a.toList with
    | some n => number (n + b)
    | none => text (a ++ b.text)
  | a, b => text (a.display ++ b.display)

/-- The operation on two values that are no tuples. -/
def scalar (op : Arithmetic) (a b : Value) : Except Error Value :=
  match op with
  | add => .ok (sum a b)
  | sub => do return number ((← a.toNumber) - (← b.toNumber))
  | mul => do return number ((← a.toNumber) * (← b.toNumber))
  | div => do
    let x ← a.toNumber
    let y ← b.toNumber
    if y == 0 then .error ⟨.divisionByZero, none⟩ else return number (x / y)

mutual

/-- The operation with a left operand that is no tuple. -/
def applyRight (op : Arithmetic) (a : Value) : Value → Except Error Value
  | tuple bs => tuple <$> applyRightItems op a bs
  | b => scalar op a b

/-- The operation with each of several right operands. -/
def applyRightItems (op : Arithmetic) (a : Value) : List Value → Except Error (List Value)
  | [] => .ok []
  | b :: bs => do return (← applyRight op a b) :: (← applyRightItems op a bs)

end

mutual

/-- The operation on two values; it spreads over the items of a tuple. -/
def apply (op : Arithmetic) : Value → Value → Except Error Value
  | tuple as, b => tuple <$> applyItems op as b
  | a, b => applyRight op a b

/-- The operation with each of several left operands. -/
def applyItems (op : Arithmetic) : List Value → Value → Except Error (List Value)
  | [], _ => .ok []
  | a :: as, b => do return (← apply op a b) :: (← applyItems op as b)

end

end Arithmetic

namespace Value

/-- The remainder of a division toward zero; it has the sign of the dividend. -/
def remainder (a b : Number) : Except Error Number :=
  if b == 0 then .error ⟨.divisionByZero, none⟩ else .ok (a % b)

/-- Tuples merge, a tuple takes in any other value as an item, and other values concatenate. -/
def append : Value → Value → Value
  | tuple as, tuple bs => tuple (as ++ bs)
  | tuple as, b => tuple (as ++ [b])
  | a, tuple bs => tuple (a :: bs)
  | a, b => text (a.display ++ b.display)

end Value

end QuestScript
