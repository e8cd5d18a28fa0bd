import QuestScript.Text.Blank

/-!
# Numbers in text

Scripts count in signed 64-bit integers. A text reads as a number when it is an optional sign and
decimal digits, with blanks around them, and the number fits; the empty text reads as zero. Digits
that do not fit are no number at all.

The digits are taken in one after the other, below zero, and each step is checked: there is one more
negative number than there are positive ones, so the least number can be read too.
-/

namespace QuestScript

/-- The number scripts compute with. -/
abbrev Number := Int64

namespace Number

/-- Whether an integer fits. -/
def fits (n : Int) : Bool := -9223372036854775808 ≤ n && n ≤ 9223372036854775807

/-- The number equal to an integer, if it fits. -/
def ofInt? (n : Int) : Option Number := if fits n then some (Int64.ofInt n) else none

/-- Whether a character is a decimal digit. -/
def isDigit (c : Char) : Bool := '0' ≤ c && c ≤ '9'

/-- Value of a run of digits. -/
def digitsValue (ds : List Char) : Nat := ds.foldl (fun n d => n * 10 + (d.toNat - '0'.toNat)) 0

/-- The natural number a text of one or more digits spells. -/
def readDigits? (cs : List Char) : Option Nat :=
  if !cs.isEmpty && cs.all isDigit then some (digitsValue cs) else none

/-! ## Reading -/

/-- A number below zero with one more digit behind it, which takes it further down. -/
def appendDigit? (n : Number) (d : Char) : Option Number := do
  let tenfold ← ofInt? (n.toInt * 10)
  ofInt? (tenfold.toInt - (d.toNat - '0'.toNat : Nat))

/-- The number on the other side of zero. -/
def negated? (n : Number) : Option Number := ofInt? (-n.toInt)

/-- The number that one or more digits spell behind a minus sign. -/
def readNegative? (ds : List Char) : Option Number :=
  if !ds.isEmpty && ds.all isDigit then ds.foldlM appendDigit? 0 else none

/-- The number that digits spell, with a sign or none in front of them. -/
def readSigned? : List Char → Option Number
  | '-' :: ds => readNegative? ds
  | '+' :: ds => (readNegative? ds).bind negated?
  | ds => (readNegative? ds).bind negated?

/-- The number a text spells. Blanks around it are ignored and the empty text is zero. -/
def read? (cs : List Char) : Option Number :=
  match Text.trim cs with
  | [] => some 0
  | cs => readSigned? cs

/-! ## Text and positions -/

/-- Decimal digits of a number, after a minus sign if it is negative. -/
def text (n : Number) : String := toString n.toInt

/-- The position a number stands for, if it is not negative. -/
def position? (n : Number) : Option Nat := if 0 ≤ n then some n.toInt.toNat else none

/-- The number as a count; a negative one counts as zero. -/
def count (n : Number) : Nat := n.toInt.toNat

/-- The number for a count. -/
def ofCount (n : Nat) : Number := Int64.ofNat n

/-- One for true, zero for false. -/
def ofBool (b : Bool) : Number := if b then 1 else 0

end Number

end QuestScript
