/-!
# Tables of code points

Properties of characters are written down as text: a table is a list of lines of words, and a number
in a word is hexadecimal. Three shapes occur.

* `41..5a` or `aa`: a range of code points, or one of them.
* `61..7a-20`, `100..12e/2+1`: a range, every second code point of it after `/2`, together with
  the distance to its image.
* `df=53.53`: a code point and the sequence that replaces it.
-/

namespace QuestScript.Text.Table

/-! ## Reading numbers and words -/

/-- Value of a lower-case hexadecimal digit. -/
def digit? (c : Char) : Option Nat :=
  if '0' ≤ c ∧ c ≤ '9' then some (c.toNat - '0'.toNat)
  else if 'a' ≤ c ∧ c ≤ 'f' then some (c.toNat - 'a'.toNat + 10)
  else none

/-- The hexadecimal number at the front, and what follows it. -/
def number (value : Nat) : List Char → Nat × List Char
  | [] => (value, [])
  | c :: cs =>
    match digit? c with
    | some d => number (value * 16 + d) cs
    | none => (value, c :: cs)

/-- The words of a line, in order. -/
def wordsOf (text : String) : List (List Char) :=
  let step : Char → List Char × List (List Char) → List Char × List (List Char) :=
    fun c (word, done) =>
      if c == ' ' then ([], if word.isEmpty then done else word :: done) else (c :: word, done)
  let (word, done) := text.toList.foldr step ([], [])
  if word.isEmpty then done else word :: done

/-- The words of a table, in order. -/
def words (table : List String) : List (List Char) := table.flatMap wordsOf

/-! ## Ranges -/

/-- A closed range of code points. -/
structure Range where
  first : Nat
  last : Nat
deriving DecidableEq, Repr

/-- Whether a code point lies in the range. -/
def Range.holds (r : Range) (n : Nat) : Bool := r.first ≤ n && n ≤ r.last

/-- The range at the front of a word, and what follows it. -/
def range (word : List Char) : Range × List Char :=
  match number 0 word with
  | (first, '.' :: '.' :: rest) =>
    let (last, rest) := number 0 rest
    (⟨first, last⟩, rest)
  | (first, rest) => (⟨first, first⟩, rest)

/-- A table of ranges. -/
def ranges (table : List String) : List Range := (words table).map fun w => (range w).1

/-- Whether a code point lies in one of the ranges. -/
def holds (rs : List Range) (n : Nat) : Bool := rs.any (·.holds n)

/-! ## Shifts -/

/-- Code points `first`, `first + step`, … up to `last`, each mapped to itself plus `delta`. -/
structure Shift where
  span : Range
  step : Nat
  delta : Int
deriving DecidableEq, Repr

/-- Whether a code point is moved. -/
def Shift.moves (s : Shift) (n : Nat) : Bool := s.span.holds n && (n - s.span.first) % s.step == 0

/-- The image of a code point that is moved. -/
def Shift.apply (s : Shift) (n : Nat) : Nat := (n + s.delta).toNat

/-- The code point whose image is `n`, if the shift has one. -/
def Shift.preimage? (s : Shift) (n : Nat) : Option Nat :=
  let m := (n - s.delta : Int).toNat
  if s.moves m && s.apply m == n then some m else none

/-- The shift a word describes. -/
def shift? (word : List Char) : Option Shift :=
  let (span, rest) := range word
  let (step, rest) :=
    match rest with
    | '/' :: rest => number 0 rest
    | rest => (1, rest)
  match rest with
  | '+' :: rest => some ⟨span, step, (number 0 rest).1⟩
  | '-' :: rest => some ⟨span, step, -((number 0 rest).1 : Int)⟩
  | _ => none

/-- A table of shifts. -/
def shifts (table : List String) : List Shift := (words table).filterMap shift?

/-- The image of a code point under the first shift that moves it. -/
def image? (table : List Shift) (n : Nat) : Option Nat :=
  (table.find? (·.moves n)).map (·.apply n)

/-- All code points that some shift takes to `n`. -/
def preimages (table : List Shift) (n : Nat) : List Nat := table.filterMap (·.preimage? n)

/-! ## Expansions -/

/-- The code points of a sequence such as `53.53`; the list of digits shrinks at every point. -/
def sequence (current : Nat) : List Char → List Nat
  | [] => [current]
  | c :: cs =>
    match digit? c with
    | some d => sequence (current * 16 + d) cs
    | none => current :: sequence 0 cs

/-- The expansion a word describes. -/
def expansion? (word : List Char) : Option (Nat × List Nat) :=
  match number 0 word with
  | (n, '=' :: rest) => some (n, sequence 0 rest)
  | _ => none

/-- A table of expansions. -/
def expansions (table : List String) : List (Nat × List Nat) :=
  (words table).filterMap expansion?

end QuestScript.Text.Table
