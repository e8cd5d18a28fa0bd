/-!
# Blanks

Inside a line only the space and the tab separate words; trimming a name, an argument or a header
means removing these two characters at both ends. The wider notion of white space is the one of
Unicode; it is used where text typed by a person or printed on a screen is cut.
-/

namespace QuestScript.Text

/-! ## Space and tab -/

/-- The two characters that separate words inside a line. -/
def isBlank (c : Char) : Bool := c == ' ' || c == '\t'

/-- Number of characters in the longest run of blanks at the front. -/
def leadingBlanks (cs : List Char) : Nat := (cs.takeWhile isBlank).length

/-- The text from its first character that is not a blank. -/
def dropBlanks (cs : List Char) : List Char := cs.dropWhile isBlank

/-- The text without the characters at its end that satisfy `p`. -/
def dropTrailing (p : Char → Bool) (cs : List Char) : List Char :=
  (cs.reverse.dropWhile p).reverse

/-- The text without the blanks at its two ends. -/
def trim (cs : List Char) : List Char := dropTrailing isBlank (dropBlanks cs)

/-- Whether the text holds anything besides blanks. -/
def hasText (cs : List Char) : Bool := cs.any fun c => !isBlank c

theorem trim_nil : trim [] = [] := rfl

/-- Skipping the blanks is dropping as many characters as there are leading blanks. -/
theorem drop_leadingBlanks (cs : List Char) : cs.drop (leadingBlanks cs) = dropBlanks cs := by
  induction cs with
  | nil => rfl
  | cons c cs ih =>
    by_cases h : isBlank c = true
    · simpa [leadingBlanks, dropBlanks, h] using ih
    · simp [leadingBlanks, dropBlanks, h]

theorem dropBlanks_length_le (cs : List Char) : (dropBlanks cs).length ≤ cs.length :=
  (List.dropWhile_suffix _).length_le

/-! ## White space -/

/-- White space in the sense of Unicode. -/
def isWhite (c : Char) : Bool :=
  let n := c.toNat
  (9 ≤ n && n ≤ 13) || n == 0x20 || n == 0x85 || n == 0xa0 || n == 0x1680 ||
    (0x2000 ≤ n && n ≤ 0x200a) || n == 0x2028 || n == 0x2029 || n == 0x202f || n == 0x205f ||
    n == 0x3000

/-- The text without the white space at its end. -/
def trimWhiteRight (cs : List Char) : List Char := dropTrailing isWhite cs

/-- The text without the white space at its two ends. -/
def trimWhite (cs : List Char) : List Char := trimWhiteRight (cs.dropWhile isWhite)

/-- A text with spaces on its left up to a width. -/
def padLeft (width : Nat) (s : String) : String :=
  String.ofList (List.replicate (width - s.length) ' ') ++ s

end QuestScript.Text
