import QuestScript.Text.Blank
import QuestScript.Text.Case
import QuestScript.Text.Property

/-!
# Sets of characters

A pattern consumes its text one character at a time, each time asking whether the character belongs
to a set. Sets are built from ranges and properties with the usual operations; `folded` adds the
characters that differ from a member in case only.
-/

namespace QuestScript

/-- A property by which characters are put into a set. -/
inductive CharProperty where
  | any
  | assigned
  | category (k : Text.Category)
  /-- All categories with this first letter. -/
  | mainCategory (main : Char)
  /-- Letters in upper, lower or title case. -/
  | casedLetter
  | alphabetic
  | uppercase
  | lowercase
  | whiteSpace
  | word
  | script (s : Text.Script)
deriving DecidableEq, Repr

/-- Whether a character has a property. -/
def CharProperty.holds (p : CharProperty) (c : Char) : Bool :=
  match p with
  | any => true
  | assigned => Text.category c != ⟨'C', 'n'⟩
  | category k => Text.category c == k
  | mainCategory main => (Text.category c).main == main
  | casedLetter =>
    let k := Text.category c
    k.main == 'L' && (k.sub == 'u' || k.sub == 'l' || k.sub == 't')
  | alphabetic => Text.isAlphabetic c
  | uppercase => Text.isUppercase c
  | lowercase => Text.isLowercase c
  | whiteSpace => Text.isWhite c
  | word => Text.isWord c
  | script s => s.holds c

/-- A set of characters. -/
inductive CharSet where
  | empty
  | range (first last : Char)
  | property (p : CharProperty)
  | union (a b : CharSet)
  | inter (a b : CharSet)
  | compl (a : CharSet)
  | folded (a : CharSet)
deriving DecidableEq, Repr

namespace CharSet

/-- Whether a character belongs to a set. -/
def holds (c : Char) : CharSet → Bool
  | empty => false
  | range first last => first ≤ c && c ≤ last
  | property p => p.holds c
  | union a b => a.holds c || b.holds c
  | inter a b => a.holds c && b.holds c
  | compl a => !a.holds c
  | folded a => (Text.caseVariants c).any fun d => a.holds d

/-- The set of one character. -/
def single (c : Char) : CharSet := range c c

/-- The union of a list of sets. -/
def unions (sets : List CharSet) : CharSet := sets.foldl union empty

/-- The members of `a` that are not in `b`. -/
def diff (a b : CharSet) : CharSet := inter a (compl b)

/-- The members of exactly one of the two sets. -/
def symmDiff (a b : CharSet) : CharSet := union (diff a b) (diff b a)

/-- The complement if asked for. -/
def complIf (negated : Bool) (a : CharSet) : CharSet := if negated then compl a else a

/-- All characters of ASCII. -/
def ascii : CharSet := range (Char.ofNat 0) (Char.ofNat 127)

/-- Whether every member lies in ASCII, as far as the form of the set shows. -/
def isAscii : CharSet → Bool
  | empty => true
  | range _ last => last.toNat < 128
  | property _ => false
  | union a b => a.isAscii && b.isAscii
  | inter a b => a.isAscii || b.isAscii
  | compl _ => false
  | folded a => a.isAscii

/-- The decimal digits, letters and white space of ASCII, and the letters with the underscore. -/
def asciiDigit : CharSet := range '0' '9'

def asciiUpper : CharSet := range 'A' 'Z'

def asciiLower : CharSet := range 'a' 'z'

def asciiLetter : CharSet := union asciiUpper asciiLower

def asciiSpace : CharSet := union (range '\t' '\r') (single ' ')

def asciiWord : CharSet := unions [asciiDigit, asciiLetter, single '_']

end CharSet

end QuestScript
