import QuestScript.Text.Literal
import QuestScript.Text.Blank
import QuestScript.Text.Case

/-!
# Source text

Source text becomes logical lines in three steps. It is split at line breaks outside literals and
blocks; carriage returns vanish, and blanks at the ends of a line do. A line that ends in a blank
and an underscore goes on with the next one. Finally everything outside literals and blocks is put in
upper case.
-/

namespace QuestScript.Source

open Text (isQuote trim upperChar)

/-! ## Where a character stands -/

/-- The part of a text a character belongs to. -/
inductive Part where
  /-- Outside literals. -/
  | plain
  /-- Inside a literal that opened with the quote. -/
  | literal (quote : Char)
  /-- The second of two quotes that stand for one. -/
  | paired (quote : Char)
deriving DecidableEq, Repr

/-- The part of a text and the number of open blocks. -/
structure Place where
  part : Part := .plain
  blocks : Nat := 0
deriving DecidableEq, Repr

namespace Place

/-- Whether a character here is outside literals and blocks. -/
def isTop (p : Place) : Bool := p.part = .plain && p.blocks == 0

/-- The place of the character after `c`, which is `next` if there is one. -/
def after (p : Place) (c : Char) (next : Option Char) : Place :=
  match p.part with
  | .plain =>
    if c == '{' then { p with blocks := p.blocks + 1 }
    else if c == '}' then { p with blocks := p.blocks - 1 }
    else if isQuote c then { p with part := .literal c }
    else p
  | .literal q =>
    if c != q then p
    else if next == some q then { p with part := .paired q }
    else { p with part := .plain }
  | .paired q => { p with part := .literal q }

end Place

/-! ## Physical lines -/

/-- The lines of a text without carriage returns, read from a given place. `line` is the current line
number, `first` the number and `current` the text, last character first, of the line that is being
read. -/
def splitFrom (place : Place) (line first : Nat) (current : List Char) :
    List Char → List (List Char × Nat)
  | [] => [(trim current.reverse, first)]
  | c :: cs =>
    if c == '\n' && place.isTop then
      (trim current.reverse, first) :: splitFrom place (line + 1) (line + 1) [] cs
    else
      splitFrom (place.after c cs.head?) (if c == '\n' then line + 1 else line) first (c :: current) cs

/-- The physical lines of a text with their numbers, counted from one. Breaks inside literals and
blocks stay in the line. -/
def physicalLines (cs : List Char) : List (List Char × Nat) :=
  splitFrom {} 1 1 [] (cs.filter (· != '\r'))

/-! ## Continuations -/

/-- Whether a line goes on with the next one. -/
def continues (cs : List Char) : Bool := [' ', '_'].isSuffixOf cs

/-- Join the lines after `(text, number)` to it as long as it continues. A joined line keeps its
first number, and the underscore goes. -/
def joinFrom (text : List Char) (number : Nat) :
    List (List Char × Nat) → List (List Char × Nat)
  | [] => [(text, number)]
  | (next, n) :: rest =>
    if continues text then joinFrom (text.dropLast ++ next) number rest
    else (text, number) :: joinFrom next n rest

/-- Join the lines that continue. -/
def joinContinuations : List (List Char × Nat) → List (List Char × Nat)
  | [] => []
  | (text, number) :: rest => joinFrom text number rest

/-! ## Upper case -/

/-- Put in upper case what stands outside literals and blocks, reading from a given place. -/
def prepareFrom (place : Place) : List Char → List Char
  | [] => []
  | c :: cs =>
    (if place.isTop then upperChar c else [c]) ++ prepareFrom (place.after c cs.head?) cs

/-- A line in upper case, literals and blocks as they are. -/
def prepare (cs : List Char) : List Char := prepareFrom {} cs

/-- The logical lines of a text, in upper case, with the numbers of the physical lines they start
on. -/
def logicalLines (cs : List Char) : List (List Char × Nat) :=
  (joinContinuations (physicalLines cs)).map fun (text, number) => (prepare text, number)

end QuestScript.Source
