import QuestScript.Pattern.Error

/-!
# The form of a pattern

The tree of a pattern as it is written, before its flags are taken into account: the same letter
means one character or several, depending on the flags in force where it stands.
-/

namespace QuestScript.Pattern

/-! ## Single characters -/

/-- A character that stands for itself; `isByte` if it is spelled as a byte of two digits. -/
structure Literal where
  char : Char
  isByte : Bool := false
deriving DecidableEq, Repr

/-- Where a match may stand, without consuming anything. -/
inductive Assertion where
  | lineStart
  | lineEnd
  | textStart
  | textEnd
  | boundary
  | noBoundary
  | wordStart
  | wordEnd
  | wordStartHalf
  | wordEndHalf
deriving DecidableEq, Repr

/-- The classes that have a letter of their own. -/
inductive ShortClass where
  | digit
  | space
  | word
deriving DecidableEq, Repr

/-- A class asked for by the name of a property, or by a property and its value. -/
inductive PropertyQuery where
  | named (name : String)
  | valued (name value : String) (differs : Bool)
deriving DecidableEq, Repr

/-- The smallest parts of a pattern. -/
inductive Primitive where
  | literal (l : Literal)
  | dot
  | assertion (a : Assertion)
  | short (k : ShortClass) (negated : Bool)
  | property (q : PropertyQuery) (negated : Bool)
deriving DecidableEq, Repr

/-! ## Classes in brackets -/

/-- The named classes inside brackets. -/
inductive AsciiClass where
  | alnum
  | alpha
  | ascii
  | blank
  | cntrl
  | digit
  | graph
  | lower
  | print
  | punct
  | space
  | upper
  | word
  | xdigit
deriving DecidableEq, Repr

namespace AsciiClass

/-- The name as written. -/
def name : AsciiClass → String
  | alnum => "alnum"
  | alpha => "alpha"
  | ascii => "ascii"
  | blank => "blank"
  | cntrl => "cntrl"
  | digit => "digit"
  | graph => "graph"
  | lower => "lower"
  | print => "print"
  | punct => "punct"
  | space => "space"
  | upper => "upper"
  | word => "word"
  | xdigit => "xdigit"

/-- The class with a name. -/
def ofName? (s : String) : Option AsciiClass :=
  [alnum, alpha, ascii, blank, cntrl, digit, graph, lower, print, punct, space, upper, word,
    xdigit].find? (·.name == s)

end AsciiClass

/-- Operators between the parts of a class. -/
inductive SetOp where
  | inter
  | diff
  | symmDiff
deriving DecidableEq, Repr

/-- A class in brackets. -/
inductive ClassTree where
  | literal (l : Literal)
  | range (first last : Literal)
  | ascii (k : AsciiClass) (negated : Bool)
  | short (k : ShortClass) (negated : Bool)
  | property (q : PropertyQuery) (negated : Bool)
  | bracketed (negated : Bool) (inner : ClassTree)
  | union (items : List ClassTree)
  | binary (op : SetOp) (left right : ClassTree)
deriving Repr

namespace ClassTree

/-- The union of items; a single item stands for itself. -/
def ofItems : List ClassTree → ClassTree
  | [item] => item
  | items => union items

mutual

/-- How deep brackets and operators stand inside one another. -/
def depth : ClassTree → Nat
  | bracketed _ inner => inner.depth + 1
  | union [] => 0
  | union items => depths items + 1
  | binary _ left right => max left.depth right.depth + 1
  | _ => 0

/-- The greatest depth of a list. -/
def depths : List ClassTree → Nat
  | [] => 0
  | item :: items => max item.depth (depths items)

end

end ClassTree

/-! ## Flags -/

/-- The flags of a pattern. -/
inductive Flag where
  | ignoreCase
  | multiLine
  | dotAll
  | swapGreed
  | unicode
  | crlf
  | freeSpacing
deriving DecidableEq, Repr

/-- The flag a letter stands for. -/
def Flag.ofChar? : Char → Option Flag
  | 'i' => some ignoreCase
  | 'm' => some multiLine
  | 's' => some dotAll
  | 'U' => some swapGreed
  | 'u' => some unicode
  | 'R' => some crlf
  | 'x' => some freeSpacing
  | _ => none

/-- Flags to be set and, after a minus, flags to be cleared. -/
structure FlagChange where
  on : List Flag := []
  off : List Flag := []
deriving DecidableEq, Repr

/-- What a change does to a flag, if anything. -/
def FlagChange.state? (ch : FlagChange) (f : Flag) : Option Bool :=
  if ch.on.contains f then some true else if ch.off.contains f then some false else none

/-! ## The tree -/

/-- What a pair of parentheses does. -/
inductive GroupKind where
  | capture (index : Nat)
  | flags (change : FlagChange)
deriving DecidableEq, Repr

/-- A pattern as written. -/
inductive Tree where
  | empty
  | flags (change : FlagChange)
  | primitive (p : Primitive)
  | bracketed (negated : Bool) (inner : ClassTree)
  | repetition (least : Nat) (most : Option Nat) (greedy : Bool) (body : Tree)
  | group (kind : GroupKind) (body : Tree)
  | concat (items : List Tree)
  | alternation (branches : List Tree)
deriving Repr

namespace Tree

/-- A sequence; a single part stands for itself. -/
def ofItems : List Tree → Tree
  | [] => empty
  | [t] => t
  | ts => concat ts

/-- A choice; a single branch stands for itself. -/
def ofBranches : List Tree → Tree
  | [t] => t
  | ts => alternation ts

mutual

/-- How deep the parts stand inside one another. -/
def depth : Tree → Nat
  | bracketed _ inner => inner.depth + 1
  | repetition _ _ _ body => body.depth + 1
  | group _ body => body.depth + 1
  | concat items => depths items + 1
  | alternation branches => depths branches + 1
  | _ => 0

/-- The greatest depth of a list. -/
def depths : List Tree → Nat
  | [] => 0
  | t :: ts => max t.depth (depths ts)

end

end Tree

end QuestScript.Pattern
