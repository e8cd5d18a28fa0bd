import QuestScript.Pattern.Property

/-!
# The meaning of a pattern

With its flags taken into account, a pattern is built from sets of characters and from conditions
on the place of a match by sequence, choice, repetition and capture. Where the flags forbid a part,
the pattern is refused.
-/

namespace QuestScript.Pattern

/-! ## Nodes -/

/-- What a word boundary asks of the two sides. -/
inductive Boundary where
  | either
  | neither
  | start
  | stop
  | startHalf
  | stopHalf
deriving DecidableEq, Repr

/-- A condition on a place in the text. -/
inductive Look where
  | textStart
  | textEnd
  | lineStart
  | lineEnd
  /-- Starts and ends of lines that may end in a carriage return and a line feed. -/
  | crlfStart
  | crlfEnd
  | word (b : Boundary) (unicode : Bool)
deriving DecidableEq, Repr

/-- A pattern with its flags resolved. -/
inductive Node where
  | empty
  | set (s : CharSet)
  | look (l : Look)
  | loop (least : Nat) (most : Option Nat) (greedy : Bool) (body : Node)
  | capture (index : Nat) (body : Node)
  | seq (first second : Node)
  | either (first second : Node)
deriving DecidableEq, Repr

namespace Node

/-- Whether a match may be empty. -/
def isNullable : Node → Bool
  | empty | look _ => true
  | set _ => false
  | loop least _ _ body => least == 0 || body.isNullable
  | capture _ body => body.isNullable
  | seq a b => a.isNullable && b.isNullable
  | either a b => a.isNullable || b.isNullable

/-- Whether every match is empty. -/
def isEmpty : Node → Bool
  | empty | look _ => true
  | set _ => false
  | loop _ most _ body => most == some 0 || body.isEmpty
  | capture _ body => body.isEmpty
  | seq a b => a.isEmpty && b.isEmpty
  | either a b => a.isEmpty && b.isEmpty

/-- A repetition. Of a part whose matches are all empty, one is as good as many; none is the empty
pattern, and exactly one the part itself. -/
def repeated (least : Nat) (most : Option Nat) (greedy : Bool) (body : Node) : Node :=
  let (least, most) :=
    if body.isEmpty then (min least 1, some (min (most.getD 1) 1)) else (least, most)
  if most == some 0 then empty
  else if least == 1 && most == some 1 then body
  else loop least most greedy body

end Node

/-! ## Flags -/

/-- The flags in force at a place of the pattern. -/
structure Flags where
  ignoreCase : Bool := false
  multiLine : Bool := false
  dotAll : Bool := false
  swapGreed : Bool := false
  unicode : Bool := true
  crlf : Bool := false
deriving DecidableEq, Repr

/-- The flags after a change. -/
def Flags.update (f : Flags) (change : FlagChange) : Flags :=
  { ignoreCase := (change.state? .ignoreCase).getD f.ignoreCase
    multiLine := (change.state? .multiLine).getD f.multiLine
    dotAll := (change.state? .dotAll).getD f.dotAll
    swapGreed := (change.state? .swapGreed).getD f.swapGreed
    unicode := (change.state? .unicode).getD f.unicode
    crlf := (change.state? .crlf).getD f.crlf }

namespace Flags

/-- A set with the other case of its members, if case is ignored. -/
def fold (f : Flags) (s : CharSet) : CharSet :=
  if !f.ignoreCase then s
  else if f.unicode then .folded s
  else .inter .ascii (.folded s)

/-- The complement of a set, if asked for. Outside of Unicode it would hold bytes that are no
character. -/
def negate (f : Flags) (negated : Bool) (s : CharSet) : Except PatternError CharSet :=
  if negated && !f.unicode then .error .notText else .ok (s.complIf negated)

/-- A character that stands for itself. -/
def literal (f : Flags) (l : Literal) : Except PatternError CharSet :=
  if f.unicode then .ok (f.fold (.single l.char))
  else if l.isByte && 127 < l.char.toNat then .error .notText
  else if l.char.toNat < 128 then .ok (f.fold (.single l.char))
  else .ok (.single l.char)

/-- A character as a part of a class. -/
def classLiteral (f : Flags) (l : Literal) : Except PatternError Char :=
  if f.unicode || l.char.toNat < 128 then .ok l.char
  else if l.isByte then .error .notText
  else .error .notUnicode

/-- A class with a letter of its own. -/
def short (f : Flags) (k : ShortClass) (negated : Bool) : Except PatternError CharSet :=
  let set : CharSet :=
    match k, f.unicode with
    | .digit, true => .property (.category ⟨'N', 'd'⟩)
    | .space, true => .property .whiteSpace
    | .word, true => .property .word
    | .digit, false => .asciiDigit
    | .space, false => .asciiSpace
    | .word, false => .asciiWord
  f.negate negated set

/-- A class asked for by a property. -/
def property (f : Flags) (q : PropertyQuery) (negated : Bool) : Except PatternError CharSet := do
  if !f.unicode then throw .notUnicode
  f.negate negated (f.fold (← q.resolve))

/-- The members of a named class. -/
def asciiSet : AsciiClass → CharSet
  | .alnum => .union .asciiDigit .asciiLetter
  | .alpha => .asciiLetter
  | .ascii => .ascii
  | .blank => .union (.single '\t') (.single ' ')
  | .cntrl => .union (.range (Char.ofNat 0) (Char.ofNat 31)) (.single (Char.ofNat 127))
  | .digit => .asciiDigit
  | .graph => .range '!' '~'
  | .lower => .asciiLower
  | .print => .range ' ' '~'
  | .punct => .unions [.range '!' '/', .range ':' '@', .range '[' (Char.ofNat 96), .range '{' '~']
  | .space => .asciiSpace
  | .upper => .asciiUpper
  | .word => .asciiWord
  | .xdigit => .unions [.asciiDigit, .range 'A' 'F', .range 'a' 'f']

/-- Any character, without line ends unless asked for. -/
def dot (f : Flags) : Except PatternError CharSet :=
  if !f.unicode then .error .notText
  else if f.dotAll then .ok (.property .any)
  else if f.crlf then .ok (.compl (.union (.single '\r') (.single '\n')))
  else .ok (.compl (.single '\n'))

/-- The condition of an assertion. -/
def look (f : Flags) : Assertion → Look
  | .lineStart => if !f.multiLine then .textStart else if f.crlf then .crlfStart else .lineStart
  | .lineEnd => if !f.multiLine then .textEnd else if f.crlf then .crlfEnd else .lineEnd
  | .textStart => .textStart
  | .textEnd => .textEnd
  | .boundary => .word .either f.unicode
  | .noBoundary => .word .neither f.unicode
  | .wordStart => .word .start f.unicode
  | .wordEnd => .word .stop f.unicode
  | .wordStartHalf => .word .startHalf f.unicode
  | .wordEndHalf => .word .stopHalf f.unicode

/-- The meaning of a primitive. -/
def primitive (f : Flags) : Primitive → Except PatternError Node
  | .literal l => .set <$> f.literal l
  | .dot => .set <$> f.dot
  | .assertion a => .ok (.look (f.look a))
  | .short k negated => .set <$> f.short k negated
  | .property q negated => .set <$> f.property q negated

end Flags

/-! ## Meaning -/

mutual

/-- The members of a class. -/
def ClassTree.meaning (f : Flags) : ClassTree → Except PatternError CharSet
  | .literal l => .single <$> f.classLiteral l
  | .range a b => do
    let a ← f.classLiteral a
    let b ← f.classLiteral b
    return .range a b
  | .ascii k negated => f.negate negated (f.fold (Flags.asciiSet k))
  | .short k negated => f.short k negated
  | .property q negated => f.property q negated
  | .bracketed negated inner => do f.negate negated (f.fold (← inner.meaning f))
  | .union items => do return CharSet.unions (← meanings f items)
  | .binary op left right => do
    let a := f.fold (← left.meaning f)
    let b := f.fold (← right.meaning f)
    match op with
    | .inter => return .inter a b
    | .diff => return .diff a b
    | .symmDiff => return .symmDiff a b

/-- The members of each class of a list. -/
def ClassTree.meanings (f : Flags) : List ClassTree → Except PatternError (List CharSet)
  | [] => .ok []
  | item :: items => do
    let s ← item.meaning f
    let ss ← meanings f items
    return s :: ss

end

mutual

/-- The meaning of a tree where the flags `f` are in force, and the flags in force after it. -/
def Tree.meaning (f : Flags) : Tree → Except PatternError (Node × Flags)
  | .empty => .ok (.empty, f)
  | .flags change => .ok (.empty, f.update change)
  | .primitive p => do return (← f.primitive p, f)
  | .bracketed negated inner => do
    return (.set (← f.negate negated (f.fold (← inner.meaning f))), f)
  | .repetition least most greedy body => do
    let (node, f) ← body.meaning f
    return (.repeated least most (greedy != f.swapGreed) node, f)
  | .group (.capture index) body => do
    let (node, _) ← body.meaning f
    return (.capture index node, f)
  | .group (.flags change) body => do
    let (node, _) ← body.meaning (f.update change)
    return (node, f)
  | .concat items => Tree.sequence f items
  | .alternation branches => Tree.choice f branches

/-- The meaning of a sequence. -/
def Tree.sequence (f : Flags) : List Tree → Except PatternError (Node × Flags)
  | [] => .ok (.empty, f)
  | t :: ts => do
    let (first, f) ← t.meaning f
    let (rest, f) ← Tree.sequence f ts
    return (.seq first rest, f)

/-- The meaning of a choice. -/
def Tree.choice (f : Flags) : List Tree → Except PatternError (Node × Flags)
  | [] => .ok (.empty, f)
  | [t] => t.meaning f
  | t :: ts => do
    let (first, f) ← t.meaning f
    let (rest, f) ← Tree.choice f ts
    return (.either first rest, f)

end

end QuestScript.Pattern
