import QuestScript.Pattern.Tree
import QuestScript.Text.Blank
import QuestScript.Text.Property
import QuestScript.Value.Number

/-!
# Reading a pattern

The text of a pattern is read from left to right. Groups and alternatives that are still open wait
on a stack, so that nesting needs no recursion; the same holds of classes in brackets.

With free spacing in force, white space and comments between the parts are skipped. The flag is
known to the reader because it decides what a part is; all others are left in the tree.
-/

namespace QuestScript.Pattern

/-! ## Free spacing -/

/-- The text after white space and comments. -/
def skipSpacing (inComment : Bool) : List Char → List Char
  | [] => []
  | c :: cs =>
    if inComment then skipSpacing (c != '\n') cs
    else if Text.isWhite c then skipSpacing false cs
    else if c == '#' then skipSpacing true cs
    else c :: cs

/-- With free spacing, the text after white space and comments; otherwise the text as it is. -/
def skip (free : Bool) (cs : List Char) : List Char := if free then skipSpacing false cs else cs

theorem length_skipSpacing_le (b : Bool) (cs : List Char) :
    (skipSpacing b cs).length ≤ cs.length := by
  induction cs generalizing b with
  | nil => simp [skipSpacing]
  | cons c cs ih =>
    have := ih (c != '\n')
    have := ih false
    have := ih true
    unfold skipSpacing
    simp only [List.length_cons]
    split
    · omega
    · split
      · omega
      · split
        · omega
        · simp only [List.length_cons, Nat.le_refl]

theorem length_skip_le (free : Bool) (cs : List Char) : (skip free cs).length ≤ cs.length := by
  unfold skip
  split
  · exact length_skipSpacing_le _ _
  · exact Nat.le_refl _

theorem length_skip_lt_cons (free : Bool) (c : Char) (cs : List Char) :
    (skip free cs).length < (c :: cs).length := by
  have := length_skip_le free cs
  simp only [List.length_cons]
  omega

/-- The next character that is neither white space nor the start of a comment, for a look past a
hyphen; without one, the very next character. -/
def peekSpacing (cs : List Char) : Option Char :=
  match cs.dropWhile Text.isWhite with
  | '#' :: rest => (rest.find? (!Text.isWhite ·)).or cs.head?
  | c :: _ => some c
  | [] => cs.head?

/-- The character after the current one. -/
def peek (free : Bool) (cs : List Char) : Option Char := if free then peekSpacing cs else cs.head?

/-! ## Numbers -/

/-- Digits, between which free spacing allows blanks and comments. -/
def takeDigits (free : Bool) (cs : List Char) : List Char × List Char :=
  match cs with
  | [] => ([], [])
  | c :: cs =>
    if Number.isDigit c then
      let (ds, rest) := takeDigits free (skip free cs)
      (c :: ds, rest)
    else ([], c :: cs)
termination_by cs.length
decreasing_by exact length_skip_lt_cons ..

/-- The greatest count of a repetition. -/
def maxCount : Nat := 4294967295

/-- A count of a repetition. The count may be bad and the text after it matter all the same. -/
def readCount (free : Bool) (cs : List Char) : Except PatternError Nat × List Char :=
  let (ds, rest) := takeDigits free (cs.dropWhile Text.isWhite)
  let count :=
    if ds.isEmpty then .error .missingDecimal
    else if maxCount < Number.digitsValue ds then .error .badDecimal
    else .ok (Number.digitsValue ds)
  (count, rest.dropWhile Text.isWhite)

/-- Value of a hexadecimal digit. -/
def hexDigit? (c : Char) : Option Nat :=
  if '0' ≤ c && c ≤ '9' then some (c.toNat - '0'.toNat)
  else if 'a' ≤ c && c ≤ 'f' then some (c.toNat - 'a'.toNat + 10)
  else if 'A' ≤ c && c ≤ 'F' then some (c.toNat - 'A'.toNat + 10)
  else none

/-- Exactly `n` hexadecimal digits, after those that give `value`. -/
def readHex (free : Bool) : Nat → Nat → List Char → Except PatternError (Nat × List Char)
  | 0, value, cs => .ok (value, cs)
  | _ + 1, _, [] => .error .endInEscape
  | n + 1, value, c :: cs =>
    match hexDigit? c with
    | some d => readHex free n (value * 16 + d) (skip free cs)
    | none => .error .badHexDigit

/-- Text up to a closing brace, which is dropped, and free spacing with it. -/
def takeBraced (free : Bool) (cs : List Char) : Option (List Char × List Char) :=
  match cs with
  | [] => none
  | c :: cs =>
    if c == '}' then some ([], cs)
    else (takeBraced free (skip free cs)).map fun (body, rest) => (c :: body, rest)
termination_by cs.length
decreasing_by exact length_skip_lt_cons ..

/-- The character with a code. -/
def scalar? (n : Nat) : Option Char := if n.isValidChar then some (Char.ofNat n) else none

/-- Hexadecimal digits up to a closing brace, after those that give `value`, if there are any. -/
def readBracedHex (free : Bool) (value : Option Nat) (cs : List Char) :
    Except PatternError (Nat × List Char) :=
  match cs with
  | [] => .error .endInEscape
  | c :: cs =>
    if c == '}' then
      match value with
      | some n => .ok (n, skip free cs)
      | none => .error .emptyHex
    else
      match hexDigit? c with
      | some d => readBracedHex free (some (value.getD 0 * 16 + d)) (skip free cs)
      | none => .error .badHexDigit
termination_by cs.length
decreasing_by exact length_skip_lt_cons ..

/-- The character that a code in hexadecimal digits stands for, after the letter that announces it:
between braces, or with a fixed number of digits. -/
def readCode (free : Bool) (digits : Nat) (cs : List Char) :
    Except PatternError (Literal × List Char) :=
  match skip free cs with
  | [] => .error .endInEscape
  | '{' :: rest => do
    let (n, rest) ← readBracedHex free none (skip free rest)
    match scalar? n with
    | some c => .ok ({ char := c }, rest)
    | none => .error .badScalar
  | rest => do
    let (n, rest) ← readHex free digits 0 rest
    match scalar? n with
    | some c => .ok ({ char := c, isByte := digits == 2 }, rest)
    | none => .error .badScalar

/-! ## Escapes -/

/-- A property asked for between braces: a name, or a name and a value. -/
def splitQuery (name : List Char) : PropertyQuery :=
  let cut (mark : List Char) : Option (String × String) :=
    ((List.range name.length).find? fun i => mark.isPrefixOf (name.drop i)).map fun i =>
      (String.ofList (name.take i), String.ofList (name.drop (i + mark.length)))
  match cut ['!', '='] with
  | some (n, v) => .valued n v true
  | none =>
    match cut [':'] with
    | some (n, v) => .valued n v false
    | none =>
      match cut ['='] with
      | some (n, v) => .valued n v false
      | none => .named (String.ofList name)

/-- A property, after its letter. -/
def readProperty (free negated : Bool) (cs : List Char) :
    Except PatternError (Primitive × List Char) :=
  match skip free cs with
  | [] => .error .endInEscape
  | '{' :: rest =>
    match takeBraced free (skip free rest) with
    | none => .error .endInEscape
    | some (name, rest) => .ok (.property (splitQuery name) negated, rest)
  | '\\' :: _ => .error .badPropertyName
  | c :: rest => .ok (.property (.named (String.singleton c)) negated, skip free rest)

/-- The characters of the names of word boundaries. -/
def isBoundaryChar (c : Char) : Bool := c.isAlpha || c == '-'

/-- The name of a word boundary. -/
def takeBoundary (free : Bool) (cs : List Char) : List Char × List Char :=
  match cs with
  | [] => ([], [])
  | c :: cs =>
    if isBoundaryChar c then
      let (name, rest) := takeBoundary free (skip free cs)
      (c :: name, rest)
    else ([], c :: cs)
termination_by cs.length
decreasing_by exact length_skip_lt_cons ..

/-- A word boundary, which may have a name between braces; braces around anything else are a
repetition and are left alone. -/
def readBoundary (free : Bool) (cs : List Char) : Except PatternError (Primitive × List Char) :=
  match cs with
  | '{' :: inner =>
    match skip free inner with
    | [] => .error .endInBoundary
    | c :: rest =>
      if isBoundaryChar c then
        match takeBoundary free (c :: rest) with
        | (name, '}' :: rest) =>
          match String.ofList name with
          | "start" => .ok (.assertion .wordStart, rest)
          | "end" => .ok (.assertion .wordEnd, rest)
          | "start-half" => .ok (.assertion .wordStartHalf, rest)
          | "end-half" => .ok (.assertion .wordEndHalf, rest)
          | _ => .error .unknownBoundary
        | _ => .error .unclosedBoundary
      else .ok (.assertion .boundary, cs)
  | _ => .ok (.assertion .boundary, cs)

/-- Whether a character may be escaped to stand for itself: all of ASCII but letters, digits and
angle brackets. -/
def isEscapable (c : Char) : Bool := c.toNat < 128 && !c.isAlphanum && c != '<' && c != '>'

/-- An escape, after its backslash. -/
def readEscape (free : Bool) : List Char → Except PatternError (Primitive × List Char)
  | [] => .error .endInEscape
  | c :: cs =>
    let literal (n : Nat) : Except PatternError (Primitive × List Char) :=
      .ok (.literal { char := Char.ofNat n }, cs)
    let code (digits : Nat) : Except PatternError (Primitive × List Char) :=
      (readCode free digits cs).map fun (l, rest) => (.literal l, rest)
    if Number.isDigit c then .error .backreference
    else if isEscapable c then .ok (.literal { char := c }, cs)
    else
      match c with
      | 'x' => code 2
      | 'u' => code 4
      | 'U' => code 8
      | 'p' => readProperty free false cs
      | 'P' => readProperty free true cs
      | 'd' => .ok (.short .digit false, cs)
      | 'D' => .ok (.short .digit true, cs)
      | 's' => .ok (.short .space false, cs)
      | 'S' => .ok (.short .space true, cs)
      | 'w' => .ok (.short .word false, cs)
      | 'W' => .ok (.short .word true, cs)
      | 'a' => literal 7
      | 't' => literal 9
      | 'n' => literal 10
      | 'v' => literal 11
      | 'f' => literal 12
      | 'r' => literal 13
      | 'A' => .ok (.assertion .textStart, cs)
      | 'z' => .ok (.assertion .textEnd, cs)
      | 'b' => readBoundary free cs
      | 'B' => .ok (.assertion .noBoundary, cs)
      | '<' => .ok (.assertion .wordStart, cs)
      | '>' => .ok (.assertion .wordEnd, cs)
      | _ => .error .badEscape

/-! ## Classes in brackets -/

/-- An open class or an operator that waits for its right side. -/
inductive ClassFrame where
  | opened (negated : Bool) (outer : List ClassTree)
  | operator (op : SetOp) (left : ClassTree)

/-- A class that is being read: the parts of the innermost bracket, the last one first, and what
waits around it. -/
structure ClassState where
  rest : List Char
  items : List ClassTree := []
  frames : List ClassFrame := []

namespace ClassState

/-- Leading hyphens, which stand for themselves. -/
def leadingHyphens (free : Bool) (cs : List Char) : List ClassTree × List Char :=
  match cs with
  | [] => ([], [])
  | c :: cs =>
    if c == '-' then
      let (items, rest) := leadingHyphens free (skip free cs)
      (.literal { char := '-' } :: items, rest)
    else ([], c :: cs)
termination_by cs.length
decreasing_by exact length_skip_lt_cons ..

/-- Open a bracket; the text is what follows it. A closing bracket in the first place stands for
itself. -/
def openBracket (free : Bool) (st : ClassState) (cs : List Char) :
    Except PatternError ClassState :=
  let cs := skip free cs
  let (negated, cs) :=
    match cs with
    | '^' :: cs => (true, skip free cs)
    | cs => (false, cs)
  let (items, cs) := leadingHyphens free cs
  let (items, cs) :=
    match items, cs with
    | [], ']' :: cs => ([ClassTree.literal { char := ']' }], skip free cs)
    | items, cs => (items, cs)
  if cs.isEmpty then .error .unclosedClass
  else .ok { rest := cs, items, frames := .opened negated st.items :: st.frames }

/-- The set of the innermost bracket so far, with the operator before it, and what waits around. -/
def reduce (st : ClassState) : ClassTree × List ClassFrame :=
  let right := ClassTree.ofItems st.items.reverse
  match st.frames with
  | .operator op left :: frames => (.binary op left right, frames)
  | frames => (right, frames)

/-- Put an operator after what has been read; the text is what follows it. -/
def pushOp (st : ClassState) (op : SetOp) (cs : List Char) : ClassState :=
  let (left, frames) := st.reduce
  { rest := cs, items := [], frames := .operator op left :: frames }

/-- A named class such as `[:alpha:]`, after its first bracket. -/
def named? (cs : List Char) : Option (ClassTree × List Char) := do
  let ':' :: cs := cs | none
  let (negated, cs) :=
    match cs with
    | '^' :: cs => (true, cs)
    | cs => (false, cs)
  let name := cs.takeWhile (· != ':')
  let ':' :: ']' :: rest := cs.dropWhile (· != ':') | none
  let k ← AsciiClass.ofName? (String.ofList name)
  return (.ascii k negated, rest)

/-- A single part of a class. -/
def readItem (free : Bool) : List Char → Except PatternError (Primitive × List Char)
  | '\\' :: cs => readEscape free cs
  | c :: cs => .ok (.literal { char := c }, cs)
  | [] => .error .unclosedClass

/-- A part of a class that is no range. -/
def plainItem : Primitive → Except PatternError ClassTree
  | .literal l => .ok (.literal l)
  | .short k negated => .ok (.short k negated)
  | .property q negated => .ok (.property q negated)
  | .dot | .assertion _ => .error .classEscape

/-- An end of a range. -/
def rangeEnd : Primitive → Except PatternError Literal
  | .literal l => .ok l
  | _ => .error .badRangeEnd

/-- A part of a class or a range of two. -/
def readRange (free : Bool) (cs : List Char) : Except PatternError (ClassTree × List Char) := do
  let (first, cs) ← readItem free cs
  match skip free cs with
  | [] => throw .unclosedClass
  | '-' :: cs =>
    if peek free cs == some ']' || peek free cs == some '-' then
      return (← plainItem first, '-' :: cs)
    match skip free cs with
    | [] => throw .unclosedClass
    | cs =>
      let (last, cs) ← readItem free cs
      let first ← rangeEnd first
      let last ← rangeEnd last
      if last.char < first.char then throw .badRange
      return (.range first last, cs)
  | cs => return (← plainItem first, cs)

/-- Add a part that has been read. -/
def push (st : ClassState) (item : ClassTree) (cs : List Char) : ClassState :=
  { st with rest := cs, items := item :: st.items }

/-- Read one part of a class. The class is complete when its outermost bracket closes. -/
def step (free : Bool) (st : ClassState) : Except PatternError (ClassState ⊕ Tree × List Char) :=
  match skip free st.rest with
  | [] => .error .unclosedClass
  | '[' :: cs =>
    match named? cs with
    | some (item, cs) => .ok (.inl (st.push item cs))
    | none => (st.openBracket free cs).map .inl
  | ']' :: cs =>
    match st.reduce with
    | (inner, .opened negated _ :: []) => .ok (.inr (.bracketed negated inner, cs))
    | (inner, .opened negated outer :: frames) =>
      .ok (.inl { rest := cs, items := .bracketed negated inner :: outer, frames })
    | _ => .error .unclosedClass
  | '&' :: '&' :: cs => .ok (.inl (st.pushOp .inter cs))
  | '-' :: '-' :: cs => .ok (.inl (st.pushOp .diff cs))
  | '~' :: '~' :: cs => .ok (.inl (st.pushOp .symmDiff cs))
  | cs => (readRange free cs).map fun (item, cs) => .inl (st.push item cs)

/-- Read the rest of a class; every step takes at least one character. -/
def run (free : Bool) : Nat → ClassState → Except PatternError (Tree × List Char)
  | 0, _ => .error .unclosedClass
  | n + 1, st => do
    match ← st.step free with
    | .inl st => run free n st
    | .inr result => return result

end ClassState

/-- Read a class in brackets, after its first bracket. -/
def readClass (free : Bool) (cs : List Char) : Except PatternError (Tree × List Char) := do
  let st ← ClassState.openBracket free { rest := cs } cs
  st.run free (cs.length + 1)

/-! ## Groups -/

/-- Flags up to the colon or the parenthesis that ends them; `negated` after a minus and `dangling`
right after it. -/
def readFlags (change : FlagChange) (negated dangling : Bool) :
    List Char → Except PatternError (FlagChange × List Char)
  | [] => .error .endInFlags
  | c :: cs =>
    if c == ':' || c == ')' then
      if dangling then .error .danglingNegation else .ok (change, c :: cs)
    else if c == '-' then
      if negated then .error .repeatedNegation else readFlags change true true cs
    else
      match Flag.ofChar? c with
      | none => .error .badFlag
      | some f =>
        if change.on.contains f || change.off.contains f then .error .duplicateFlag
        else if negated then readFlags { change with off := change.off ++ [f] } negated false cs
        else readFlags { change with on := change.on ++ [f] } negated false cs

/-- Whether a character may stand in the name of a group. -/
def isNameChar (first : Bool) (c : Char) : Bool :=
  if first then c == '_' || Text.isAlphabetic c
  else c == '_' || c == '.' || c == '[' || c == ']' || Text.isAlphanumeric c

/-- The name of a group up to its closing bracket. -/
def readName (first : Bool) : List Char → Except PatternError (List Char × List Char)
  | [] => .error .endInGroupName
  | c :: cs =>
    if c == '>' then .ok ([], cs)
    else if isNameChar first c then (readName false cs).map fun (name, rest) => (c :: name, rest)
    else .error .badGroupName

/-- What an opening parenthesis starts: a group with a number, one with a name, one with flags, or
flags alone. -/
inductive Opening where
  | capture
  | named (name : List Char)
  | flags (change : FlagChange)
  | setFlags (change : FlagChange)

/-- Read what an opening parenthesis starts. -/
def readOpening (free : Bool) (cs : List Char) : Except PatternError (Opening × List Char) :=
  match skip free cs with
  | '?' :: '=' :: _ | '?' :: '!' :: _ | '?' :: '<' :: '=' :: _ | '?' :: '<' :: '!' :: _ =>
    .error .lookAround
  | '?' :: 'P' :: '<' :: cs | '?' :: '<' :: cs => do
    let (name, cs) ← readName true cs
    if name.isEmpty then throw .emptyGroupName
    return (.named name, cs)
  | ['?'] => .error .unclosedGroup
  | '?' :: cs => do
    match ← readFlags {} false false cs with
    | (change, ')' :: cs) =>
      if change == {} then throw .missingExpression
      return (.setFlags change, cs)
    | (change, cs) => return (.flags change, cs.tail)
  | cs => .ok (.capture, cs)

/-! ## The whole pattern -/

/-- A group that is still open: what was read before it, and the spacing in force there. -/
structure Frame where
  kind : GroupKind
  branches : List Tree
  items : List Tree
  free : Bool

/-- A pattern that is being read. Branches and items have the last one first. -/
structure State where
  rest : List Char
  free : Bool := false
  branches : List Tree := []
  items : List Tree := []
  frames : List Frame := []
  /-- Number of groups so far. -/
  captures : Nat := 0
  names : List (List Char) := []

namespace State

/-- The tree of the innermost open group so far. -/
def body (st : State) : Tree :=
  Tree.ofBranches ((Tree.ofItems st.items.reverse :: st.branches).reverse)

/-- Add a part that has been read. -/
def push (st : State) (t : Tree) (cs : List Char) : State :=
  { st with rest := cs, items := t :: st.items }

/-- Open a group. -/
def openGroup (st : State) (kind : GroupKind) (cs : List Char) : State :=
  let free :=
    match kind with
    | .flags change => (change.state? .freeSpacing).getD st.free
    | .capture _ => st.free
  { st with
    rest := cs, free, branches := [], items := []
    frames := ⟨kind, st.branches, st.items, st.free⟩ :: st.frames }

/-- What follows an opening parenthesis. -/
def readGroup (st : State) (cs : List Char) : Except PatternError State := do
  match ← readOpening st.free cs with
  | (.setFlags change, cs) =>
    let free := (change.state? .freeSpacing).getD st.free
    return { st.push (.flags change) cs with free }
  | (.flags change, cs) => return st.openGroup (.flags change) cs
  | (.capture, cs) =>
    return { st.openGroup (.capture (st.captures + 1)) cs with captures := st.captures + 1 }
  | (.named name, cs) =>
    if st.names.contains name then throw .duplicateGroupName
    return { st.openGroup (.capture (st.captures + 1)) cs with
      captures := st.captures + 1, names := name :: st.names }

/-- Close the innermost group. -/
def closeGroup (st : State) (cs : List Char) : Except PatternError State :=
  match st.frames with
  | [] => .error .unopenedGroup
  | f :: frames =>
    .ok { st with
      rest := cs, free := f.free, branches := f.branches
      items := .group f.kind st.body :: f.items, frames }

/-- The part that a repetition applies to, and the parts before it. -/
def operand (st : State) : Except PatternError (Tree × List Tree) :=
  match st.items with
  | [] | .empty :: _ | .flags _ :: _ => .error .missingExpression
  | t :: items => .ok (t, items)

/-- A question mark after a repetition makes it take as little as possible. -/
def readGreed : List Char → Bool × List Char
  | '?' :: cs => (false, cs)
  | cs => (true, cs)

/-- Repeat the last part; the text is what follows the sign. -/
def repeatLast (st : State) (least : Nat) (most : Option Nat) (cs : List Char) :
    Except PatternError State := do
  let (t, items) ← st.operand
  let (greedy, cs) := readGreed cs
  return { st with rest := cs, items := .repetition least most greedy t :: items }

/-- Repeat the last part as often as the numbers say that follow an opening brace. -/
def repeatCounted (st : State) (cs : List Char) : Except PatternError State := do
  let (t, items) ← st.operand
  let cs := skip st.free cs
  if cs.isEmpty then throw .unclosedRepetition
  let (first, cs) := readCount st.free cs
  let (least, most, cs) ←
    match cs with
    | [] => throw .unclosedRepetition
    | ',' :: cs =>
      match skip st.free cs with
      | [] => throw .unclosedRepetition
      | '}' :: cs => pure (← first, none, '}' :: cs)
      | cs => do
        let least ← first
        let (second, cs) := readCount st.free cs
        pure (least, some (← second), cs)
    | cs => do
      let least ← first
      pure (least, some least, cs)
  match cs with
  | '}' :: cs =>
    let (greedy, cs) := readGreed (skip st.free cs)
    if most.any (· < least) then throw .badRepetition
    return { st with rest := cs, items := .repetition least most greedy t :: items }
  | _ => throw .unclosedRepetition

/-- Read one part of a pattern that starts with `c`. -/
def step (st : State) (c : Char) (cs : List Char) : Except PatternError State :=
  match c with
  | '(' => st.readGroup cs
  | ')' => st.closeGroup cs
  | '|' =>
    let branch := Tree.ofItems st.items.reverse
    .ok { st with rest := cs, branches := branch :: st.branches, items := [] }
  | '[' => (readClass st.free cs).map fun (t, cs) => st.push t cs
  | '?' => st.repeatLast 0 (some 1) cs
  | '*' => st.repeatLast 0 none cs
  | '+' => st.repeatLast 1 none cs
  | '{' => st.repeatCounted cs
  | '\\' => (readEscape st.free cs).map fun (p, cs) => st.push (.primitive p) cs
  | '.' => .ok (st.push (.primitive .dot) cs)
  | '^' => .ok (st.push (.primitive (.assertion .lineStart)) cs)
  | '$' => .ok (st.push (.primitive (.assertion .lineEnd)) cs)
  | c => .ok (st.push (.primitive (.literal { char := c })) cs)

/-- Read to the end of the pattern; every step takes at least one character. -/
def run : Nat → State → Except PatternError Tree
  | 0, _ => .error .unclosedGroup
  | n + 1, st =>
    match skip st.free st.rest with
    | [] => if st.frames.isEmpty then .ok st.body else .error .unclosedGroup
    | c :: cs => do run n (← st.step c cs)

end State

/-- Read the text of a pattern. -/
def Tree.read (cs : List Char) : Except PatternError Tree := do
  let t ← State.run (cs.length + 1) { rest := cs }
  if PatternError.nestLimit < t.depth then throw .tooDeep
  return t

end QuestScript.Pattern
