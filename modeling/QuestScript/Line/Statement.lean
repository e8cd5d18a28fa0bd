import QuestScript.Line.Keyword

/-!
# Statements of a line

A line is cut into statements once, when it is loaded. A statement ends at an `&`, at the colon of
its header, or before an `ELSE`; all of these count only outside literals and brackets. Its arguments
are spans of the line's text, and an error in them is kept until the statement runs.

## Termination

The scan goes on only with a text that is shorter than the one it has just cut.
-/

namespace QuestScript

/-- A statement: offsets into the text of its line. -/
structure Statement where
  kind : StatementKind
  /-- Where the parameters start, right after the keyword. -/
  param : Nat
  /-- Where the statement ends: at its `&`, its colon, an `ELSE` or the end of the line. -/
  stop : Nat
  args : List Span := []
  /-- The error the statement raises when it runs. -/
  error : Option ErrorKind := none
deriving DecidableEq, Repr

namespace Statement

/-! ## Arguments -/

/-- The span of a text at byte `base` without the blanks at its ends. -/
def trimmedSpan (base : Nat) (cs : List Char) : Span :=
  let start := base + Text.leadingBlanks cs
  ⟨start, start + Text.byteSize (Text.trim cs)⟩

/-- Whether a character before `=` belongs to the assignment sign. -/
def isCompound (c : Char) : Bool := c == '+' || c == '-' || c == '*' || c == '/'

/-- Names, sign and value of an assignment, or only names, from the text at byte `base`. -/
def assignmentArgs (base : Nat) (cs : List Char) : List Span × Option ErrorKind :=
  let start := base + Text.leadingBlanks cs
  let body := Text.dropBlanks cs
  match Text.cutAtDelimiter? body '=' with
  | some (before, after) =>
    let eq := start + Text.byteSize before
    let compound := before.getLast?.any isCompound
    let sign := if compound then eq - 1 else eq
    let names := trimmedSpan start (if compound then before.dropLast else before)
    let values := trimmedSpan (eq + 1) after
    ([names, ⟨sign, eq + 1⟩, values],
      if names.isEmpty || values.isEmpty then some .badSyntax else none)
  | none =>
    let names := trimmedSpan start body
    ([names], if names.isEmpty then some .badSyntax else none)

/-- Arguments between commas, at most `room` of them, from the text at byte `pos`. -/
def separatedArgs (room pos : Nat) (cs : List Char) : List Span × Option ErrorKind :=
  match room with
  | 0 => ([], some .argumentCount)
  | room + 1 =>
    match Text.cutAtDelimiter? cs ',' with
    | none => ([⟨pos, pos + Text.byteSize cs⟩], none)
    | some (before, after) =>
      let span : Span := ⟨pos, pos + Text.byteSize before⟩
      let rest := Text.dropBlanks after
      if rest.isEmpty then ([span], some .badSyntax)
      else
        let (spans, error) := separatedArgs room (span.stop + 1 + Text.leadingBlanks after) rest
        (span :: spans, error)

/-- The text at byte `base` without one pair of round brackets around all of it; `none` when the
first bracket is never closed. -/
def stripBrackets? (base : Nat) (cs : List Char) : Option (Nat × List Char) :=
  let pos := base + Text.leadingBlanks cs
  let body := Text.dropBlanks cs
  match body with
  | '(' :: _ =>
    match Text.cutAtDelimiter? body ')' with
    | none => none
    | some (before, after) =>
      if Text.hasText after then some (pos, body)
      else
        let inner := before.drop 1
        some (pos + 1 + Text.leadingBlanks inner, Text.dropBlanks inner)
  | _ => some (pos, body)

/-- Arguments of a statement from the text at byte `base`. -/
def regularArgs (kind : StatementKind) (base : Nat) (cs : List Char) :
    List Span × Option ErrorKind :=
  match stripBrackets? base cs with
  | none => ([], some .missingBracket)
  | some (pos, body) =>
    let (least, most) := kind.arity
    let (args, error) := if body.isEmpty then ([], none) else separatedArgs most pos body
    (args, if args.length < least then some .argumentCount else error)

/-- A statement with the arguments its kind takes, from its parameters at byte `param`. -/
def ofParams (kind : StatementKind) (param : Nat) (cs : List Char) : Statement :=
  let (args, error) :=
    match kind with
    | .unknown | .label | .otherwise | .endBlock | .comment | .loop | .forTo => ([], none)
    | .assign | .declare => assignmentArgs param cs
    | _ => regularArgs kind param cs
  { kind, param, stop := param + Text.byteSize cs, args, error }

/-! ## Cutting a line -/

/-- Where a statement ends, and where the next one starts if there is one, in bytes from the
statement's start. A statement without a cut runs to the end of the text. -/
structure Cut where
  stop : Option Nat := none
  next : Option Nat := none

/-- The cut after the header of a block statement. -/
def headerCut (cs : List Char) : Cut :=
  match Text.delimiterPos? cs ':' with
  | some p => { stop := some p, next := if p + 1 < Text.byteSize cs then some (p + 1) else none }
  | none => {}

/-- The cut after an `ELSE` whose parameters start at byte `param`. -/
def elseCut (param : Nat) (cs : List Char) : Cut :=
  match Text.charAt? cs param with
  | some ':' =>
    { stop := some param, next := if param + 1 < Text.byteSize cs then some (param + 1) else none }
  | some _ => { stop := some param, next := some param }
  | none => {}

/-- The cut after any other statement: at its `&` or before an `ELSE`, whichever comes first. -/
def plainCut (cs : List Char) : Cut :=
  match Text.delimiterPos? cs '&', Text.wordPos? cs "ELSE".toList true with
  | some a, some e => if e < a then ⟨some e, some e⟩ else ⟨some a, some (a + 1)⟩
  | none, some e => ⟨some e, some e⟩
  | some a, none => ⟨some a, some (a + 1)⟩
  | none, none => {}

/-- A statement without a keyword assigns if it holds an equals sign and shows a value if not; an
empty one does nothing. -/
def withoutKeyword (cs : List Char) : StatementKind :=
  if cs.isEmpty then .unknown
  else if (Text.delimiterPos? cs '=').isSome then .assign
  else .implicit

/-- The first `n` bytes of a text, or all of it. -/
def before (n : Option Nat) (cs : List Char) : List Char :=
  match n.bind (Text.splitBytes cs) with
  | some (a, _) => a
  | none => cs

/-- The statement at the start of a text, its parameters and the cut after it. -/
def first (start : Nat) (cs : List Char) : Statement × Cut :=
  let (kind, keyword) := StatementKind.ofText cs
  let param :=
    match keyword with
    | some n => n + Text.leadingBlanks (cs.drop n)
    | none => 0
  if cs.isEmpty || kind = .comment then (ofParams kind start cs, {})
  else
    let cut :=
      if kind.endsAtColon then headerCut cs
      else if kind = .otherwise then elseCut param cs
      else plainCut cs
    let text := before cut.stop cs
    let kind := if kind = .unknown then withoutKeyword text else kind
    let param := min param (Text.byteSize text)
    (ofParams kind (start + param) (Text.dropBytes text param), cut)

/-- The statements of a text that starts at byte `start`. -/
def scanFrom (start : Nat) (cs : List Char) : List Statement :=
  let (statement, cut) := first start cs
  match cut.next with
  | none => [statement]
  | some n =>
    let rest := Text.dropBytes cs n
    let next := Text.dropBlanks rest
    if _h : next.length < cs.length then
      statement :: scanFrom (start + n + Text.leadingBlanks rest) next
    else [statement]
termination_by cs.length

/-- `ELSE IF` with nothing behind its colon is an `ELSEIF`. -/
def mergeElseIf (cs : List Char) : List Statement → List Statement
  | [a, b] =>
    if a.kind = .otherwise && b.kind = .ifThen && Text.charAt? cs a.param != some ':' then
      [{ b with kind := .elseIf }]
    else [a, b]
  | statements => statements

/-- The statements of a line. -/
def scan (cs : List Char) : List Statement :=
  mergeElseIf cs (scanFrom (Text.leadingBlanks cs) (Text.dropBlanks cs))

end Statement

end QuestScript
