import QuestScript.Line.Source
import QuestScript.Line.Statement

/-!
# Lines of code

A line is scanned once and then run any number of times: its text, its number, the label it may
carry, its statements, and whether it is the header of a block that continues on the next lines.
-/

namespace QuestScript

/-- A logical line with its statements. -/
structure Line where
  text : List Char
  /-- The physical line, counted from one, on which the line starts. -/
  number : Nat
  label : Option String
  statements : List Statement
  /-- Whether the line is a header whose code is on the following lines. -/
  isMultiline : Bool
deriving DecidableEq, Repr

namespace Line

/-- The label of a line: what follows its colon, up to an `&`, in upper case. -/
def labelOf (cs : List Char) : Option String :=
  match Text.trim cs with
  | ':' :: rest =>
    some (String.ofList (Text.upper (Text.trim (rest.takeWhile (· != '&')))))
  | _ => none

/-- Whether statements are a single header that ends its line. -/
def isHeader (cs : List Char) : List Statement → Bool
  | [s] => s.kind.endsAtColon && cs.getLast? == some ':'
  | _ => false

/-- Scan a line that is already in upper case. -/
def scan (text : List Char) (number : Nat) : Line :=
  let statements := Statement.scan text
  { text, number, label := labelOf text, statements, isMultiline := isHeader text statements }

/-- The lines of a source text. -/
def ofSource (cs : List Char) : List Line :=
  (Source.logicalLines cs).map fun (text, number) => scan text number

/-- The kind of the first statement. -/
def kind (l : Line) : StatementKind :=
  match l.statements with
  | s :: _ => s.kind
  | [] => .unknown

/-- The text of a span of the line. -/
def slice (l : Line) (span : Span) : List Char := span.slice l.text

/-- The parameters of a statement as written. -/
def params (l : Line) (s : Statement) : List Char := l.slice ⟨s.param, s.stop⟩

/-- The `index`-th argument of a statement as written; empty when there is none. -/
def arg (l : Line) (s : Statement) (index : Nat) : List Char :=
  match s.args[index]? with
  | some span => l.slice span
  | none => []

/-- Whether a statement's header is ended by a colon. -/
def hasColon (l : Line) (s : Statement) : Bool := Text.charAt? l.text s.stop == some ':'

end Line

end QuestScript
