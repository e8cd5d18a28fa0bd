import QuestScript.Line
import QuestScript.Text.Json
import QuestScript.Text.Quoted

/-!
# Listings of lines

The scanned lines of a source text for the eye, one a line, and as JSON.
-/

namespace QuestScript

/-- A statement: its kind, the texts of its arguments and its error. -/
def Statement.listing (s : Statement) (line : Line) : String :=
  let args := s.args.map fun span => Text.quoted (String.ofList (line.slice span))
  s.kind.tag ++ "[" ++ String.intercalate ", " args ++ "]" ++ s.error.elim "" fun k => "!" ++ k.tag

namespace Line

/-- A line: its number, its statements, and a colon if it opens a block. -/
def listing (l : Line) : String :=
  Text.padLeft 4 (toString l.number) ++ " " ++
    String.intercalate " " (l.statements.map (·.listing l)) ++ if l.isMultiline then " :" else ""

/-- A line in full. -/
def json (l : Line) : Text.Json :=
  let statement (s : Statement) : Text.Json :=
    .object
      [("kind", .text s.kind.tag.toList), ("param", .number s.param), ("end", .number s.stop),
        ("args", .array (s.args.map fun a =>
          .object [("start", .number a.start), ("end", .number a.stop)])),
        ("error", s.error.elim .null fun k => .text k.tag.toList)]
  .object
    [("text", .text l.text), ("line_number", .number l.number),
      ("label", l.label.elim .null fun s => .text s.toList),
      ("statements", .array (l.statements.map statement)), ("is_multiline", .bool l.isMultiline)]

end Line

end QuestScript
