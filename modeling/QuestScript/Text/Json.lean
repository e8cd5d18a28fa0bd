/-!
# JSON

Values of the JSON format and their text with one item a line, indented by two spaces.
-/

namespace QuestScript.Text

/-- A JSON value. -/
inductive Json where
  | null
  | bool (b : Bool)
  | number (n : Nat)
  | text (cs : List Char)
  | array (items : List Json)
  | object (fields : List (String × Json))

namespace Json

/-- A hexadecimal digit. -/
def hexDigit (n : Nat) : Char := (Nat.toDigits 16 (n % 16)).headD '0'

/-- A character inside a text: quotes, backslashes and control characters are escaped. -/
def escapeChar (c : Char) : List Char :=
  match c with
  | '"' => ['\\', '"']
  | '\\' => ['\\', '\\']
  | '\n' => ['\\', 'n']
  | '\r' => ['\\', 'r']
  | '\t' => ['\\', 't']
  | c =>
    let n := c.toNat
    if n == 8 then ['\\', 'b']
    else if n == 12 then ['\\', 'f']
    else if n < 32 then ['\\', 'u', '0', '0', hexDigit (n / 16), hexDigit n]
    else [c]

/-- A text in quotes. -/
def quoted (cs : List Char) : String := "\"" ++ String.ofList (cs.flatMap escapeChar) ++ "\""

/-- A line break and the indentation of a level. -/
def newline (level : Nat) : String := "\n" ++ String.ofList (List.replicate (2 * level) ' ')

mutual

/-- The text of a value at a level of indentation. -/
def render (level : Nat) : Json → String
  | null => "null"
  | bool b => if b then "true" else "false"
  | number n => toString n
  | text cs => quoted cs
  | array [] => "[]"
  | array items => "[" ++ renderItems (level + 1) items ++ newline level ++ "]"
  | object [] => "\x7b\x7d"
  | object fields => "\x7b" ++ renderFields (level + 1) fields ++ newline level ++ "\x7d"

/-- Items with commas between them, each on a line of its own. -/
def renderItems (level : Nat) : List Json → String
  | [] => ""
  | [v] => newline level ++ v.render level
  | v :: vs => newline level ++ v.render level ++ "," ++ renderItems level vs

/-- Fields with commas between them, each on a line of its own. -/
def renderFields (level : Nat) : List (String × Json) → String
  | [] => ""
  | [(k, v)] => newline level ++ quoted k.toList ++ ": " ++ v.render level
  | (k, v) :: rest =>
    newline level ++ quoted k.toList ++ ": " ++ v.render level ++ "," ++ renderFields level rest

end

/-- The text of a value. -/
def pretty (v : Json) : String := v.render 0

end Json

end QuestScript.Text
