import QuestScript.Value
import QuestScript.Text.Scan

/-!
# Tokens

An expression is a sequence of tokens with white space between them. A lexeme is as long as it can
be: a number takes all its digits, a name everything up to a delimiter, and `<>` is one token. A
name may hold any character that is no delimiter and no line break; only its first character must
not be a digit. Whether a name is a variable, a function or an operator is decided later.

`tokenize` reads a whole text and gives each token the bytes it was read from.
-/

namespace QuestScript

/-! ## Tokens and how they are written -/

/-- A token of an expression. -/
inductive Token where
  | number (n : Number)
  | text (s : String)
  | code (s : String)
  | name (s : String)
  | plus
  | minus
  | star
  | slash
  | ampersand
  | equal
  | notEqual
  | less
  | greater
  | lessEqual
  | greaterEqual
  | openRound
  | closeRound
  | openSquare
  | closeSquare
  | comma
  | colon
deriving DecidableEq, Repr

namespace Token

/-- A way to write the token. -/
def display : Token → String
  | number n => n.text
  | text s => Text.singleQuoted s
  | code s => "\x7b" ++ s ++ "\x7d"
  | name s => s
  | plus => "+"
  | minus => "-"
  | star => "*"
  | slash => "/"
  | ampersand => "&"
  | equal => "="
  | notEqual => "<>"
  | less => "<"
  | greater => ">"
  | lessEqual => "<="
  | greaterEqual => ">="
  | openRound => "("
  | closeRound => ")"
  | openSquare => "["
  | closeSquare => "]"
  | comma => ","
  | colon => ":"

/-- Whether the token opens a value that may directly follow an operator spelled as a word. -/
def startsValue : Token → Bool
  | openRound | openSquare | code _ | text _ => true
  | _ => false

/-! ## Character classes -/

/-- The characters between tokens. -/
def isSpace (c : Char) : Bool := c == ' ' || c == '\t' || c == '\r' || c == '\n'

/-- The characters a name may continue with. -/
def isNameChar (c : Char) : Bool := !(Text.isDelimiter c || c == '\r' || c == '\n')

/-- The token of an operator or a bracket, and whether it takes the second character too. -/
def symbol? (c : Char) (next : Option Char) : Option (Token × Bool) :=
  match c, next with
  | '<', some '>' => some (notEqual, true)
  | '<', some '=' => some (lessEqual, true)
  | '<', _ => some (less, false)
  | '>', some '=' => some (greaterEqual, true)
  | '>', _ => some (greater, false)
  | '=', some '<' => some (lessEqual, true)
  | '=', some '>' => some (greaterEqual, true)
  | '=', _ => some (equal, false)
  | '!', _ => some (notEqual, false)
  | '+', _ => some (plus, false)
  | '-', _ => some (minus, false)
  | '*', _ => some (star, false)
  | '/', _ => some (slash, false)
  | '&', _ => some (ampersand, false)
  | '(', _ => some (openRound, false)
  | ')', _ => some (closeRound, false)
  | '[', _ => some (openSquare, false)
  | ']', _ => some (closeSquare, false)
  | ',', _ => some (comma, false)
  | ':', _ => some (colon, false)
  | _, _ => none

/-! ## Reading one token -/

/-- A token that has been read, its size in bytes and what follows it. -/
structure Lexeme where
  token : Token
  size : Nat
  rest : List Char

/-- Why no token can be read, and the size of the offending text. -/
structure Unreadable where
  kind : ErrorKind
  size : Nat

/-- A number: all digits in a row, which must fit. -/
def readNumber (c : Char) (cs : List Char) : Except Unreadable Lexeme :=
  let digits := c :: cs.takeWhile Number.isDigit
  match Number.read? digits with
  | some n => .ok ⟨number n, Text.byteSize digits, cs.dropWhile Number.isDigit⟩
  | none => .error ⟨.badSyntax, Text.byteSize digits⟩

/-- A literal whose opening quote is `q`. Unless it is closed, the rest of the text is at fault. -/
def readText (q : Char) (cs : List Char) : Except Unreadable Lexeme :=
  match Text.closeQuote q cs with
  | some (body, rest) =>
    .ok ⟨text (String.ofList (Text.unquote q body)),
      q.utf8Size + Text.byteSize body + q.utf8Size, rest⟩
  | none => .error ⟨.missingQuote, q.utf8Size + Text.byteSize cs⟩

/-- A code block whose opening brace is `b`. Unless it is closed, the brace is at fault. -/
def readCode (b : Char) (cs : List Char) : Except Unreadable Lexeme :=
  match Text.closeBlock 0 cs with
  | some (body, rest) =>
    .ok ⟨code (String.ofList body), b.utf8Size + Text.byteSize body + b.utf8Size, rest⟩
  | none => .error ⟨.missingQuote, b.utf8Size⟩

/-- A name: everything up to the next delimiter. -/
def readName (c : Char) (cs : List Char) : Lexeme :=
  let letters := c :: cs.takeWhile isNameChar
  ⟨name (String.ofList letters), Text.byteSize letters, cs.dropWhile isNameChar⟩

/-- An operator or a bracket. -/
def readSymbol (c : Char) (cs : List Char) : Except Unreadable Lexeme :=
  match symbol? c cs.head? with
  | some (token, true) => .ok ⟨token, Text.byteSize (c :: cs.take 1), cs.drop 1⟩
  | some (token, false) => .ok ⟨token, c.utf8Size, cs⟩
  | none => .error ⟨.badSyntax, c.utf8Size⟩

/-- The token that starts with `c`. -/
def read (c : Char) (cs : List Char) : Except Unreadable Lexeme :=
  if Number.isDigit c then readNumber c cs
  else if Text.isQuote c then readText c cs
  else if c == '{' then readCode c cs
  else if isNameChar c then .ok (readName c cs)
  else readSymbol c cs

/-- Reading a token uses up its first character at least. -/
theorem read_rest_length_le {c : Char} {cs : List Char} {l : Lexeme} (h : read c cs = .ok l) :
    l.rest.length ≤ cs.length := by
  unfold read at h
  split at h
  · unfold readNumber at h
    dsimp only at h
    split at h
    · cases h; exact (List.dropWhile_suffix _).length_le
    · cases h
  split at h
  · unfold readText at h
    split at h
    · next hq => cases h; exact Nat.le_of_lt (Text.closeQuote_length_lt hq)
    · cases h
  split at h
  · unfold readCode at h
    split at h
    · next hb => cases h; exact Nat.le_of_lt (Text.closeBlock_length_lt hb)
    · cases h
  split at h
  · cases h; exact (List.dropWhile_suffix _).length_le
  · unfold readSymbol at h
    split at h
    · cases h; simp
    · cases h; simp
    · cases h

/-! ## Reading all tokens -/

/-- The tokens of a text that starts at byte `pos`. -/
def tokenizeFrom (pos : Nat) (cs : List Char) : Except SourceError (List (Token × Span)) :=
  match cs with
  | [] => .ok []
  | c :: cs =>
    if isSpace c then tokenizeFrom (pos + c.utf8Size) cs
    else
      match _h : read c cs with
      | .error u => .error (.token ⟨u.kind, none⟩ ⟨pos, pos + u.size⟩)
      | .ok l => do
        let tokens ← tokenizeFrom (pos + l.size) l.rest
        return (l.token, ⟨pos, pos + l.size⟩) :: tokens
termination_by cs.length
decreasing_by
  · simp_wf
  · simp_wf
    have := read_rest_length_le _h
    omega

/-- The tokens of a text, each with the bytes it was read from. -/
def tokenize (cs : List Char) : Except SourceError (List (Token × Span)) := tokenizeFrom 0 cs

end Token

end QuestScript
