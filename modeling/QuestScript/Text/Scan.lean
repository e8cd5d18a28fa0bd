import QuestScript.Text.Literal
import QuestScript.Text.Blank

/-!
# Searching outside literals and brackets

A separator counts only where it stands on its own: outside string literals and outside round,
square and curly brackets. The three kinds of brackets are counted separately and never below zero,
so a stray closing bracket changes nothing.

`delimiterPos?` looks for one character, `wordPos?` for a text or, when asked to, for a word that
stands between delimiters. A literal that is never closed hides everything after its quote.
-/

namespace QuestScript.Text

/-! ## Blanks -/

/-- Byte offset of the first character at or after byte `start` that is no blank. -/
def skipBlanks (cs : List Char) (start : Nat) : Nat :=
  min start (byteSize cs) + leadingBlanks (dropBytes cs start)

/-! ## Delimiters and depth -/

/-- The characters that end a keyword, a name or an isolated word. -/
def delimiters : List Char :=
  [' ', '\t', '&', '\'', '"', '(', ')', '[', ']', '=', '!', '<', '>', '+', '-', '/', '*', ':', ',',
    '{', '}']

/-- Whether a character ends a word. -/
def isDelimiter (c : Char) : Bool := delimiters.contains c

theorem isDelimiter_of_isBlank {c : Char} (h : isBlank c = true) : isDelimiter c = true := by
  have h' : c = ' ' ∨ c = '\t' := by simpa [isBlank] using h
  rcases h' with rfl | rfl <;> rfl

theorem isDelimiter_of_isQuote {c : Char} (h : isQuote c = true) : isDelimiter c = true := by
  have h' : c = '\'' ∨ c = '"' := by simpa [isQuote] using h
  rcases h' with rfl | rfl <;> rfl

/-- Whether a text is empty or starts with a delimiter, so that a word before it has ended. -/
def atBoundary : List Char → Bool
  | [] => true
  | c :: _ => isDelimiter c

/-- Open brackets of each kind. -/
structure Depth where
  round : Nat := 0
  square : Nat := 0
  curly : Nat := 0
deriving DecidableEq, Repr

/-- Count a character. -/
def Depth.track (d : Depth) (c : Char) : Depth :=
  if c == '(' then { d with round := d.round + 1 }
  else if c == ')' then { d with round := d.round - 1 }
  else if c == '[' then { d with square := d.square + 1 }
  else if c == ']' then { d with square := d.square - 1 }
  else if c == '{' then { d with curly := d.curly + 1 }
  else if c == '}' then { d with curly := d.curly - 1 }
  else d

/-- Whether no bracket is open. -/
def Depth.isTop (d : Depth) : Bool := d.round == 0 && d.square == 0 && d.curly == 0

/-! ## A character -/

/-- The byte offset, counted from `pos`, of the first `ch` outside literals and brackets, where the
brackets of `depth` are already open. -/
def delimiterFrom? (ch : Char) (depth : Depth) (pos : Nat) (cs : List Char) : Option Nat :=
  match cs with
  | [] => none
  | c :: cs =>
    if isQuote c then
      match _h : closeQuote c cs with
      | none => none
      | some (body, rest) =>
        delimiterFrom? ch depth (pos + c.utf8Size + byteSize body + c.utf8Size) rest
    else if (depth.track c).isTop && c == ch then some pos
    else delimiterFrom? ch (depth.track c) (pos + c.utf8Size) cs
termination_by cs.length
decreasing_by
  · simp_wf
    have := closeQuote_length_lt _h
    omega
  · simp_wf

/-- Byte offset of the first `ch` outside literals and brackets. -/
def delimiterPos? (cs : List Char) (ch : Char) : Option Nat := delimiterFrom? ch {} 0 cs

/-- The text before and after the first `ch` outside literals and brackets. -/
def cutAtDelimiter? (cs : List Char) (ch : Char) : Option (List Char × List Char) :=
  match delimiterPos? cs ch with
  | none => none
  | some pos =>
    match splitBytes cs pos with
    | some (before, _ :: after) => some (before, after)
    | _ => none

theorem cutAtDelimiter?_length_lt {cs before after : List Char} {ch : Char}
    (h : cutAtDelimiter? cs ch = some (before, after)) : after.length < cs.length := by
  unfold cutAtDelimiter? at h
  split at h
  · cases h
  · split at h
    · next hs =>
      cases h
      rw [(splitBytes_eq_some hs).1]
      simp
      omega
    · cases h

/-! ## A text or a word -/

/-- `wordPos?` from a place where the brackets of `depth` are open; `fresh` says that a word may
start here, that is, a delimiter or the start of the text precedes. -/
def wordFrom? (word : List Char) (isolated : Bool) (depth : Depth) (fresh : Bool) (pos : Nat)
    (cs : List Char) : Option Nat :=
  match cs with
  | [] => none
  | c :: cs =>
    if isQuote c then
      match _h : closeQuote c cs with
      | none => none
      | some (body, rest) =>
        wordFrom? word isolated depth true (pos + c.utf8Size + byteSize body + c.utf8Size) rest
    else
      let depth := depth.track c
      let found := word.isPrefixOf (c :: cs)
      if !depth.isTop then wordFrom? word isolated depth fresh (pos + c.utf8Size) cs
      else if !isolated then
        if found then some pos else wordFrom? word isolated depth fresh (pos + c.utf8Size) cs
      else if isDelimiter c then wordFrom? word isolated depth true (pos + c.utf8Size) cs
      else if fresh && found && atBoundary ((c :: cs).drop word.length) then some pos
      else wordFrom? word isolated depth false (pos + c.utf8Size) cs
termination_by cs.length
decreasing_by
  · simp_wf
    have := closeQuote_length_lt _h
    omega
  all_goals simp_wf

/-- Byte offset of the first occurrence of `word` outside literals and brackets. An `isolated` one
follows a delimiter or the start of the text and is followed by a delimiter or its end. -/
def wordPos? (cs word : List Char) (isolated : Bool) : Option Nat :=
  if word.isEmpty then some 0 else wordFrom? word isolated {} true 0 cs

/-- The text before and after an isolated word, both trimmed. -/
def splitAtWord? (cs word : List Char) : Option (List Char × List Char) := do
  let pos ← wordPos? cs word true
  let (before, rest) ← splitBytes cs pos
  return (trim before, trim (rest.drop word.length))

end QuestScript.Text
