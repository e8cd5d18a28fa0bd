import QuestScript.Text.Offset

/-!
# Literals and code blocks

A string literal opens with one of the two quotes and runs to the next quote of that kind; two such
quotes in a row stand for one and do not close it. A code block is enclosed in braces, which nest;
quotes inside a block open literals as they do outside.

`closeQuote` and `closeBlock` find the end of a literal or block whose opening character has been
read. Both split the text and lose nothing (`closeQuote_eq_some`, `closeBlock_length_lt`).

`Tracker` follows the same structure through a text that arrives in pieces, and knows after each
piece whether it stands outside literals and blocks.
-/

namespace QuestScript.Text

/-- The characters that open a string literal. -/
def isQuote (c : Char) : Bool := c == '\'' || c == '"'

/-! ## The end of a literal -/

/-- Split a text, read from inside a literal, at the quote that closes it: the contents as written
and what follows the quote. `none` when nothing closes the literal. -/
def closeQuote (q : Char) : List Char → Option (List Char × List Char)
  | [] => none
  | c :: cs =>
    if c == q then
      match cs with
      | d :: ds =>
        if d == q then (closeQuote q ds).map fun (body, rest) => (c :: d :: body, rest)
        else some ([], cs)
      | [] => some ([], [])
    else (closeQuote q cs).map fun (body, rest) => (c :: body, rest)

/-- The two parts with the closing quote between them are the whole text. -/
theorem closeQuote_eq_some {q : Char} {cs body rest : List Char}
    (h : closeQuote q cs = some (body, rest)) : cs = body ++ q :: rest := by
  fun_induction closeQuote q cs generalizing body rest with
  | case1 => simp at h
  | case2 c hc d ds hd ih =>
    obtain ⟨⟨b, r⟩, hb, heq⟩ := Option.map_eq_some_iff.1 h
    simp only [Prod.mk.injEq] at heq
    obtain ⟨rfl, rfl⟩ := heq
    simp [ih hb]
  | case3 c hc d ds hd =>
    simp only [Option.some.injEq, Prod.mk.injEq] at h
    obtain ⟨rfl, rfl⟩ := h
    simpa using hc
  | case4 c hc =>
    simp only [Option.some.injEq, Prod.mk.injEq] at h
    obtain ⟨rfl, rfl⟩ := h
    simpa using hc
  | case5 c cs hc ih =>
    obtain ⟨⟨b, r⟩, hb, heq⟩ := Option.map_eq_some_iff.1 h
    simp only [Prod.mk.injEq] at heq
    obtain ⟨rfl, rfl⟩ := heq
    simp [ih hb]

theorem closeQuote_length_lt {q : Char} {cs body rest : List Char}
    (h : closeQuote q cs = some (body, rest)) : rest.length < cs.length := by
  rw [closeQuote_eq_some h]
  simp
  omega

/-- The text a literal stands for: two quotes in a row become one. -/
def unquote (q : Char) : List Char → List Char
  | [] => []
  | [c] => [c]
  | c :: d :: cs => if c == q && d == q then q :: unquote q cs else c :: unquote q (d :: cs)

/-- The contents of a literal for a text: each quote is written twice. -/
def doubleQuotes (q : Char) : List Char → List Char
  | [] => []
  | c :: cs => if c == q then c :: c :: doubleQuotes q cs else c :: doubleQuotes q cs

/-- A text between single quotes, with the quotes inside it doubled. -/
def singleQuoted (s : String) : String := "'" ++ String.ofList (doubleQuotes '\'' s.toList) ++ "'"

/-! ## The end of a block -/

/-- Split a text, read from inside `depth + 1` blocks, at the brace that closes the outermost one:
the contents and what follows the brace. -/
def closeBlock (depth : Nat) (cs : List Char) : Option (List Char × List Char) :=
  match cs with
  | [] => none
  | c :: cs =>
    if isQuote c then
      match _h : closeQuote c cs with
      | none => none
      | some (lit, rest) => (closeBlock depth rest).map fun (body, rest) => (c :: lit ++ c :: body, rest)
    else if c == '{' then (closeBlock (depth + 1) cs).map fun (body, rest) => (c :: body, rest)
    else if c == '}' then
      match depth with
      | 0 => some ([], cs)
      | depth + 1 => (closeBlock depth cs).map fun (body, rest) => (c :: body, rest)
    else (closeBlock depth cs).map fun (body, rest) => (c :: body, rest)
termination_by cs.length
decreasing_by
  all_goals simp_wf
  have := closeQuote_length_lt _h
  omega

/-- The two parts with the closing brace between them are the whole text. -/
theorem closeBlock_eq_some {depth : Nat} {cs body rest : List Char}
    (h : closeBlock depth cs = some (body, rest)) : cs = body ++ '}' :: rest := by
  fun_induction closeBlock depth cs generalizing body rest with
  | case1 => simp at h
  | case2 => simp at h
  | case3 depth c cs hq lit r hlit ih =>
    obtain ⟨⟨b, r'⟩, hb, heq⟩ := Option.map_eq_some_iff.1 h
    simp only [Prod.mk.injEq] at heq
    obtain ⟨rfl, rfl⟩ := heq
    simp [closeQuote_eq_some hlit, ih hb]
  | case4 depth c cs hq hc ih =>
    obtain ⟨⟨b, r'⟩, hb, heq⟩ := Option.map_eq_some_iff.1 h
    simp only [Prod.mk.injEq] at heq
    obtain ⟨rfl, rfl⟩ := heq
    simp [ih hb]
  | case5 c cs hq hc hd =>
    simp only [Option.some.injEq, Prod.mk.injEq] at h
    obtain ⟨rfl, rfl⟩ := h
    simpa using hd
  | case6 c cs hq hc hd depth ih =>
    obtain ⟨⟨b, r'⟩, hb, heq⟩ := Option.map_eq_some_iff.1 h
    simp only [Prod.mk.injEq] at heq
    obtain ⟨rfl, rfl⟩ := heq
    simp [ih hb]
  | case7 depth c cs hq hc hd ih =>
    obtain ⟨⟨b, r'⟩, hb, heq⟩ := Option.map_eq_some_iff.1 h
    simp only [Prod.mk.injEq] at heq
    obtain ⟨rfl, rfl⟩ := heq
    simp [ih hb]

theorem closeBlock_length_lt {depth : Nat} {cs body rest : List Char}
    (h : closeBlock depth cs = some (body, rest)) : rest.length < cs.length := by
  rw [closeBlock_eq_some h]
  simp
  omega

/-- Byte offset of the brace closing a block whose opening brace has been read. -/
def blockEnd? (cs : List Char) : Option Nat := (closeBlock 0 cs).map fun (body, _) => byteSize body

/-! ## Following the structure piece by piece -/

/-- What is known after a piece of text: the quote of the open literal, the number of open blocks,
and whether the last character was a quote that may be the first of a pair. -/
structure Tracker where
  quote : Option Char := none
  braces : Nat := 0
  pending : Bool := false
deriving DecidableEq, Repr

namespace Tracker

/-- Follow a character seen outside literals. -/
def outside (t : Tracker) (c : Char) : Tracker :=
  if c == '{' then { t with quote := none, pending := false, braces := t.braces + 1 }
  else if c == '}' then { t with quote := none, pending := false, braces := t.braces - 1 }
  else if isQuote c then { t with quote := some c, pending := false }
  else { t with quote := none, pending := false }

/-- Follow one character. -/
def step (t : Tracker) (c : Char) : Tracker :=
  match t.quote with
  | none => t.outside c
  | some q =>
    if t.pending then
      if c == q then { t with pending := false } else t.outside c
    else if c == q then { t with pending := true }
    else t

/-- Follow a piece of text. -/
def feed (t : Tracker) (cs : List Char) : Tracker := cs.foldl step t

/-- Whether the text read so far ends outside literals and blocks. -/
def isOutside (t : Tracker) : Bool := (t.quote.isNone || t.pending) && t.braces == 0

end Tracker

end QuestScript.Text
