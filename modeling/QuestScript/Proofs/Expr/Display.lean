import QuestScript.Proofs.Expr.Lexeme
import QuestScript.Proofs.Value.Number

/-!
# Writing tokens and reading them again

The tokens of a text lie in it one after the other with white space between them
(`Lexes.exists_part`, `Lexes.ordered`, `Lexes.isSpace`).

How a token is written need not be how it was spelled: a literal is written between single quotes
whatever its quotes were, a number without leading zeros, `!` and `=<` as `<>` and `<=`. But what is
written spells the token again (`Spelled.display`), and a space never prolongs a lexeme, so the tokens
written with spaces between them are read as the same tokens (`lexes_joined`).
-/

namespace QuestScript

theorem Text.byteSize_pos {cs : List Char} (h : cs ≠ []) : 0 < byteSize cs := by
  cases cs with
  | nil => exact absurd rfl h
  | cons c cs => exact Nat.add_pos_left (Char.utf8Size_pos c) _

/-! ## Literals -/

namespace Text

/-- Quotes that are doubled do not close a literal. -/
theorem quoted_doubleQuotes (q : Char) (cs : List Char) : Quoted q (doubleQuotes q cs) := by
  induction cs with
  | nil => exact .nil
  | cons c cs ih =>
    unfold doubleQuotes
    split
    · next hc =>
      obtain rfl : c = q := beq_iff_eq.mp hc
      exact .double ih
    · next hc => exact .char (by simpa using hc) ih

theorem closeQuote_doubleQuotes (q : Char) (cs : List Char) {rest : List Char} (hr : rest.head? ≠ some q) :
    closeQuote q (doubleQuotes q cs ++ q :: rest) = some (doubleQuotes q cs, rest) :=
  (quoted_doubleQuotes q cs).closeQuote_append hr

theorem mem_doubleQuotes {q c : Char} {cs : List Char} : c ∈ doubleQuotes q cs ↔ c ∈ cs := by
  induction cs with
  | nil => rfl
  | cons d cs ih =>
    rw [doubleQuotes]
    split
    · simp [ih]
    · simp [ih]

/-- Doubled quotes stand for the quotes that were doubled. -/
theorem unquote_doubleQuotes (q : Char) (cs : List Char) : unquote q (doubleQuotes q cs) = cs := by
  induction cs with
  | nil => rfl
  | cons c cs ih =>
    by_cases hc : (c == q) = true
    · rw [doubleQuotes, if_pos hc, unquote, if_pos (by simpa using hc), ih]
      rw [beq_iff_eq.mp hc]
    · rw [doubleQuotes, if_neg hc]
      cases hd : doubleQuotes q cs with
      | nil =>
        rw [hd] at ih
        rw [← ih]
        rfl
      | cons d ds =>
        rw [unquote, if_neg (by simp [hc]), ← hd, ih]

end Text

namespace Token

open Text (byteSize)

variable {c : Char} {tail cs : List Char} {token : Token} {pos : Nat} {tokens : List (Token × Span)}

/-- **What is written for a token spells it.** -/
theorem Spelled.display (hs : Spelled c tail token) :
    ∃ c' tail', token.display.toList = c' :: tail' ∧ Spelled c' tail' token := by
  cases hs with
  | @number _ _ n first digits value =>
    have hall : Number.IsDigits (c :: tail) := by
      refine ⟨List.cons_ne_nil _ _, ?_⟩
      rintro d (_ | ⟨_, hd⟩)
      · exact first
      · exact digits d hd
    have hnonneg : 0 ≤ n.toInt := by
      rw [hall.read?_eq_some_iff.mp value]
      exact Int.natCast_nonneg _
    obtain ⟨hne, hdigits⟩ := Number.isDigits_text hnonneg
    have hread := Number.read?_text n
    obtain ⟨c', tail', htext⟩ := List.exists_cons_of_ne_nil hne
    rw [htext] at hdigits hread
    exact ⟨c', tail', htext, .number (hdigits c' (by simp)) (fun d hd => hdigits d (by simp [hd])) hread⟩
  | @text q body quote closed =>
    refine ⟨'\'', Text.doubleQuotes '\'' (Text.unquote c body) ++ ['\''],
      by simp [Token.display, Text.singleQuoted], ?_⟩
    have hspelled := Spelled.text (by decide)
      (Text.closeQuote_doubleQuotes '\'' (Text.unquote c body) (by simp : [].head? ≠ some '\''))
    rwa [Text.unquote_doubleQuotes] at hspelled
  | @code body closed => exact ⟨'{', body ++ ['}'], by simp [Token.display], .code closed⟩
  | name first letter letters => exact ⟨c, tail, String.toList_ofList, .name first letter letters⟩
  | symbol one =>
    unfold symbol? at one
    split at one <;> cases one <;> first | exact ⟨_, _, rfl, .symbol rfl⟩ | exact ⟨_, _, rfl, .symbols rfl⟩
  | symbols two =>
    unfold symbol? at two
    split at two <;> cases two <;> exact ⟨_, _, rfl, .symbols rfl⟩

/-! ## Tokens in a row -/

/-- Written with spaces between them, tokens are read as they were. -/
theorem lexes_joined {ts : List Token} (h : ∀ t ∈ ts, ∃ c tail, Spelled c tail t) (pos : Nat) :
    ∃ tokens, Lexes pos ([' '].intercalate (ts.map fun t => t.display.toList)) tokens ∧
      tokens.map (·.1) = ts := by
  induction ts generalizing pos with
  | nil => exact ⟨[], .nil, rfl⟩
  | cons t ts ih =>
    obtain ⟨c, tail, hs⟩ := h t List.mem_cons_self
    obtain ⟨c', tail', hdisplay, hs'⟩ := hs.display
    have hrest : ∀ t ∈ ts, ∃ c tail, Spelled c tail t := fun u hu => h u (List.mem_cons_of_mem t hu)
    cases ts with
    | nil =>
      have hlexeme : Lexes pos (c' :: (tail' ++ [])) _ := .lexeme hs' (by simp) .nil
      refine ⟨[(t, ⟨pos, pos + byteSize (c' :: tail')⟩)], ?_, rfl⟩
      rw [List.map_cons, List.map_nil, List.intercalate_singleton, hdisplay]
      simpa using hlexeme
    | cons u us =>
      obtain ⟨tokens, hlexes, htokens⟩ := ih hrest (pos + byteSize (c' :: tail') + ' '.utf8Size)
      have hspace : Lexes _ (' ' :: _) tokens := .space (by decide) hlexes
      have hlexeme := Lexes.lexeme hs' (fun x hx => hs'.not_prolongs (by cases hx; decide)) hspace
      refine ⟨(t, ⟨pos, pos + byteSize (c' :: tail')⟩) :: tokens, ?_, by rw [List.map_cons, htokens]⟩
      rw [List.map_cons, hdisplay, List.intercalate_cons_of_ne_nil (by simp)]
      simpa using hlexeme

/-! ## Tokens in their text -/

/-- Each token covers a part of the text that is not empty. -/
theorem Lexes.exists_part (h : Lexes pos cs tokens) {t : Token × Span} (ht : t ∈ tokens) :
    ∃ before part after, cs = before ++ part ++ after ∧ part ≠ [] ∧
      t.2 = ⟨pos + byteSize before, pos + byteSize before + byteSize part⟩ := by
  induction h with
  | nil => cases ht
  | @space pos c cs tokens hspace hlexes ih =>
    obtain ⟨before, part, after, rfl, hne, hspan⟩ := ih ht
    exact ⟨c :: before, part, after, rfl, hne, by rw [hspan, Text.byteSize_cons, Nat.add_assoc]⟩
  | @lexeme pos c tail rest token tokens hs hstop hlexes ih =>
    rcases List.mem_cons.mp ht with rfl | ht
    · exact ⟨[], c :: tail, rest, rfl, by simp, rfl⟩
    · obtain ⟨before, part, after, rfl, hne, hspan⟩ := ih ht
      refine ⟨c :: tail ++ before, part, after, by simp, hne, ?_⟩
      rw [hspan, Text.byteSize_append, Nat.add_assoc pos]

theorem Lexes.exists_spelled (h : Lexes pos cs tokens) {t : Token × Span} (ht : t ∈ tokens) :
    ∃ c tail, Spelled c tail t.1 := by
  induction h with
  | nil => cases ht
  | space hspace hlexes ih => exact ih ht
  | lexeme hs hstop hlexes ih =>
    rcases List.mem_cons.mp ht with rfl | ht
    · exact ⟨_, _, hs⟩
    · exact ih ht

/-- The tokens come one after the other. -/
theorem Lexes.ordered (h : Lexes pos cs tokens) :
    tokens.Pairwise fun a b => a.2.stop ≤ b.2.start := by
  induction h with
  | nil => exact .nil
  | space hspace hlexes ih => exact ih
  | lexeme hs hstop hlexes ih =>
    refine .cons ?_ ih
    intro t ht
    obtain ⟨before, part, after, -, -, hspan⟩ := hlexes.exists_part ht
    rw [hspan]
    exact Nat.le_add_right _ _

/-- A character that no token covers is white space. -/
theorem Lexes.isSpace (h : Lexes pos cs tokens) {before after : List Char} {x : Char}
    (hcs : cs = before ++ x :: after)
    (hx : ∀ t ∈ tokens, pos + byteSize before < t.2.start ∨ t.2.stop ≤ pos + byteSize before) :
    isSpace x = true := by
  induction h generalizing before with
  | nil => simp at hcs
  | @space pos c cs tokens hspace hlexes ih =>
    cases before with
    | nil => cases hcs; exact hspace
    | cons y before =>
      simp only [List.cons_append, List.cons.injEq] at hcs
      refine ih hcs.2 ?_
      rwa [hcs.1, Nat.add_assoc, ← Text.byteSize_cons]
  | @lexeme pos c tail rest token tokens hs hstop hlexes ih =>
    rw [← List.cons_append] at hcs
    rcases append_eq_append_cons hcs with ⟨between, rfl, rfl⟩ | ⟨part, hpart⟩
    · refine ih rfl ?_
      intro t ht
      have ht := hx t (List.mem_cons_of_mem _ ht)
      rwa [Text.byteSize_append, ← Nat.add_assoc] at ht
    · -- the lexeme would cover the character
      have hpos := Char.utf8Size_pos x
      have hsize : byteSize (c :: tail) = byteSize before + (x.utf8Size + byteSize part) := by
        rw [hpart, Text.byteSize_append, Text.byteSize_cons]
      have hhead := hx _ List.mem_cons_self
      dsimp only at hhead
      omega

/-- **Tokens written and read again.** The tokens of a text cover parts of it that are not empty, in
order and without overlap, and white space is all that is left; and the tokens, written with single
spaces between them, are read as the same tokens. -/
theorem tokenize_display (h : tokenize cs = .ok tokens) :
    (∀ t ∈ tokens, ∃ before part after, cs = before ++ part ++ after ∧ part ≠ [] ∧
      t.2 = ⟨byteSize before, byteSize (before ++ part)⟩ ∧ t.2.start < t.2.stop) ∧
    (tokens.Pairwise fun a b => a.2.stop ≤ b.2.start) ∧
    (∀ before x after, cs = before ++ x :: after →
      (∀ t ∈ tokens, byteSize before < t.2.start ∨ t.2.stop ≤ byteSize before) → isSpace x = true) ∧
    ∃ tokens', tokenize (" ".intercalate (tokens.map fun t => t.1.display)).toList = .ok tokens' ∧
      tokens'.map (·.1) = tokens.map (·.1) := by
  have hlexes := tokenize_eq_ok_iff.mp h
  refine ⟨?_, hlexes.ordered, ?_, ?_⟩
  · intro t ht
    obtain ⟨before, part, after, hcs, hne, hspan⟩ := hlexes.exists_part ht
    rw [Nat.zero_add, ← Text.byteSize_append] at hspan
    refine ⟨before, part, after, hcs, hne, hspan, ?_⟩
    have hpos : 0 < byteSize part := Text.byteSize_pos hne
    simp only [hspan, Text.byteSize_append]
    omega
  · intro before x after hcs hx
    exact hlexes.isSpace hcs (by simpa using hx)
  · have hspelled : ∀ t ∈ tokens.map (·.1), ∃ c tail, Spelled c tail t := by
      intro t ht
      obtain ⟨u, hu, rfl⟩ := List.mem_map.mp ht
      exact hlexes.exists_spelled hu
    obtain ⟨tokens', hlexes', htokens'⟩ := lexes_joined hspelled 0
    refine ⟨tokens', tokenize_eq_ok_iff.mpr ?_, htokens'⟩
    rw [String.toList_intercalate]
    simpa [Function.comp_def] using hlexes'

/-- A literal in double quotes, leading zeros and `!` are written in other ways and read the same. -/
theorem tokenize_display_sample :
    ∃ tokens, tokenize "\"it's\"! 007".toList = .ok tokens ∧
      ∃ tokens', tokenize "'it''s' <> 7".toList = .ok tokens' ∧
        tokens'.map (·.1) = tokens.map (·.1) := by
  have hread : tokenize "\"it's\"! 007".toList
      = .ok [(.text "it's", ⟨0, 6⟩), (.notEqual, ⟨6, 7⟩), (.number 7, ⟨8, 11⟩)] := by decide +kernel
  exact ⟨_, hread, (tokenize_display hread).2.2.2⟩

end Token

end QuestScript
