import QuestScript.Proofs.Expr.Separator
import QuestScript.Proofs.Text.Nest

/-!
# Brackets of tokens

In a text whose brackets are closed in the right order, the tokens are too: what a lexeme does to the
brackets still to be closed is what its token does (`Spelled.nest`). Brackets inside blocks are closed
there, so only the brackets that are tokens are left.

A comma that stands outside all brackets of the text is a token outside all brackets of the tokens
(`Lexes.topComma_iff`).
-/

namespace QuestScript

namespace Text.Nest

theorem step_of_not_isDelimiter {c : Char} (h : isDelimiter c = false) (l : List Char) :
    step ⟨none, l⟩ c = some ⟨none, l⟩ := by
  have hq := isQuote_of_not_isDelimiter h
  have hne : ∀ x ∈ delimiters, ¬ (c == x) = true := by
    intro x hx hcx
    obtain rfl : c = x := by simpa using hcx
    rw [show isDelimiter c = true by simpa [isDelimiter] using hx] at h
    cases h
  have hopen : closerOf? c = none := by
    rw [closerOf?, if_neg (hne _ (by decide)), if_neg (hne _ (by decide)), if_neg (hne _ (by decide))]
  have hclose : isCloser c = false := by
    simp only [isCloser, Bool.or_eq_false_iff]
    exact ⟨⟨by simpa using hne ')' (by decide), by simpa using hne ']' (by decide)⟩,
      by simpa using hne '}' (by decide)⟩
  simp [step, hq, hopen, hclose]

theorem after_of_not_isDelimiter {cs : List Char} (h : ∀ c ∈ cs, isDelimiter c = false) (l : List Char) :
    after ⟨none, l⟩ cs = some ⟨none, l⟩ := by
  induction cs with
  | nil => rfl
  | cons c cs ih =>
    rw [after_cons, step_of_not_isDelimiter (h c (by simp)), Option.bind_some]
    exact ih fun x hx => h x (by simp [hx])

end Text.Nest

namespace Token

open Text (Nest Standing byteSize isCloser isDelimiter isQuote closeQuote closeBlock)

/-- The brackets still to be closed after a token, unless it closes one that does not fit. -/
def nest (l : List Char) : Token → Option (List Char)
  | openRound => some (')' :: l)
  | openSquare => some (']' :: l)
  | closeRound => if l.head? = some ')' then some l.tail else none
  | closeSquare => if l.head? = some ']' then some l.tail else none
  | _ => some l

/-- The brackets still to be closed after some tokens. -/
def nestAll (l : List Char) (tokens : List Token) : Option (List Char) := tokens.foldlM nest l

theorem nestAll_cons (l : List Char) (token : Token) (tokens : List Token) :
    nestAll l (token :: tokens) = (nest l token).bind (nestAll · tokens) := List.foldlM_cons

/-- Whether a comma stands outside all brackets. -/
def topComma (l : List Char) : List Token → Bool
  | [] => false
  | token :: tokens => token == .comma && l.isEmpty || (nest l token).any (topComma · tokens)

variable {c : Char} {cs tail l : List Char} {token : Token} {pos : Nat} {tokens : List (Token × Span)}

theorem Spelled.nest (hs : Spelled c tail token) {n : Nest} (h : Nest.after ⟨none, l⟩ (c :: tail) = some n) :
    ∃ l', Token.nest l token = some l' ∧ n = ⟨none, l'⟩ := by
  cases hs with
  | number first digits value =>
    have hall : ∀ x ∈ c :: tail, isDelimiter x = false := by
      rintro x (_ | ⟨_, hx⟩)
      · exact isDelimiter_of_isDigit first
      · exact isDelimiter_of_isDigit (digits x hx)
    rw [Nest.after_of_not_isDelimiter hall] at h
    cases h
    exact ⟨l, rfl, rfl⟩
  | text quote closed =>
    rw [Nest.after_cons, Nest.step_quote quote, Option.bind_some, Nest.after_closeQuote quote l closed] at h
    cases h
    exact ⟨l, rfl, rfl⟩
  | code closed => exact ⟨l, rfl, Nest.after_closeBlock (u := []) closed rfl h⟩
  | name first letter letters =>
    have hall : ∀ x ∈ c :: tail, isDelimiter x = false := by
      rintro x (_ | ⟨_, hx⟩)
      · exact isDelimiter_of_isNameChar letter
      · exact isDelimiter_of_isNameChar (letters x hx)
    rw [Nest.after_of_not_isDelimiter hall] at h
    cases h
    exact ⟨l, rfl, rfl⟩
  | symbol one =>
    have hclose : ∀ x, isCloser x = true → Nest.after ⟨none, l⟩ [x] = some n →
        l.head? = some x ∧ n = ⟨none, l.tail⟩ := by
      rintro x hx h
      rw [Nest.after_cons] at h
      obtain ⟨n₁, h₁, h₂⟩ := Option.bind_eq_some_iff.mp h
      cases h₂
      obtain ⟨rest, rfl, rfl⟩ := Nest.step_closer hx h₁
      exact ⟨rfl, rfl⟩
    unfold symbol? at one
    split at one
    all_goals first
      | cases one
        done
      | cases one
        cases h
        exact ⟨_, rfl, rfl⟩
      | cases one
        obtain ⟨hhead, rfl⟩ := hclose _ (by decide) h
        exact ⟨_, if_pos hhead, rfl⟩
  | symbols two =>
    unfold symbol? at two
    split at two <;> cases two <;> rename_i hnext <;> cases hnext <;> cases h <;> exact ⟨l, rfl, rfl⟩

/-- White space has no brackets. -/
theorem nest_space (h : isSpace c = true) : Nest.step ⟨none, l⟩ c = some ⟨none, l⟩ := by
  have h' : c = ' ' ∨ c = '\t' ∨ c = '\r' ∨ c = '\n' := by simpa [isSpace, or_assoc] using h
  rcases h' with rfl | rfl | rfl | rfl <;> rfl

/-- A text whose brackets can be followed has tokens whose brackets can. -/
theorem Lexes.nestAll (h : Lexes pos cs tokens) {n : Nest} (hn : Nest.after ⟨none, l⟩ cs = some n) :
    ∃ l', Token.nestAll l (tokens.map (·.1)) = some l' ∧ n = ⟨none, l'⟩ := by
  induction h generalizing l with
  | nil =>
    cases hn
    exact ⟨l, rfl, rfl⟩
  | space hspace _ ih =>
    rw [Nest.after_cons, nest_space hspace] at hn
    exact ih hn
  | lexeme hs _ _ ih =>
    rw [← List.cons_append] at hn
    obtain ⟨n₁, h₁, h₂⟩ := Nest.exists_after_of_append hn
    obtain ⟨l₁, hl₁, rfl⟩ := hs.nest h₁
    obtain ⟨l', hl', hn'⟩ := ih h₂
    refine ⟨l', ?_, hn'⟩
    rw [List.map_cons, nestAll_cons, hl₁]
    exact hl'

theorem nest_closers {l' : List Char} (hl : ∀ x ∈ l, x = ')' ∨ x = ']') (h : nest l token = some l') :
    ∀ x ∈ l', x = ')' ∨ x = ']' := by
  cases token with
  | openRound | openSquare =>
    cases h
    exact List.forall_mem_cons.mpr ⟨by decide, hl⟩
  | closeRound | closeSquare =>
    simp only [nest] at h
    split at h
    · cases h
      exact fun x hx => hl x (List.mem_of_mem_tail hx)
    · cases h
  | _ =>
    cases h
    exact hl

theorem depth_isTop_iff (hl : ∀ x ∈ l, x = ')' ∨ x = ']') : (Nest.depth l).isTop = true ↔ l = [] := by
  constructor
  · intro h
    cases l with
    | nil => rfl
    | cons x l =>
      rcases hl x List.mem_cons_self with rfl | rfl
      all_goals simp [Nest.depth, Text.Depth.isTop] at h
  · rintro rfl
    rfl

/-- Inside a lexeme no comma stands outside literals and brackets. -/
theorem Spelled.not_topComma (hs : Spelled c tail token) (hl : ∀ x ∈ l, x = ')' ∨ x = ']') {before rest : List Char}
    (htail : tail = before ++ ',' :: rest) :
    ¬ ((Standing.after ⟨none, Nest.depth l⟩ (c :: before)).quote = none ∧
      (Standing.after ⟨none, Nest.depth l⟩ (c :: before)).depth.isTop = true) := by
  rintro ⟨hquote, htop⟩
  -- the tokens know nothing of braces, so none is open where a lexeme starts
  have hstart : (Standing.mk none (Nest.depth l)).isOutside = true := by
    refine Standing.isOutside_iff.mpr ⟨rfl, List.count_eq_zero.mpr fun hmem => ?_⟩
    exact absurd (hl _ hmem) (by decide)
  have hout : (Standing.after ⟨none, Nest.depth l⟩ (c :: before)).isOutside = true := by
    rw [Text.Depth.isTop_iff] at htop
    exact Standing.isOutside_iff.mpr ⟨hquote, by rw [htop]⟩
  rw [hs.isOutside_within rfl hstart htail] at hout
  cases hout

/-- **A comma that stands outside literals and brackets is a token outside all brackets.** -/
theorem Lexes.topComma_iff (h : Lexes pos cs tokens) (hl : ∀ x ∈ l, x = ')' ∨ x = ']') {n : Nest}
    (hn : Nest.after ⟨none, l⟩ cs = some n) :
    (∃ before after, cs = before ++ ',' :: after ∧ (Standing.after ⟨none, Nest.depth l⟩ before).quote = none ∧
      (Standing.after ⟨none, Nest.depth l⟩ before).depth.isTop = true) ↔
    topComma l (tokens.map (·.1)) = true := by
  induction h generalizing l with
  | nil => simp [topComma]
  | @space pos c cs tokens hspace hlexes ih =>
    rw [Nest.after_cons, nest_space hspace] at hn
    rw [← ih hl hn]
    have hstep : Standing.step ⟨none, Nest.depth l⟩ c = ⟨none, Nest.depth l⟩ :=
      Nest.standing_step (n := ⟨none, l⟩) (nest_space hspace)
    constructor
    · rintro ⟨before, after, hcs, hout⟩
      cases before with
      | nil =>
        cases hcs
        cases hspace
      | cons x before =>
        obtain ⟨rfl, rfl⟩ := List.cons.inj hcs
        rw [Standing.after_cons, hstep] at hout
        exact ⟨before, after, rfl, hout⟩
    · rintro ⟨before, after, rfl, hout⟩
      refine ⟨c :: before, after, rfl, ?_⟩
      rwa [Standing.after_cons, hstep]
  | @lexeme pos c tail rest token tokens hs hstop hlexes ih =>
    rw [← List.cons_append] at hn
    obtain ⟨n₁, h₁, h₂⟩ := Nest.exists_after_of_append hn
    obtain ⟨l₁, hl₁, rfl⟩ := hs.nest h₁
    have hstanding : Standing.after ⟨none, Nest.depth l⟩ (c :: tail) = ⟨none, Nest.depth l₁⟩ :=
      Nest.standing_after h₁
    -- a comma at the start of the text is this lexeme; further on it is one of the others
    have hcomma : (',', comma) ∈ separators := by decide
    show _ ↔ (token == comma && l.isEmpty || (Token.nest l token).any (topComma · (tokens.map (·.1)))) = true
    rw [hl₁, Option.any_some, Bool.or_eq_true, ← ih (nest_closers hl hl₁) h₂]
    constructor
    · rintro ⟨before, after, hcs, hquote, htop⟩
      cases before with
      | nil =>
        obtain ⟨rfl, -⟩ := List.cons.inj hcs
        obtain ⟨-, rfl⟩ := Spelled.of_separator hcomma hs
        rw [(depth_isTop_iff hl).mp htop]
        exact .inl rfl
      | cons x before =>
        simp only [List.cons_append, List.cons.injEq] at hcs
        obtain ⟨rfl, hcs⟩ := hcs
        -- behind the lexeme, or within it, where no comma stands outside
        rcases append_eq_append_cons hcs with ⟨between, rfl, rfl⟩ | ⟨part, htail⟩
        · refine .inr ⟨between, after, rfl, ?_⟩
          rw [← hstanding, ← Standing.after_append]
          exact ⟨hquote, htop⟩
        · exact absurd ⟨hquote, htop⟩ (hs.not_topComma hl htail)
    · rintro (hhere | ⟨between, after, rfl, hout⟩)
      · rw [Bool.and_eq_true, beq_iff_eq, List.isEmpty_iff] at hhere
        obtain ⟨rfl, rfl⟩ := hhere
        obtain ⟨rfl, rfl⟩ := hs.separator hcomma
        exact ⟨[], rest, rfl, rfl, rfl⟩
      · refine ⟨c :: (tail ++ between), after, by simp, ?_⟩
        rwa [← List.cons_append, Standing.after_append, hstanding]

end Token

end QuestScript
