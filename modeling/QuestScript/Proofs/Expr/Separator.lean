import QuestScript.Proofs.Expr.Lexeme

/-!
# Separators and tokens

Statements and arguments are cut at a separator by a search that only follows literals and brackets,
and the pieces are read as tokens later. A cut must not go through a token: the tokens of the whole
text are those of the two pieces with the separator between them.

The search and the reader see the same places. A lexeme starts and ends outside literals and blocks,
and no separator inside one stands outside, so a separator that the search stops at is a token of its
own (`Lexes.split`). Conversely the token of a separator starts where the text stands outside
(`Lexes.mem_separator`), and whether brackets are open there is counted by both alike.
-/

namespace QuestScript.Token

open Text (byteSize splitBytes delimiterPos? Standing)

/-- The separators and their tokens. -/
def separators : List (Char × Token) := [(',', .comma), ('&', .ampersand), (':', .colon)]

/-- A token of the kind `sep` starts at byte `p` of a text, and no bracket that was opened before it
outside literals is still open. -/
def StandsAlone (cs : List Char) (tokens : List (Token × Span)) (sep : Token) (p : Nat) : Prop :=
  ∃ span before rest, (sep, span) ∈ tokens ∧ span.start = p ∧ cs = before ++ rest ∧
    byteSize before = p ∧ (Standing.after {} before).depth.isTop = true

variable {ch : Char} {sep token : Token} {pos : Nat} {cs : List Char} {tokens : List (Token × Span)}

/-! ## Separators are tokens of their own -/

theorem isBreak_of_separator (h : (ch, sep) ∈ separators) : isBreak ch = true ∧ isSpace ch = false ∧
    Text.isQuote ch = false ∧ ch.utf8Size = 1 := by
  have hall : ∀ r ∈ separators, isBreak r.1 = true ∧ isSpace r.1 = false ∧ Text.isQuote r.1 = false ∧
      r.1.utf8Size = 1 := by decide
  exact hall _ h

/-- Separators are no brackets. -/
theorem track_separator (h : (ch, sep) ∈ separators) (d : Text.Depth) : d.track ch = d := by
  simp only [separators, List.mem_cons, Prod.mk.injEq, List.not_mem_nil, or_false] at h
  rcases h with ⟨rfl, -⟩ | ⟨rfl, -⟩ | ⟨rfl, -⟩ <;> rfl

/-- A lexeme that starts with a separator is the separator. -/
theorem Spelled.of_separator (h : (ch, sep) ∈ separators) {tail : List Char}
    (hs : Spelled ch tail token) : tail = [] ∧ token = sep := by
  have hall : ∀ r ∈ separators, symbol? r.1 none = some (r.2, false) := by decide
  obtain ⟨hdigit, hquote, hbrace, hletter⟩ := symbol?_char (hall _ h)
  cases hs with
  | number first digits value => rw [first] at hdigit; cases hdigit
  | text quote closed => rw [quote] at hquote; cases hquote
  | code closed => exact absurd rfl hbrace
  | name first letter letters => rw [letter] at hletter; cases hletter
  | symbol one =>
    rw [hall _ h] at one
    cases one
    exact ⟨rfl, rfl⟩
  | symbols two =>
    simp only [separators, List.mem_cons, Prod.mk.injEq, List.not_mem_nil, or_false] at h
    rcases h with ⟨rfl, -⟩ | ⟨rfl, -⟩ | ⟨rfl, -⟩ <;> cases two

theorem Spelled.separator (h : (ch, sep) ∈ separators) {c : Char} {tail : List Char}
    (hs : Spelled c tail sep) : c = ch ∧ tail = [] := by
  simp only [separators, List.mem_cons, Prod.mk.injEq, List.not_mem_nil, or_false] at h
  rcases h with ⟨rfl, rfl⟩ | ⟨rfl, rfl⟩ | ⟨rfl, rfl⟩ <;> cases hs with
  | symbol one =>
    unfold symbol? at one
    split at one <;> first | exact ⟨rfl, rfl⟩ | cases one
  | symbols two =>
    unfold symbol? at two
    split at two <;> cases two

/-! ## Cutting a text -/

/-- The tokens of a text that is moved. -/
def moved (n : Nat) (tokens : List (Token × Span)) : List (Token × Span) :=
  tokens.map fun t => (t.1, t.2.offset n)

/-- Where a text starts only moves the spans of its tokens. -/
theorem Lexes.of_moved {base : Nat} (h : Lexes base cs tokens) (pos n : Nat) (hbase : base = pos + n) :
    ∃ ts, Lexes pos cs ts ∧ tokens = moved n ts := by
  induction h generalizing pos with
  | nil => exact ⟨[], .nil, rfl⟩
  | @space base c cs tokens hspace hlexes ih =>
    obtain ⟨ts, hts, rfl⟩ := ih (pos + c.utf8Size) (by omega)
    exact ⟨ts, .space hspace hts, rfl⟩
  | @lexeme base c tail rest token tokens hs hstop hlexes ih =>
    obtain ⟨ts, hts, rfl⟩ := ih (pos + byteSize (c :: tail)) (by omega)
    refine ⟨_, .lexeme hs hstop hts, ?_⟩
    rw [moved, moved, List.map_cons, Span.offset, hbase, Nat.add_right_comm]

/-- White space leaves a text where it stands. -/
theorem isOutside_step_space {c : Char} (hc : isSpace c = true) {s : Standing}
    (hs : s.isOutside = true) : (s.step c).isOutside = true := by
  obtain ⟨quote, d⟩ := s
  obtain ⟨rfl, -⟩ : quote = none ∧ d.curly = 0 := Standing.isOutside_iff.mp hs
  have h' : c = ' ' ∨ c = '\t' ∨ c = '\r' ∨ c = '\n' := by simpa [isSpace, or_assoc] using hc
  rcases h' with rfl | rfl | rfl | rfl <;> exact hs

/-- **The tokens of a text** are those before a separator that stands outside literals and blocks, the
separator and those after it. -/
theorem Lexes.split (h : Lexes pos cs tokens) (hsep : (ch, sep) ∈ separators) {s : Standing}
    (hs : s.isOutside = true) {before after : List Char} (hcs : cs = before ++ ch :: after)
    (hout : (s.after before).isOutside = true) :
    ∃ ts ts', Lexes pos before ts ∧ Lexes (pos + byteSize before + 1) after ts' ∧
      tokens = ts ++ (sep, ⟨pos + byteSize before, pos + byteSize before + 1⟩) :: ts' := by
  obtain ⟨hbreak, hnospace, -, hsize⟩ := isBreak_of_separator hsep
  induction h generalizing s before with
  | nil => simp at hcs
  | @space pos c cs tokens hspace hlexes ih =>
    cases before with
    | nil =>
      cases hcs
      rw [hspace] at hnospace
      cases hnospace
    | cons x before =>
      simp only [List.cons_append, List.cons.injEq] at hcs
      obtain ⟨rfl, rfl⟩ := hcs
      obtain ⟨ts, ts', hts, hts', htokens⟩ := ih (isOutside_step_space hspace hs) rfl hout
      rw [Nat.add_assoc pos, ← Text.byteSize_cons] at hts' htokens
      exact ⟨ts, ts', .space hspace hts, hts', htokens⟩
  | @lexeme pos c tail rest token tokens hspelled hstop hlexes ih =>
    cases before with
    | nil =>
      cases hcs
      obtain ⟨rfl, rfl⟩ := Spelled.of_separator hsep hspelled
      simp only [Text.byteSize_cons, Text.byteSize_nil, hsize, Nat.add_zero] at hlexes ⊢
      exact ⟨[], tokens, .nil, hlexes, rfl⟩
    | cons x before =>
      simp only [List.cons_append, List.cons.injEq] at hcs
      obtain ⟨rfl, hcs⟩ := hcs
      -- no separator inside the lexeme stands outside, so this one comes after it
      obtain ⟨between, rfl, rfl⟩ :
          ∃ between, before = tail ++ between ∧ rest = between ++ ch :: after := by
        rcases append_eq_append_cons hcs with hlater | ⟨part, htail⟩
        · exact hlater
        · rw [hspelled.isOutside_within hbreak hs htail] at hout
          cases hout
      rw [← List.cons_append, Standing.after_append] at hout
      obtain ⟨ts, ts', hts, hts', htokens⟩ := ih (hspelled.isOutside hs) rfl hout
      have hbefore : pos + byteSize (c :: tail) + byteSize between
          = pos + byteSize (c :: (tail ++ between)) := by
        simp [Nat.add_assoc]
      rw [hbefore] at hts' htokens
      refine ⟨_ :: ts, ts', .lexeme hspelled ?_ hts, hts', by rw [htokens, List.cons_append]⟩
      intro y hy
      cases between with
      | nil => cases hy
      | cons b bs => exact hstop y (by simpa using hy)

/-- The token of a separator starts where the text stands outside literals and blocks. -/
theorem Lexes.mem_separator (h : Lexes pos cs tokens) (hsep : (ch, sep) ∈ separators) {s : Standing}
    (hs : s.isOutside = true) {span : Span} (hmem : (sep, span) ∈ tokens) :
    ∃ before after, cs = before ++ ch :: after ∧ span.start = pos + byteSize before ∧
      (s.after before).isOutside = true := by
  induction h generalizing s with
  | nil => cases hmem
  | @space pos c cs tokens hspace hlexes ih =>
    obtain ⟨before, after, rfl, hstart, hout⟩ := ih (isOutside_step_space hspace hs) hmem
    exact ⟨c :: before, after, rfl, by rw [hstart, Text.byteSize_cons, Nat.add_assoc], hout⟩
  | @lexeme pos c tail rest token tokens hspelled hstop hlexes ih =>
    rcases List.mem_cons.mp hmem with heq | hmem
    · cases heq
      obtain ⟨rfl, rfl⟩ := hspelled.separator hsep
      exact ⟨[], rest, rfl, rfl, hs⟩
    · obtain ⟨before, after, rfl, hstart, hout⟩ := ih (hspelled.isOutside hs) hmem
      refine ⟨c :: (tail ++ before), after, by simp, ?_, by simpa using hout⟩
      rw [hstart, Nat.add_assoc, ← Text.byteSize_append, List.cons_append]

/-! ## The search and the reader agree -/

/-- Where the search may stop, the text is cut between tokens. -/
theorem split_of_mem_places (h : tokenize cs = .ok tokens) (hsep : (ch, sep) ∈ separators) {p : Nat}
    (hp : p ∈ Standing.places {} ch cs) :
    ∃ before after ts ts', cs = before ++ ch :: after ∧ byteSize before = p ∧
      (Standing.after {} before).depth.isTop = true ∧ tokenize before = .ok ts ∧
      tokenize after = .ok ts' ∧ tokens = ts ++ (sep, ⟨p, p + 1⟩) :: moved (p + 1) ts' := by
  obtain ⟨before, after, hcs, rfl, hquote, htop⟩ := hp
  rw [track_separator hsep] at htop
  have hout : (Standing.after {} before).isOutside = true := by
    simp only [Text.Depth.isTop, Bool.and_eq_true, beq_iff_eq] at htop
    exact Standing.isOutside_iff.mpr ⟨hquote, htop.2⟩
  obtain ⟨ts, later, hts, hlater, htokens⟩ :=
    (tokenize_eq_ok_iff.mp h).split hsep (s := {}) rfl hcs hout
  obtain ⟨ts', hts', rfl⟩ := hlater.of_moved 0 (byteSize before + 1) (by omega)
  rw [Nat.zero_add] at htokens
  exact ⟨before, after, ts, ts', hcs, rfl, htop, tokenize_eq_ok_iff.mpr hts,
    tokenize_eq_ok_iff.mpr hts', htokens⟩

/-- The tokens of a separator outside brackets start where the search may stop. -/
theorem standsAlone_iff (h : tokenize cs = .ok tokens) (hsep : (ch, sep) ∈ separators) {p : Nat} :
    StandsAlone cs tokens sep p ↔ p ∈ Standing.places {} ch cs := by
  constructor
  · rintro ⟨span, before, rest, hmem, rfl, hcs, hsize, htop⟩
    obtain ⟨before', after, hcs', hstart, hout⟩ :=
      (tokenize_eq_ok_iff.mp h).mem_separator hsep (s := {}) rfl hmem
    -- the two ways to cut the text at the start of the token are the same
    have hcut : some (before, rest) = some (before', ch :: after) := by
      rw [← Text.splitBytes_append before rest, ← Text.splitBytes_append before', ← hcs, ← hcs', hsize,
        hstart, Nat.zero_add]
    cases hcut
    refine ⟨before, after, hcs, hsize, (Standing.isOutside_iff.mp hout).1, ?_⟩
    rw [track_separator hsep]
    exact htop
  · intro hp
    obtain ⟨before, after, ts, ts', hcs, hsize, htop, -, -, htokens⟩ := split_of_mem_places h hsep hp
    refine ⟨⟨p, p + 1⟩, before, ch :: after, ?_, rfl, hcs, hsize, htop⟩
    rw [htokens]
    exact List.mem_append_right ts List.mem_cons_self

/-- **The search for a separator and the reader of tokens agree.** In a text that is read as tokens, the
separator that is found is a token of its own, with the tokens of the two pieces around it; it is the
first token of its kind outside all brackets; and none is found only if there is no such token. -/
theorem delimiterPos?_agrees_tokenize (h : tokenize cs = .ok tokens)
    (hsep : (ch, sep) ∈ separators) :
    (∀ p, delimiterPos? cs ch = some p →
      ∃ before after ts ts', splitBytes cs p = some (before, ch :: after) ∧
        tokenize before = .ok ts ∧ tokenize after = .ok ts' ∧
        tokens = ts ++ (sep, ⟨p, p + 1⟩) :: moved (p + 1) ts') ∧
    (∀ p, delimiterPos? cs ch = some p ↔ IsLeast {p | StandsAlone cs tokens sep p} p) ∧
    (delimiterPos? cs ch = none ↔ ∀ p, ¬ StandsAlone cs tokens sep p) := by
  have hquote := (isBreak_of_separator hsep).2.2.1
  have hplaces : {p | StandsAlone cs tokens sep p} = Standing.places {} ch cs :=
    Set.ext fun p => standsAlone_iff h hsep
  refine ⟨?_, ?_, ?_⟩
  · intro p hp
    obtain ⟨before, after, ts, ts', hcs, rfl, -, hts, hts', htokens⟩ :=
      split_of_mem_places h hsep ((Text.delimiterPos?_eq_some_iff hquote).mp hp).1
    refine ⟨before, after, ts, ts', ?_, hts, hts', htokens⟩
    rw [hcs]
    exact Text.splitBytes_append before (ch :: after)
  · intro p
    rw [hplaces]
    exact Text.delimiterPos?_eq_some_iff hquote
  · rw [Text.delimiterPos?_eq_none_iff hquote, ← hplaces]
    exact Set.eq_empty_iff_forall_notMem

/-- The comma between `f(1, 'a,b')` and `2` is found, not the one in the brackets or in the literal. -/
theorem delimiterPos?_agrees_tokenize_sample :
    let cs := "f(1, 'a,b'), 2".toList
    ∃ tokens, tokenize cs = .ok tokens ∧ delimiterPos? cs ',' = some 11 ∧
      IsLeast {p | StandsAlone cs tokens .comma p} 11 := by
  have hread : tokenize "f(1, 'a,b'), 2".toList = .ok
      [(.name "f", ⟨0, 1⟩), (.openRound, ⟨1, 2⟩), (.number 1, ⟨2, 3⟩), (.comma, ⟨3, 4⟩),
        (.text "a,b", ⟨5, 10⟩), (.closeRound, ⟨10, 11⟩), (.comma, ⟨11, 12⟩), (.number 2, ⟨13, 14⟩)] := by
    decide +kernel
  have hfind : delimiterPos? "f(1, 'a,b'), 2".toList ',' = some 11 := by decide +kernel
  exact ⟨_, hread, hfind, ((delimiterPos?_agrees_tokenize hread (by decide)).2.1 11).mp hfind⟩

end QuestScript.Token
