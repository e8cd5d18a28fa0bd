import QuestScript.Proofs.Expr.Scan
import QuestScript.Proofs.Text.Standing

/-!
# Lexemes

What it means to read one token. `Token.Spelled` says which characters spell a token, and
`Token.prolongs` which next character would make such a lexeme longer. Reading a token takes a lexeme
that spells it and that the next character does not prolong, and nothing else (`read_eq_ok_iff`). So a
lexeme is read in the same way whatever follows, unless that prolongs it.

A lexeme leaves a text outside literals and blocks if it starts there (`Spelled.isOutside`), and no
separator in it stands outside (`Spelled.isOutside_within`).

`Token.Lexes` says the same of a whole text: lexemes with white space between them. The texts that are
read are these (`tokenizeFrom_eq_ok_iff`), so what is true of all of them is shown by induction on it.
-/

namespace QuestScript.Token

open Text (isQuote isDelimiter byteSize closeQuote closeBlock Standing)

/-! ## What spells a token -/

/-- The characters `c :: tail` spell a token. -/
inductive Spelled : Char → List Char → Token → Prop
  | number {c : Char} {tail : List Char} {n : Number} (first : Number.isDigit c = true)
      (digits : ∀ x ∈ tail, Number.isDigit x = true) (value : Number.read? (c :: tail) = some n) :
      Spelled c tail (.number n)
  | text {q : Char} {body : List Char} (quote : isQuote q = true)
      (closed : closeQuote q (body ++ [q]) = some (body, [])) :
      Spelled q (body ++ [q]) (.text (String.ofList (Text.unquote q body)))
  | code {body : List Char} (closed : closeBlock 0 (body ++ ['}']) = some (body, [])) :
      Spelled '{' (body ++ ['}']) (.code (String.ofList body))
  | name {c : Char} {tail : List Char} (first : Number.isDigit c = false) (letter : isNameChar c = true)
      (letters : ∀ x ∈ tail, isNameChar x = true) : Spelled c tail (.name (String.ofList (c :: tail)))
  | symbol {c : Char} {token : Token} (one : symbol? c none = some (token, false)) :
      Spelled c [] token
  | symbols {c d : Char} {token : Token} (two : symbol? c (some d) = some (token, true)) :
      Spelled c [d] token

/-- Whether the character `next` makes a lexeme longer that starts with `c` and spells a token. -/
def prolongs (c : Char) (token : Token) (next : Char) : Bool :=
  match token with
  | .number _ => Number.isDigit next
  | .text _ => next == c
  | .name _ => isNameChar next
  | .less => next == '>' || next == '='
  | .greater => next == '='
  | .equal => next == '<' || next == '>'
  | _ => false

@[simp] theorem prolongs_text (c x : Char) (s : String) : prolongs c (.text s) x = (x == c) := rfl

@[simp] theorem prolongs_less (c x : Char) : prolongs c .less x = (x == '>' || x == '=') := rfl

@[simp] theorem prolongs_greater (c x : Char) : prolongs c .greater x = (x == '=') := rfl

@[simp] theorem prolongs_equal (c x : Char) : prolongs c .equal x = (x == '<' || x == '>') := rfl

/-! ## Characters -/

theorem isDelimiter_of_isDigit {c : Char} (h : Number.isDigit c = true) : isDelimiter c = false := by
  cases hd : isDelimiter c with
  | false => rfl
  | true =>
    have hall : Text.delimiters.all (!Number.isDigit ·) = true := by decide
    have hmem : c ∈ Text.delimiters := by simpa [isDelimiter] using hd
    have hdigit := List.all_eq_true.mp hall c hmem
    rw [h] at hdigit
    cases hdigit

theorem not_isDigit_of_isQuote {c : Char} (h : isQuote c = true) : Number.isDigit c = false := by
  have h' : c = '\'' ∨ c = '"' := by simpa [isQuote] using h
  rcases h' with rfl | rfl <;> rfl

theorem isDelimiter_of_isNameChar {c : Char} (h : isNameChar c = true) : isDelimiter c = false := by
  simp only [isNameChar, Bool.not_eq_true', Bool.or_eq_false_iff] at h
  exact h.1.1

/-- A symbol is no digit, quote, brace or letter. -/
theorem symbol?_char {c : Char} {next : Option Char} {r : Token × Bool} (h : symbol? c next = some r) :
    Number.isDigit c = false ∧ isQuote c = false ∧ ¬ (c == '{') = true ∧ isNameChar c = false := by
  unfold symbol? at h
  split at h <;> first | decide | cases h

/-- A symbol of one character is read alone too, and what followed did not prolong it. -/
theorem symbol?_one {c : Char} {next : Option Char} {token : Token}
    (h : symbol? c next = some (token, false)) :
    symbol? c none = some (token, false) ∧ ∀ x ∈ next, prolongs c token x = false := by
  unfold symbol? at h
  split at h <;> cases h <;> refine ⟨rfl, fun x hx => ?_⟩ <;> first | rfl | skip
  all_goals cases hx; simp_all

theorem symbol?_of_not_prolongs {c : Char} {next : Option Char} {token : Token}
    (h : symbol? c none = some (token, false)) (hn : ∀ x ∈ next, prolongs c token x = false) :
    symbol? c next = some (token, false) := by
  cases next with
  | none => exact h
  | some x =>
    have hx := hn x rfl
    unfold symbol? at h
    split at h <;> cases h <;> first | rfl | skip
    all_goals
      simp only [prolongs_less, prolongs_greater, prolongs_equal, Bool.or_eq_false_iff,
        beq_eq_false_iff_ne] at hx
      unfold symbol?
      split <;> simp_all

/-! ## Reading is taking a lexeme -/

theorem takeWhile_append_of_stop {p : Char → Bool} {as bs : List Char} (ha : ∀ x ∈ as, p x = true)
    (hb : ∀ x ∈ bs.head?, p x = false) :
    (as ++ bs).takeWhile p = as ∧ (as ++ bs).dropWhile p = bs := by
  rw [List.takeWhile_append_of_pos ha, List.dropWhile_append_of_pos ha]
  cases bs with
  | nil => simp
  | cons b bs => simp [hb b rfl]

theorem head?_dropWhile_stop (p : Char → Bool) (cs : List Char) :
    ∀ x ∈ (cs.dropWhile p).head?, p x = false := by
  intro x hx
  have h := List.head?_dropWhile_not p cs
  rw [Option.mem_def.mp hx] at h
  exact h

theorem of_mem_takeWhile {p : Char → Bool} {cs : List Char} : ∀ x ∈ cs.takeWhile p, p x = true :=
  List.all_eq_true.mp List.all_takeWhile

theorem symbol?_two {c : Char} {next : Option Char} {token : Token}
    (h : symbol? c next = some (token, true)) : ∃ d, next = some d := by
  unfold symbol? at h
  split at h <;> cases h <;> exact ⟨_, rfl⟩

/-- Nothing prolongs a symbol of two characters. -/
theorem not_prolongs_of_symbols {c d : Char} {token : Token}
    (h : symbol? c (some d) = some (token, true)) (x : Char) : prolongs c token x = false := by
  unfold symbol? at h
  split at h <;> cases h <;> rfl

/-- A character of two texts in a row lies in the second or in the first. -/
theorem append_eq_append_cons {as bs before after : List Char} {x : Char}
    (h : as ++ bs = before ++ x :: after) :
    (∃ between, before = as ++ between ∧ bs = between ++ x :: after) ∨
      ∃ part, as = before ++ x :: part := by
  rcases List.append_eq_append_iff.mp h with hlater | ⟨part, has, hpart⟩
  · exact .inl hlater
  · cases part with
    | nil => exact .inl ⟨[], by simpa using has.symm, by simpa using hpart.symm⟩
    | cons y part => cases hpart; exact .inr ⟨part, has⟩

variable {c : Char} {cs tail rest : List Char} {token : Token} {l : Lexeme}

/-- What is read is a lexeme that the next character does not prolong. -/
theorem spelled_of_read (h : read c cs = .ok l) :
    ∃ tail, cs = tail ++ l.rest ∧ Spelled c tail l.token ∧ l.size = byteSize (c :: tail) ∧
      ∀ x ∈ l.rest.head?, prolongs c l.token x = false := by
  unfold read at h
  split at h
  · next hdigit =>
    unfold readNumber at h
    dsimp only at h
    split at h
    · next n hn =>
      cases h
      exact ⟨cs.takeWhile Number.isDigit, by simp, .number hdigit of_mem_takeWhile hn, rfl,
        head?_dropWhile_stop _ cs⟩
    · cases h
  split at h
  · next hquote =>
    unfold readText at h
    split at h
    · next body rest hclose =>
      cases h
      have hhead := Text.head?_of_closeQuote hclose
      refine ⟨body ++ [c], by simp [Text.closeQuote_eq_some hclose],
        .text hquote (Text.closeQuote_append hclose (by simp)), by simp [Nat.add_assoc], ?_⟩
      intro x hx
      rw [prolongs_text, beq_eq_false_iff_ne]
      rintro rfl
      exact hhead (by simpa using hx)
    · cases h
  split at h
  · next hbrace =>
    obtain rfl : c = '{' := by simpa using hbrace
    unfold readCode at h
    split at h
    · next body rest hclose =>
      cases h
      exact ⟨body ++ ['}'], by simp [Text.closeBlock_eq_some hclose],
        .code (Text.closeBlock_append hclose []), by simp [Nat.add_assoc]; rfl, fun _ _ => rfl⟩
    · cases h
  split at h
  · next hdigit _ _ hletter =>
    cases h
    exact ⟨cs.takeWhile isNameChar, by simp [readName],
      .name (by simpa using hdigit) hletter of_mem_takeWhile, rfl, head?_dropWhile_stop _ cs⟩
  · unfold readSymbol at h
    split at h
    · next token hsym =>
      cases h
      obtain ⟨d, hd⟩ := symbol?_two hsym
      rw [hd] at hsym
      cases cs with
      | nil => cases hd
      | cons x cs =>
        cases hd
        exact ⟨[d], rfl, .symbols hsym, rfl, fun y _ => not_prolongs_of_symbols hsym y⟩
    · next token hsym =>
      cases h
      exact ⟨[], rfl, .symbol (symbol?_one hsym).1, by simp, (symbol?_one hsym).2⟩
    · cases h

/-- A lexeme that the next character does not prolong is read. -/
theorem read_of_spelled (hs : Spelled c tail token) (hr : ∀ x ∈ rest.head?, prolongs c token x = false) :
    read c (tail ++ rest) = .ok ⟨token, byteSize (c :: tail), rest⟩ := by
  cases hs with
  | number first digits value =>
    obtain ⟨htake, hdrop⟩ := takeWhile_append_of_stop digits hr
    rw [read, if_pos first, readNumber, htake, hdrop, value]
  | text quote closed =>
    have hne : rest.head? ≠ some c := by
      intro hhead
      have := hr c (by simp [hhead])
      simp at this
    have hclose := Text.closeQuote_append closed hne
    rw [read, if_neg (by simp [not_isDigit_of_isQuote quote]), if_pos quote, readText,
      List.append_assoc, List.singleton_append, hclose]
    simp [Nat.add_assoc]
  | code closed =>
    have hclose := Text.closeBlock_append closed rest
    rw [read, if_neg (by decide), if_neg (by decide), if_pos (by decide), readCode, List.append_assoc,
      List.singleton_append, hclose]
    simp [Nat.add_assoc]
    rfl
  | name first letter letters =>
    have hdelim := isDelimiter_of_isNameChar letter
    have hbrace : ¬ (c == '{') = true := by
      intro hc
      obtain rfl : c = '{' := by simpa using hc
      cases hdelim
    obtain ⟨htake, hdrop⟩ := takeWhile_append_of_stop letters hr
    rw [read, if_neg (by simp [first]), if_neg (by simp [Text.isQuote_of_not_isDelimiter hdelim]),
      if_neg hbrace, if_pos letter, readName, htake, hdrop]
  | symbol one =>
    obtain ⟨hdigit, hquote, hbrace, hletter⟩ := symbol?_char one
    rw [read, if_neg (by simp [hdigit]), if_neg (by simp [hquote]), if_neg hbrace,
      if_neg (by simp [hletter]), readSymbol, List.nil_append, symbol?_of_not_prolongs one hr]
    rfl
  | symbols two =>
    obtain ⟨hdigit, hquote, hbrace, hletter⟩ := symbol?_char two
    rw [read, if_neg (by simp [hdigit]), if_neg (by simp [hquote]), if_neg hbrace,
      if_neg (by simp [hletter]), readSymbol, List.singleton_append, List.head?_cons, two]
    rfl

/-- **Reading a token is taking a lexeme** that spells it and that the next character does not
prolong. -/
theorem read_eq_ok_iff : read c cs = .ok l ↔
    ∃ tail, cs = tail ++ l.rest ∧ Spelled c tail l.token ∧ l.size = byteSize (c :: tail) ∧
      ∀ x ∈ l.rest.head?, prolongs c l.token x = false := by
  constructor
  · exact spelled_of_read
  · rintro ⟨tail, rfl, hs, hsize, hr⟩
    rw [read_of_spelled hs hr, ← hsize]

/-! ## What a lexeme leaves behind -/

/-- After a lexeme a text stands outside literals and blocks, if it did before. -/
theorem Spelled.isOutside (hs : Spelled c tail token) {s : Standing} (h : s.isOutside = true) :
    (s.after (c :: tail)).isOutside = true := by
  obtain ⟨quote, d⟩ := s
  obtain ⟨rfl, hd⟩ : quote = none ∧ d.curly = 0 := Standing.isOutside_iff.mp h
  cases hs with
  | number first digits value =>
    have hall : ∀ x ∈ c :: tail, isDelimiter x = false := by
      rintro x (_ | ⟨_, hx⟩)
      · exact isDelimiter_of_isDigit first
      · exact isDelimiter_of_isDigit (digits x hx)
    rw [Standing.after_of_not_isDelimiter hall]
    exact h
  | text quote closed =>
    rw [Standing.after_cons, Standing.step_quote quote, Standing.after_closeQuote quote d closed]
    exact h
  | code closed =>
    have hopen : (d.track '{').curly = 0 + 1 := by rw [Text.Depth.curly_track_open, hd]
    obtain ⟨d', hafter, hcurly⟩ := Standing.after_closeBlock closed hopen
    rw [Standing.after_cons, Standing.step_plain (by decide), hafter]
    exact Standing.isOutside_iff.mpr ⟨rfl, hcurly⟩
  | name first letter letters =>
    have hall : ∀ x ∈ c :: tail, isDelimiter x = false := by
      rintro x (_ | ⟨_, hx⟩)
      · exact isDelimiter_of_isNameChar letter
      · exact isDelimiter_of_isNameChar (letters x hx)
    rw [Standing.after_of_not_isDelimiter hall]
    exact h
  | symbol one =>
    unfold symbol? at one
    split at one <;> cases one <;> exact h
  | symbols two =>
    unfold symbol? at two
    split at two <;> cases two <;> rename_i hnext <;> cases hnext <;> exact h

/-- The characters that stand between lexemes and in none but literals and blocks: white space and the
separators. -/
def isBreak (c : Char) : Bool := isSpace c || c == ',' || c == '&' || c == ':'

theorem eq_of_isBreak {x : Char} (h : isBreak x = true) :
    x ∈ [' ', '\t', '\r', '\n', ',', '&', ':'] := by
  simpa [isBreak, isSpace, or_assoc] using h

section Break

variable {x : Char}

/-- A break is no digit, quote, closing brace or letter. -/
theorem isBreak_char (h : isBreak x = true) :
    Number.isDigit x = false ∧ isQuote x = false ∧ x ≠ '}' ∧ isNameChar x = false := by
  have hall : [' ', '\t', '\r', '\n', ',', '&', ':'].all (fun y =>
      decide (Number.isDigit y = false ∧ isQuote y = false ∧ y ≠ '}' ∧ isNameChar y = false)) = true := by
    decide
  exact of_decide_eq_true (List.all_eq_true.mp hall x (eq_of_isBreak h))

theorem symbol?_break {c : Char} {r : Token} (h : symbol? c (some x) = some (r, true)) :
    isBreak x = false := by
  unfold symbol? at h
  split at h <;> cases h <;> rename_i hnext <;> cases hnext <;> rfl

/-- A break makes no lexeme longer. -/
theorem Spelled.not_prolongs (hs : Spelled c tail token) (hx : isBreak x = true) :
    prolongs c token x = false := by
  obtain ⟨hdigit, hquote, -, hletter⟩ := isBreak_char hx
  cases hs with
  | number first digits value => exact hdigit
  | text quote closed =>
    rw [prolongs_text, beq_eq_false_iff_ne]
    rintro rfl
    rw [quote] at hquote
    cases hquote
  | code closed => rfl
  | name first letter letters => exact hletter
  | symbol one =>
    have hall : [' ', '\t', '\r', '\n', ',', '&', ':'].all (!prolongs c token ·) = true := by
      unfold symbol? at one
      split at one <;> cases one <;> decide
    simpa using List.all_eq_true.mp hall x (eq_of_isBreak hx)
  | symbols two => exact not_prolongs_of_symbols two x

/-- No break inside a lexeme stands outside literals and blocks. -/
theorem Spelled.isOutside_within (hs : Spelled c tail token) (hx : isBreak x = true) {s : Standing}
    (h : s.isOutside = true) {before rest : List Char} (htail : tail = before ++ x :: rest) :
    (s.after (c :: before)).isOutside = false := by
  obtain ⟨quote, d⟩ := s
  obtain ⟨rfl, hd⟩ : quote = none ∧ d.curly = 0 := Standing.isOutside_iff.mp h
  obtain ⟨hdigit, hquote, hbrace, hletter⟩ := isBreak_char hx
  have hmem : x ∈ tail := by simp [htail]
  cases hs with
  | number first digits value =>
    rw [digits x hmem] at hdigit
    cases hdigit
  | text quote closed =>
    rw [Standing.after_cons, Standing.step_quote quote]
    cases hclose : closeQuote c before with
    | none =>
      rw [Standing.after_of_closeQuote_eq_none quote d hclose]
      rfl
    | some r =>
      -- closed before the break, the literal would be closed there in the lexeme too
      obtain ⟨body', rest'⟩ := r
      have hmore : (x :: rest).head? ≠ some c := by
        rintro ⟨⟩
        rw [quote] at hquote
        cases hquote
      rw [htail, Text.closeQuote_append_more hclose hmore] at closed
      simp at closed
  | code closed =>
    have hopen : (d.track '{').curly = 0 + 1 := by rw [Text.Depth.curly_track_open, hd]
    rw [Standing.after_cons, Standing.step_plain (by decide)]
    cases hclose : closeBlock 0 before with
    | none => exact Standing.isOutside_of_closeBlock_eq_none hclose hopen
    | some r =>
      obtain ⟨body', rest'⟩ := r
      have hagain := Text.closeBlock_append hclose (rest' ++ x :: rest)
      rw [htail, Text.closeBlock_eq_some hclose, List.append_assoc, List.cons_append, hagain] at closed
      simp at closed
  | name first letter letters =>
    rw [letters x hmem] at hletter
    cases hletter
  | symbol one => cases hmem
  | symbols two =>
    obtain rfl := List.mem_singleton.mp hmem
    rw [symbol?_break two] at hx
    cases hx

end Break

theorem Spelled.not_isSpace (hs : Spelled c tail token) : isSpace c = false := by
  have hspace {x : Char} (hx : isSpace x = true) : Number.isDigit x = false ∧ isQuote x = false ∧
      isNameChar x = false := by
    obtain ⟨hdigit, hquote, -, hletter⟩ := isBreak_char (x := x) (by simp [isBreak, hx])
    exact ⟨hdigit, hquote, hletter⟩
  cases hsp : isSpace c with
  | false => rfl
  | true =>
    obtain ⟨hdigit, hquote, hletter⟩ := hspace hsp
    cases hs with
    | number first digits value => rw [first] at hdigit; cases hdigit
    | text quote closed => rw [quote] at hquote; cases hquote
    | code closed => cases hsp
    | name first letter letters => rw [letter] at hletter; cases hletter
    | symbol one =>
      unfold symbol? at one
      split at one <;> cases one <;> cases hsp
    | symbols two =>
      unfold symbol? at two
      split at two <;> cases two <;> cases hsp

/-! ## Whole texts -/

/-- A text that starts at byte `pos` consists of lexemes, none of which its next character prolongs, with
white space between them. -/
inductive Lexes : Nat → List Char → List (Token × Span) → Prop
  | nil {pos : Nat} : Lexes pos [] []
  | space {pos : Nat} {c : Char} {cs : List Char} {tokens : List (Token × Span)}
      (space : isSpace c = true) (lexes : Lexes (pos + c.utf8Size) cs tokens) :
      Lexes pos (c :: cs) tokens
  | lexeme {pos : Nat} {c : Char} {tail rest : List Char} {token : Token}
      {tokens : List (Token × Span)} (spelled : Spelled c tail token)
      (stop : ∀ x ∈ rest.head?, prolongs c token x = false)
      (lexes : Lexes (pos + byteSize (c :: tail)) rest tokens) :
      Lexes pos (c :: (tail ++ rest)) ((token, ⟨pos, pos + byteSize (c :: tail)⟩) :: tokens)

/-- **The texts that are read** are the lexemes with white space between them. -/
theorem tokenizeFrom_eq_ok_iff {pos : Nat} {tokens : List (Token × Span)} :
    tokenizeFrom pos cs = .ok tokens ↔ Lexes pos cs tokens := by
  constructor
  · intro h
    fun_induction tokenizeFrom pos cs generalizing tokens with
    | case1 pos => cases h; exact .nil
    | case2 pos c cs hspace ih => exact .space hspace (ih h)
    | case3 => cases h
    | case4 pos c cs hspace l hl ih =>
      obtain ⟨tokens', htokens, heq⟩ := bind_eq_ok h
      cases heq
      obtain ⟨tail, rfl, hs, hsize, hstop⟩ := read_eq_ok_iff.mp hl
      rw [hsize] at ih htokens ⊢
      exact .lexeme hs hstop (ih htokens)
  · intro h
    induction h with
    | nil => rw [tokenizeFrom]
    | space hspace _ ih => rw [tokenizeFrom, if_pos hspace, ih]
    | lexeme hs hstop _ ih =>
      rw [tokenizeFrom, if_neg (by simp [hs.not_isSpace])]
      split
      · next u hu => rw [read_of_spelled hs hstop] at hu; cases hu
      · next l hl =>
        rw [read_of_spelled hs hstop] at hl
        cases hl
        rw [ih]
        rfl

theorem tokenize_eq_ok_iff {tokens : List (Token × Span)} :
    tokenize cs = .ok tokens ↔ Lexes 0 cs tokens := tokenizeFrom_eq_ok_iff

end QuestScript.Token
