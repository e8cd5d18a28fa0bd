import QuestScript.Proofs.Expr.Above
import QuestScript.Proofs.Expr.Separator

/-!
# A text inside another one

The tokens of a text are the same where the text stands inside another one, as long as it ends outside
literals and blocks and what follows makes no lexeme longer (`tokenizeFrom_append`). Their spans are
moved, and what stands behind the last of them may be different: `Beside` says so for two lists of tokens.
-/

namespace QuestScript

namespace Token

open Text (Standing byteSize isQuote closeQuote closeBlock)
open Compiler (spaced)

variable {c x : Char} {cs bs tail : List Char} {token : Token} {pos : Nat}

/-! ## Characters that end a lexeme -/

/-- Whether a character makes no lexeme longer. -/
def halts (x : Char) : Bool :=
  !(Number.isDigit x || isQuote x || isNameChar x || x == '<' || x == '>' || x == '=')

theorem halts_char (h : halts x = true) :
    Number.isDigit x = false ∧ isQuote x = false ∧ isNameChar x = false ∧ x ≠ '<' ∧ x ≠ '>' ∧ x ≠ '=' := by
  simpa [halts, and_assoc] using h

theorem Spelled.not_prolongs_of_halts (hs : Spelled c tail token) (h : halts x = true) :
    prolongs c token x = false := by
  obtain ⟨hdigit, hquote, hletter, hless, hgreater, hequal⟩ := halts_char h
  cases hs with
  | number first digits value => exact hdigit
  | text quote closed =>
    rw [prolongs_text, beq_eq_false_iff_ne]
    rintro rfl
    rw [quote] at hquote
    cases hquote
  | code closed => rfl
  | name first letter letters => exact hletter
  | symbol one =>
    unfold symbol? at one
    split at one <;> cases one <;> first
      | rfl
      | simp only [prolongs_less, prolongs_greater, prolongs_equal, beq_false_of_ne hless,
          beq_false_of_ne hgreater, beq_false_of_ne hequal, Bool.or_false]
  | symbols two => exact not_prolongs_of_symbols two x

theorem head?_append_halts {p : Char → Prop} (has : ∀ x ∈ cs.head?, p x) (hbs : ∀ x ∈ bs.head?, p x) :
    ∀ x ∈ (cs ++ bs).head?, p x := by
  cases cs with
  | nil => exact hbs
  | cons y ys => exact has

/-! ## Texts that cannot be read -/

/-- A character that starts no token starts none whatever follows it. -/
theorem symbol?_eq_none {next : Option Char} (h : symbol? c next = none) (next' : Option Char) :
    symbol? c next' = none := by
  unfold symbol? at h ⊢
  split at h <;> cases h
  split <;> first | rfl | simp_all

/-- Why no token can be read, unless a literal or a block is left open: the digits are no number, or no
token starts with the character. -/
inductive Fails (c : Char) (cs : List Char) : Unreadable → Prop
  | digits (first : Number.isDigit c = true) (value : Number.read? (c :: cs.takeWhile Number.isDigit) = none) :
      Fails c cs ⟨.badSyntax, byteSize (c :: cs.takeWhile Number.isDigit)⟩
  | symbol (first : ¬ Number.isDigit c = true) (quote : ¬ isQuote c = true) (brace : ¬ (c == '{') = true)
      (letter : ¬ isNameChar c = true) (none : ∀ next, symbol? c next = none) : Fails c cs ⟨.badSyntax, c.utf8Size⟩

theorem Fails.read {u : Unreadable} (h : Fails c cs u) : read c cs = .error u := by
  cases h with
  | digits first value => rw [Token.read, if_pos first, readNumber, value]
  | symbol first quote brace letter none =>
    rw [Token.read, if_neg first, if_neg quote, if_neg brace, if_neg letter, readSymbol, none]

/-- In a text that ends outside literals and blocks none is left open. -/
theorem fails_of_read {u : Unreadable} {s : Standing} (h : read c cs = .error u) (hs : s.isOutside = true)
    (hout : (s.after (c :: cs)).isOutside = true) : Fails c cs u := by
  obtain ⟨quote, d⟩ := s
  obtain ⟨rfl, hd⟩ : quote = none ∧ d.curly = 0 := Standing.isOutside_iff.mp hs
  unfold read at h
  split at h
  · next hdigit =>
    unfold readNumber at h
    dsimp only at h
    split at h
    · cases h
    · next hnone =>
      cases h
      exact .digits hdigit hnone
  split at h
  · next hquote =>
    unfold readText at h
    split at h
    · cases h
    · next hnone =>
      rw [Standing.after_cons, Standing.step_quote hquote, Standing.after_of_closeQuote_eq_none hquote d hnone] at hout
      cases hout
  split at h
  · next hbrace =>
    obtain rfl : c = '{' := by simpa using hbrace
    unfold readCode at h
    split at h
    · cases h
    · next hnone =>
      have hopen : (d.track '{').curly = 0 + 1 := by rw [Text.Depth.curly_track_open, hd]
      rw [Standing.after_cons, Standing.step_plain (by decide),
        Standing.isOutside_of_closeBlock_eq_none hnone hopen] at hout
      cases hout
  split at h
  · cases h
  · next hdigit hquote hbrace hletter =>
    unfold readSymbol at h
    split at h
    · cases h
    · cases h
    · next hnone =>
      cases h
      exact .symbol hdigit hquote hbrace hletter (symbol?_eq_none hnone)

/-- What cannot be read in a text that ends outside literals and blocks cannot be read in a longer one. -/
theorem read_append_error {u : Unreadable} {s : Standing} (h : read c cs = .error u) (hs : s.isOutside = true)
    (hout : (s.after (c :: cs)).isOutside = true) (hb : ∀ x ∈ bs.head?, halts x = true) :
    read c (cs ++ bs) = .error u := by
  cases fails_of_read h hs hout with
  | digits first value =>
    -- the digits end where they did
    have hrest : ∀ x ∈ (cs.dropWhile Number.isDigit ++ bs).head?, Number.isDigit x = false :=
      head?_append_halts (head?_dropWhile_stop _ cs) fun x hx => (halts_char (hb x hx)).1
    have hdigits : ∀ x ∈ cs.takeWhile Number.isDigit, Number.isDigit x = true := of_mem_takeWhile
    have htake := (takeWhile_append_of_stop hdigits hrest).1
    rw [← List.append_assoc, List.takeWhile_append_dropWhile] at htake
    have hfails : Fails c (cs ++ bs) _ := .digits first (by rwa [htake])
    rw [htake] at hfails
    exact hfails.read
  | symbol first quote brace letter none => exact (Fails.symbol first quote brace letter none).read

/-! ## Two texts in a row -/

/-- **The tokens of two texts in a row** are those of the first and those of the second, if the first ends
outside literals and blocks and the second makes no lexeme longer. -/
theorem tokenizeFrom_append {s : Standing} (hs : s.isOutside = true) (hout : (s.after cs).isOutside = true)
    (hb : ∀ x ∈ bs.head?, halts x = true) :
    tokenizeFrom pos (cs ++ bs) = (do
      let ts ← tokenizeFrom pos cs
      let us ← tokenizeFrom (pos + byteSize cs) bs
      return ts ++ us) := by
  fun_induction tokenizeFrom pos cs generalizing s with
  | case1 pos =>
    show tokenizeFrom pos bs = tokenizeFrom pos bs >>= fun us => pure us
    cases tokenizeFrom pos bs with
    | error e => rfl
    | ok us => rfl
  | case2 pos c cs hspace ih =>
    rw [List.cons_append, tokenizeFrom, if_pos hspace, ih (isOutside_step_space hspace hs) hout,
      Text.byteSize_cons, Nat.add_assoc]
  | case3 pos c cs hspace u hu =>
    rw [List.cons_append, tokenizeFrom, if_neg hspace]
    have hread := read_append_error hu hs hout hb
    split
    · next u' hu' =>
      rw [hread] at hu'
      cases hu'
      rfl
    · next l hl =>
      rw [hread] at hl
      cases hl
  | case4 pos c cs hspace l hl ih =>
    obtain ⟨tail, hcs, hspelled, hsize, hstop⟩ := read_eq_ok_iff.mp hl
    -- the lexeme does not go on into the second text, which starts with a character that halts it
    have hread : read c (cs ++ bs) = .ok ⟨l.token, l.size, l.rest ++ bs⟩ := by
      rw [read_eq_ok_iff]
      refine ⟨tail, by rw [hcs, List.append_assoc], hspelled, hsize, ?_⟩
      exact head?_append_halts hstop fun x hx => hspelled.not_prolongs_of_halts (hb x hx)
    have hafter : (s.after (c :: tail)).isOutside = true := hspelled.isOutside hs
    rw [hcs, ← List.cons_append, Standing.after_append] at hout
    have hmore : pos + l.size + byteSize l.rest = pos + byteSize (c :: cs) := by
      rw [hsize, hcs, Nat.add_assoc, ← Text.byteSize_append, List.cons_append]
    rw [List.cons_append, tokenizeFrom, if_neg hspace]
    split
    · next u hu =>
      rw [hread] at hu
      cases hu
    · next l' hl' =>
      rw [hread] at hl'
      cases hl'
      rw [ih hafter hout, hmore]
      cases tokenizeFrom (pos + l.size) l.rest with
      | error e => rfl
      | ok ts =>
        cases tokenizeFrom (pos + byteSize (c :: cs)) bs with
        | error e => rfl
        | ok us => rfl

theorem isSpace_of_isBlank (h : Text.isBlank x = true) : isSpace x = true := by
  have h' : x = ' ' ∨ x = '\t' := by simpa [Text.isBlank] using h
  rcases h' with rfl | rfl <;> rfl

theorem tokenizeFrom_blanks {blanks : List Char} (h : ∀ x ∈ blanks, isSpace x = true) (pos : Nat) (cs : List Char) :
    tokenizeFrom pos (blanks ++ cs) = tokenizeFrom (pos + byteSize blanks) cs := by
  induction blanks generalizing pos with
  | nil => rfl
  | cons x blanks ih =>
    rw [List.cons_append, tokenizeFrom, if_pos (h x (by simp)), ih fun y hy => h y (by simp [hy]),
      Text.byteSize_cons, Nat.add_assoc]

/-- A lexeme in front of a text. -/
theorem tokenizeFrom_lexeme (hs : Spelled c tail token) (hstop : ∀ x ∈ cs.head?, prolongs c token x = false)
    (pos : Nat) :
    tokenizeFrom pos (c :: (tail ++ cs)) = (do
      let ts ← tokenizeFrom (pos + byteSize (c :: tail)) cs
      return (token, ⟨pos, pos + byteSize (c :: tail)⟩) :: ts) := by
  rw [tokenizeFrom, if_neg (by simp [hs.not_isSpace])]
  split
  · next u hu =>
    rw [read_of_spelled hs hstop] at hu
    cases hu
  · next l hl =>
    rw [read_of_spelled hs hstop] at hl
    cases hl
    rfl

/-! ## The same tokens in two texts -/

/-- The tokens of a text inside `w` and inside `r`: the same ones, with separators behind the same ones.
Of what stands behind the last one nothing is said. -/
inductive Beside (w r : List Char) : List (Token × Span) → List (Token × Span) → Prop
  | nil : Beside w r [] []
  | cons {token : Token} {sp sp' : Span} {ts ts' : List (Token × Span)}
      (spacing : ts ≠ [] → spaced w sp = spaced r sp') (rest : Beside w r ts ts') :
      Beside w r ((token, sp) :: ts) ((token, sp') :: ts')

variable {w r : List Char} {ts ts' : List (Token × Span)}

theorem Beside.map_fst (h : Beside w r ts ts') : ts.map (·.1) = ts'.map (·.1) := by
  induction h with
  | nil => rfl
  | cons _ _ ih => rw [List.map_cons, List.map_cons, ih]

theorem Beside.drop (h : Beside w r ts ts') (n : Nat) : Beside w r (ts.drop n) (ts'.drop n) := by
  induction h generalizing n with
  | nil =>
    rw [List.drop_nil]
    exact .nil
  | cons spacing rest ih =>
    cases n with
    | zero => exact .cons spacing rest
    | succ n => exact ih n

theorem Lexes.beside (h : Lexes pos cs ts) (as as' bs bs' : List Char) (hw : w = as ++ (cs ++ bs))
    (hpos : byteSize as = pos) (hr : r = as' ++ (cs ++ bs')) :
    ∃ ts', Lexes (byteSize as') cs ts' ∧ Beside w r ts ts' := by
  induction h generalizing as as' with
  | nil => exact ⟨[], .nil, .nil⟩
  | @space pos x cs ts hspace _ ih =>
    obtain ⟨ts', hlexes, hbeside⟩ := ih (as ++ [x]) (as' ++ [x]) (by simp [hw]) (by simp [hpos]) (by simp [hr])
    rw [Text.byteSize_append, Text.byteSize_cons, Text.byteSize_nil, Nat.add_zero] at hlexes
    exact ⟨ts', .space hspace hlexes, hbeside⟩
  | @lexeme pos x tail rest token ts hs hstop hlexes ih =>
    obtain ⟨ts', hlexes', hbeside⟩ := ih (as ++ x :: tail) (as' ++ x :: tail) (by simp [hw]) (by simp [hpos])
      (by simp [hr])
    rw [Text.byteSize_append] at hlexes'
    refine ⟨_, .lexeme hs hstop hlexes', .cons (fun hne => ?_) hbeside⟩
    -- the character behind the lexeme is one of the text, because another token follows
    have hrest : rest ≠ [] := by
      rintro rfl
      cases hlexes
      exact hne rfl
    obtain ⟨y, ys, rfl⟩ := List.exists_cons_of_ne_nil hrest
    have hcharw : Text.charAt? w (pos + byteSize (x :: tail)) = some y := by
      rw [show w = (as ++ x :: tail) ++ (y :: (ys ++ bs)) by simp [hw], ← hpos, ← Text.byteSize_append,
        Text.charAt?_append]
      rfl
    have hcharr : Text.charAt? r (byteSize as' + byteSize (x :: tail)) = some y := by
      rw [show r = (as' ++ x :: tail) ++ (y :: (ys ++ bs')) by simp [hr], ← Text.byteSize_append,
        Text.charAt?_append]
      rfl
    rw [spaced, spaced, hcharw, hcharr]

end Token

end QuestScript
