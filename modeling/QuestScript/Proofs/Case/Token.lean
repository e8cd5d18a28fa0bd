import QuestScript.Proofs.Case.Name
import QuestScript.Proofs.Expr.Placed
import QuestScript.Proofs.Line.Source

/-!
# The tokens of a text in upper case

A text that ends outside literals and blocks has the same tokens when it is put in upper case, only that its
names are in upper case, too (`tokenizeFrom_upper`). That is so because the text is put in upper case exactly
where it is read as no literal and no block, and because nothing else that is read there has letters.

The lexemes may have other lengths, so the tokens have other spans. All that counts of a span is whether a
separator stands behind it (`Raised`).
-/

namespace QuestScript

/-! ## Results that fail for the same reason -/

/-- Two results that are related, or two errors of the same kind. -/
inductive Tied {α β : Type} (R : α → β → Prop) : Except SourceError α → Except SourceError β → Prop
  | ok {a : α} {b : β} (h : R a b) : Tied R (.ok a) (.ok b)
  | error {e e' : SourceError} (h : e.error.kind = e'.error.kind) : Tied R (.error e) (.error e')

namespace Tied

variable {α β γ δ : Type} {R : α → β → Prop} {Q : γ → δ → Prop}

theorem bind {x : Except SourceError α} {y : Except SourceError β} {f : α → Except SourceError γ}
    {g : β → Except SourceError δ} (h : Tied R x y) (hf : ∀ a b, x = .ok a → R a b → Tied Q (f a) (g b)) :
    Tied Q (x >>= f) (y >>= g) := by
  cases h with
  | ok h => exact hf _ _ rfl h
  | error h => exact .error h

theorem imp {R' : α → β → Prop} {x : Except SourceError α} {y : Except SourceError β} (h : Tied R x y)
    (hR : ∀ a b, x = .ok a → R a b → R' a b) : Tied R' x y := by
  cases h with
  | ok h => exact .ok (hR _ _ rfl h)
  | error h => exact .error h

end Tied

namespace Token

open Text (Standing byteSize isQuote closeQuote closeBlock upper upperChar uppercased class_upper)
open Source (upperFrom)
open Compiler (spaced)

variable {c x y : Char} {cs tail body rest : List Char} {token : Token} {s : Standing}

/-! ## Tokens in upper case -/

/-- A token whose name is put in upper case. -/
def raised : Token → Token
  | name s => name (uppercased s)
  | token => token

@[simp] theorem raised_name (s : String) : (name s).raised = name (uppercased s) := rfl

/-- The tokens of two texts, `w` and `r`: in `r` the names are in upper case, and separators stand behind
the same tokens. -/
inductive Raised (w r : List Char) : List (Token × Span) → List (Token × Span) → Prop
  | nil : Raised w r [] []
  | cons {token : Token} {sp sp' : Span} {ts ts' : List (Token × Span)} (spacing : spaced w sp = spaced r sp')
      (rest : Raised w r ts ts') : Raised w r ((token, sp) :: ts) ((token.raised, sp') :: ts')

/-! ## Characters -/

theorem isNameChar_of_not_isCaseless (x : Char) (h : Text.isCaseless x = false) : isNameChar x = true := by
  have hne {y : Char} (hy : Text.isCaseless y = true) : (x == y) = false := by
    rw [beq_eq_false_iff_ne]
    rintro rfl
    rw [h] at hy
    cases hy
  simp only [isNameChar, Text.isDelimiter_of_not_isCaseless x h, hne (y := '\r') (by decide),
    hne (y := '\n') (by decide), Bool.or_false, Bool.not_false]

theorem isCaseless_of_not_isNameChar (h : isNameChar c = false) : Text.isCaseless c = true := by
  by_contra hc
  rw [isNameChar_of_not_isCaseless c (by simpa using hc)] at h
  cases h

theorem isCaseless_of_isDigit (h : Number.isDigit c = true) : Text.isCaseless c = true := by
  by_contra hc
  rw [Text.isDigit_of_not_isCaseless c (by simpa using hc)] at h
  cases h

theorem isCaseless_of_isSpace (h : isSpace c = true) : Text.isCaseless c = true := by
  have h' : c = ' ' ∨ c = '\t' ∨ c = '\r' ∨ c = '\n' := by simpa [isSpace, or_assoc] using h
  rcases h' with rfl | rfl | rfl | rfl <;> rfl

theorem separates_of_not_isCaseless (x : Char) (h : Text.isCaseless x = false) :
    Compiler.separates x = false := by
  have hx := Text.isDelimiter_of_not_isCaseless x h
  rw [Bool.eq_false_iff]
  intro hsep
  have hdelimiter : Text.isDelimiter x = true := by
    simp only [Compiler.separates, Text.isBlank, isQuote, Bool.or_eq_true, beq_iff_eq] at hsep
    rcases hsep with ((((rfl | rfl) | rfl | rfl) | rfl) | rfl) | rfl <;> rfl
  rw [hx] at hdelimiter
  cases hdelimiter

/-! ## Texts -/

theorem upperFrom_cons (s : Standing) (h : s.isOutside = true → Text.isCaseless c = true) (cs : List Char) :
    upperFrom s (c :: cs) = c :: upperFrom (s.step c) cs := by
  rw [upperFrom]
  split
  · next hout =>
    rw [Text.upperChar_caseless (h hout)]
    rfl
  · rfl

theorem isCaseless_of_isQuote (h : isQuote c = true) : Text.isCaseless c = true := by
  have h' : c = '\'' ∨ c = '"' := by simpa [isQuote] using h
  rcases h' with rfl | rfl <;> rfl

/-- A literal is left as it is. -/
theorem upperFrom_quoted {q : Char} (hq : isQuote q = true) (d : Text.Depth) (h : Text.Quoted q body) :
    upperFrom ⟨some q, d⟩ (body ++ [q]) = body ++ [q] := by
  have hinside (x : Char) (xs : List Char) :
      upperFrom ⟨some q, d⟩ (x :: xs) = x :: upperFrom (Standing.step ⟨some q, d⟩ x) xs :=
    upperFrom_cons _ (fun h => by cases h) xs
  have hquote (xs : List Char) : upperFrom ⟨none, d⟩ (q :: xs) = q :: upperFrom ⟨some q, d⟩ xs := by
    rw [upperFrom_cons _ fun _ => isCaseless_of_isQuote hq, Standing.step_quote hq]
  induction h with
  | nil => rw [List.nil_append, hinside, upperFrom]
  | double _ ih => rw [List.cons_append, List.cons_append, hinside, Standing.step_close, hquote, ih]
  | char hne _ ih => rw [List.cons_append, hinside, Standing.step_inside hne, ih]

/-- A code block is left as it is. -/
theorem upperFrom_braced {k : Nat} {d : Text.Depth} (h : Text.Braced k body) (hd : d.curly = k + 1) :
    upperFrom ⟨none, d⟩ (body ++ ['}']) = body ++ ['}'] := by
  have hinside {k : Nat} {d : Text.Depth} (hd : d.curly = k + 1) (x : Char) (xs : List Char) :
      upperFrom ⟨none, d⟩ (x :: xs) = x :: upperFrom (Standing.step ⟨none, d⟩ x) xs := by
    refine upperFrom_cons _ (fun hout => ?_) xs
    have hcurly : d.curly = 0 := (Standing.isOutside_iff.mp hout).2
    omega
  induction h generalizing d with
  | nil => rw [List.nil_append, hinside hd, upperFrom]
  | @literal k c lit body hq hlit _ _ ih =>
    rw [show c :: (lit ++ c :: body) ++ ['}'] = c :: ((lit ++ [c]) ++ (body ++ ['}'])) by simp, hinside hd,
      Standing.step_quote hq, Source.upperFrom_append, Standing.after_quoted hq d hlit, upperFrom_quoted hq d hlit,
      ih hd]
  | opening _ ih =>
    rw [List.cons_append, hinside hd, Standing.step_plain (by decide), ih (by rw [Text.Depth.curly_track_open, hd])]
  | closing _ ih =>
    rw [List.cons_append, hinside hd, Standing.step_plain (by decide),
      ih (by rw [Text.Depth.curly_track_close, hd]; rfl)]
  | char hq ho hc _ ih =>
    rw [List.cons_append, hinside hd, Standing.step_plain hq,
      ih (by rw [Text.Depth.curly_track _ (by simpa using ho) (by simpa using hc), hd])]

/-- Text without delimiters is put in upper case. -/
theorem upperFrom_eq_upper {d : Text.Depth} (hd : d.curly = 0) (h : ∀ x ∈ cs, Text.isDelimiter x = false) :
    upperFrom ⟨none, d⟩ cs = upper cs := by
  induction cs with
  | nil => rfl
  | cons c cs ih =>
    obtain ⟨hc, hcs⟩ := List.forall_mem_cons.mp h
    rw [upperFrom, if_pos (Standing.isOutside_iff.mpr ⟨rfl, hd⟩), Standing.step_of_not_isDelimiter hc, ih hcs,
      Text.upper_cons]

theorem upper_caseless (h : ∀ x ∈ cs, Text.isCaseless x = true) : upper cs = cs := by
  induction cs with
  | nil => rfl
  | cons c cs ih =>
    obtain ⟨hc, hcs⟩ := List.forall_mem_cons.mp h
    rw [Text.upper_cons, Text.upperChar_caseless hc, ih hcs]
    rfl

/-- Where a text outside literals and blocks goes on, it starts with upper case. -/
theorem head?_upperFrom (hs : s.isOutside = true) (hy : y ∈ (upperFrom s cs).head?) :
    ∃ x ∈ cs.head?, y ∈ upperChar x := by
  cases cs with
  | nil => cases hy
  | cons x cs =>
    obtain ⟨z, zs, hz⟩ := List.exists_cons_of_ne_nil (Text.upperChar_ne_nil x)
    rw [upperFrom, if_pos hs, hz] at hy
    cases hy
    exact ⟨x, rfl, by simp [hz]⟩

/-! ## Lexemes -/

theorem isCaseless_of_symbol {next : Option Char} {r : Token × Bool} (h : symbol? c next = some r) :
    Text.isCaseless c = true := isCaseless_of_not_isNameChar (symbol?_char h).2.2.2

theorem isCaseless_of_symbols (h : symbol? c (some x) = some (token, true)) : Text.isCaseless x = true := by
  unfold symbol? at h
  split at h <;> cases h <;> rename_i hnext <;> cases hnext <;> rfl

/-- Upper case makes a lexeme longer where the character itself does. -/
theorem Spelled.prolongs_upper (hs : Spelled c tail token) (hy : y ∈ upperChar x) :
    prolongs c token y = prolongs c token x := by
  have hne (z : Char) (hz : Text.isCaseless z = true) : ∀ x, Text.isCaseless x = false → (x == z) = false := by
    rintro x hx
    rw [beq_eq_false_iff_ne]
    rintro rfl
    rw [hz] at hx
    cases hx
  have hsymbol (z : Char) (hz : Text.isCaseless z = true) : (y == z) = (x == z) := class_upper (hne z hz) hy
  cases token with
  | number n => exact class_upper Text.isDigit_of_not_isCaseless hy
  | name s => exact class_upper isNameChar_of_not_isCaseless hy
  | text s =>
    cases hs with
    | text quote closed => exact hsymbol c (isCaseless_of_isQuote quote)
    | symbol one =>
      unfold symbol? at one
      split at one <;> cases one
    | symbols two =>
      unfold symbol? at two
      split at two <;> cases two
  | less => rw [prolongs_less, prolongs_less, hsymbol '>' rfl, hsymbol '=' rfl]
  | greater => rw [prolongs_greater, prolongs_greater, hsymbol '=' rfl]
  | equal => rw [prolongs_equal, prolongs_equal, hsymbol '<' rfl, hsymbol '>' rfl]
  | _ => rfl

/-- What is spelled with symbols is no name. -/
theorem raised_of_symbol {next : Option Char} {r : Token × Bool} (h : symbol? c next = some r) :
    r.1.raised = r.1 := by
  unfold symbol? at h
  split at h <;> cases h <;> rfl

/-- A name in upper case is a name. -/
theorem upper_name (first : Number.isDigit c = false) (letters : ∀ x ∈ c :: tail, isNameChar x = true) :
    ∃ c' tail', Text.upper (c :: tail) = c' :: tail' ∧ Number.isDigit c' = false ∧
      ∀ x ∈ c' :: tail', isNameChar x = true := by
  obtain ⟨c', cs', hc'⟩ := List.exists_cons_of_ne_nil (Text.upperChar_ne_nil c)
  have hupper : Text.upper (c :: tail) = c' :: (cs' ++ Text.upper tail) := by
    rw [Text.upper_cons, hc', List.cons_append]
  refine ⟨c', cs' ++ Text.upper tail, hupper, ?_, ?_⟩
  · rw [class_upper Text.isDigit_of_not_isCaseless (show c' ∈ upperChar c by simp [hc']), first]
  · intro y hy
    rw [← hupper] at hy
    obtain ⟨x, hx, hy⟩ := List.mem_flatMap.mp hy
    rw [class_upper isNameChar_of_not_isCaseless hy, letters x hx]

/-- A lexeme in upper case spells the token in upper case, and the same characters make it longer. -/
theorem Spelled.upper (hs : Spelled c tail token) (h : s.isOutside = true) :
    ∃ c' tail', upperFrom s (c :: tail) = c' :: tail' ∧ Spelled c' tail' token.raised ∧
      ∀ x, prolongs c' token.raised x = prolongs c token x := by
  obtain ⟨quote, d⟩ := s
  obtain ⟨rfl, hd⟩ : quote = none ∧ d.curly = 0 := Standing.isOutside_iff.mp h
  cases hs with
  | number first digits value =>
    have hall : ∀ x ∈ c :: tail, Number.isDigit x = true := List.forall_mem_cons.mpr ⟨first, digits⟩
    refine ⟨c, tail, ?_, .number first digits value, fun _ => rfl⟩
    rw [upperFrom_eq_upper hd fun x hx => isDelimiter_of_isDigit (hall x hx),
      upper_caseless fun x hx => isCaseless_of_isDigit (hall x hx)]
  | text quote closed =>
    refine ⟨c, _, ?_, .text quote closed, fun _ => rfl⟩
    rw [upperFrom_cons _ fun _ => isCaseless_of_isQuote quote, Standing.step_quote quote,
      upperFrom_quoted quote d (Text.quoted_of_closeQuote closed).1]
  | code closed =>
    have hopen : (d.track '{').curly = 0 + 1 := by rw [Text.Depth.curly_track_open, hd]
    refine ⟨'{', _, ?_, .code closed, fun _ => rfl⟩
    rw [upperFrom_cons _ fun _ => rfl, Standing.step_plain (by decide),
      upperFrom_braced (Text.braced_of_closeBlock closed) hopen]
  | name first letter letters =>
    have hall : ∀ x ∈ c :: tail, isNameChar x = true := List.forall_mem_cons.mpr ⟨letter, letters⟩
    obtain ⟨c', tail', hupper, hdigit, hletters⟩ := upper_name first hall
    refine ⟨c', tail', ?_, ?_, fun _ => rfl⟩
    · rw [upperFrom_eq_upper hd fun x hx => isDelimiter_of_isNameChar (hall x hx), hupper]
    · rw [raised_name, uppercased, String.toList_ofList, hupper]
      obtain ⟨hletter, hrest⟩ := List.forall_mem_cons.mp hletters
      exact .name hdigit hletter hrest
  | symbol one =>
    have hraised : token.raised = token := raised_of_symbol one
    refine ⟨c, [], ?_, hraised.symm ▸ .symbol one, fun _ => by rw [hraised]⟩
    rw [upperFrom_cons _ fun _ => isCaseless_of_symbol one]
    rfl
  | @symbols _ x _ two =>
    have hraised : token.raised = token := raised_of_symbol two
    refine ⟨c, [x], ?_, hraised.symm ▸ .symbols two, fun _ => by rw [hraised]⟩
    rw [upperFrom_cons _ fun _ => isCaseless_of_symbol two, upperFrom_cons _ fun _ => isCaseless_of_symbols two]
    rfl

/-- Digits are the same in upper case, and end where they did. -/
theorem takeWhile_upperFrom {d : Text.Depth} (hd : d.curly = 0) (cs : List Char) :
    (upperFrom ⟨none, d⟩ cs).takeWhile Number.isDigit = cs.takeWhile Number.isDigit := by
  have hdigits : ∀ x ∈ cs.takeWhile Number.isDigit, Number.isDigit x = true := of_mem_takeWhile
  have hplain : ∀ x ∈ cs.takeWhile Number.isDigit, Text.isDelimiter x = false :=
    fun x hx => isDelimiter_of_isDigit (hdigits x hx)
  have hrest : ∀ y ∈ (upperFrom ⟨none, d⟩ (cs.dropWhile Number.isDigit)).head?, Number.isDigit y = false := by
    intro y hy
    obtain ⟨x, hx, hy⟩ := head?_upperFrom (Standing.isOutside_iff.mpr ⟨rfl, hd⟩) hy
    rw [class_upper Text.isDigit_of_not_isCaseless hy]
    exact head?_dropWhile_stop _ cs x hx
  conv => lhs; rw [← List.takeWhile_append_dropWhile (p := Number.isDigit) (l := cs)]
  rw [Source.upperFrom_append, Standing.after_of_not_isDelimiter hplain, upperFrom_eq_upper hd hplain,
    upper_caseless fun x hx => isCaseless_of_isDigit (hdigits x hx)]
  exact (takeWhile_append_of_stop hdigits hrest).1

/-- What cannot be read cannot be read in upper case, for the same reason. -/
theorem read_upper_error {u : Unreadable} (h : read c cs = .error u) (hs : s.isOutside = true)
    (hout : (s.after (c :: cs)).isOutside = true) :
    Text.isCaseless c = true ∧ ∃ u', read c (upperFrom (s.step c) cs) = .error u' ∧ u'.kind = u.kind := by
  cases fails_of_read h hs hout with
  | digits first value =>
    obtain ⟨quote, d⟩ := s
    obtain ⟨rfl, hd⟩ : quote = none ∧ d.curly = 0 := Standing.isOutside_iff.mp hs
    rw [Standing.step_of_not_isDelimiter (isDelimiter_of_isDigit first)]
    exact ⟨isCaseless_of_isDigit first, _, (Fails.digits first (by rwa [takeWhile_upperFrom hd])).read, rfl⟩
  | symbol first quote brace letter none =>
    exact ⟨isCaseless_of_not_isNameChar (by simpa using letter), _,
      (Fails.symbol first quote brace letter none).read, rfl⟩

/-! ## Whole texts -/

/-- Behind two places at which the same text goes on, once in upper case, stand separators alike. -/
theorem spaced_upper {w r as as' : List Char} (hs : s.isOutside = true) (hw : w = as ++ cs)
    (hr : r = as' ++ upperFrom s cs) (start start' : Nat) :
    spaced w ⟨start, byteSize as⟩ = spaced r ⟨start', byteSize as'⟩ := by
  rw [spaced, spaced, hw, hr, Text.charAt?_append, Text.charAt?_append]
  cases cs with
  | nil => rfl
  | cons x cs =>
    obtain ⟨y, ys, hy⟩ := List.exists_cons_of_ne_nil (Text.upperChar_ne_nil x)
    rw [upperFrom, if_pos hs, hy]
    exact (class_upper separates_of_not_isCaseless (by simp [hy])).symm

/-- **The tokens of a text in upper case** are its tokens with their names in upper case, if the text starts
and ends outside literals and blocks; and if it has none, the reason is the same. -/
theorem tokenizeFrom_upper {w r as as' : List Char} {pos pos' : Nat} (hs : s.isOutside = true)
    (hout : (s.after cs).isOutside = true) (hw : w = as ++ cs) (hpos : byteSize as = pos)
    (hr : r = as' ++ upperFrom s cs) (hpos' : byteSize as' = pos') :
    Tied (Raised w r) (tokenizeFrom pos cs) (tokenizeFrom pos' (upperFrom s cs)) := by
  fun_induction tokenizeFrom pos cs generalizing s as as' pos' with
  | case1 pos =>
    rw [upperFrom, tokenizeFrom]
    exact .ok .nil
  | case2 pos c cs hspace ih =>
    rw [upperFrom_cons _ fun _ => isCaseless_of_isSpace hspace] at hr ⊢
    rw [tokenizeFrom, if_pos hspace]
    have hw' : w = (as ++ [c]) ++ cs := by simp [hw]
    have hr' : r = (as' ++ [c]) ++ upperFrom (s.step c) cs := by simp [hr]
    exact ih (isOutside_step_space hspace hs) hout hw' (by simp [hpos]) hr' (by simp [hpos'])
  | case3 pos c cs hspace u hu =>
    obtain ⟨hc, u', hu', hkind⟩ := read_upper_error hu hs hout
    rw [upperFrom_cons _ fun _ => hc, tokenizeFrom, if_neg hspace]
    split
    · next u₁ hu₁ =>
      rw [hu'] at hu₁
      cases hu₁
      exact .error hkind.symm
    · next l hl =>
      rw [hu'] at hl
      cases hl
  | case4 pos c cs hspace l hl ih =>
    obtain ⟨tail, hcs, hspelled, hsize, hstop⟩ := read_eq_ok_iff.mp hl
    obtain ⟨c', tail', hupper, hspelled', hprolongs⟩ := hspelled.upper hs
    have hafter : (s.after (c :: tail)).isOutside = true := hspelled.isOutside hs
    -- in upper case the lexeme ends where it ended
    have hstop' : ∀ y ∈ (upperFrom (s.after (c :: tail)) l.rest).head?,
        prolongs c' l.token.raised y = false := by
      intro y hy
      obtain ⟨x, hx, hy⟩ := head?_upperFrom hafter hy
      rw [hprolongs, hspelled.prolongs_upper hy]
      exact hstop x hx
    rw [hcs, ← List.cons_append, Standing.after_append] at hout
    rw [hcs, ← List.cons_append, Source.upperFrom_append, hupper] at hr ⊢
    have hw' : w = (as ++ c :: tail) ++ l.rest := by simp [hw, hcs]
    have hr' : r = (as' ++ c' :: tail') ++ upperFrom (s.after (c :: tail)) l.rest := by simp [hr]
    have hpos₁ : byteSize (as ++ c :: tail) = pos + l.size := by rw [Text.byteSize_append, hpos, hsize]
    have hpos₂ : byteSize (as' ++ c' :: tail') = pos' + byteSize (c' :: tail') := by
      rw [Text.byteSize_append, hpos']
    rw [List.cons_append, tokenizeFrom_lexeme hspelled' hstop']
    refine (ih hafter hout hw' hpos₁ hr' hpos₂).bind fun ts ts' _ hraised => .ok (.cons ?_ hraised)
    rw [← hpos₁, ← hpos₂]
    -- the separator behind a word is one in upper case as well
    exact spaced_upper hafter hw' hr' _ _

theorem tokenize_prepare (hout : (Standing.after {} cs).isOutside = true) :
    Tied (Raised cs (Source.prepare cs)) (tokenize cs) (tokenize (Source.prepare cs)) := by
  rw [Source.prepare_eq, tokenize, tokenize]
  exact tokenizeFrom_upper rfl hout (List.nil_append cs).symm rfl (List.nil_append _).symm rfl

end Token

end QuestScript
