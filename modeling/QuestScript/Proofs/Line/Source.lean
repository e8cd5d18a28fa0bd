import QuestScript.Line
import QuestScript.Proofs.Expr.Display

/-!
# Lines that read as themselves

Code that is written line by line must come back line by line. `Whole` says what that asks of one
line: it stands outside literals and blocks where it ends and at no break before, nothing at its ends
is trimmed, it does not go on with the next line, and it is in upper case already.

The reader looks at the character after a quote to tell a pair of quotes from the end of a literal; its
places agree with where the text stands (`Place.Follows`). So each whole line is read alone, whatever
comes after its break, and the lines of a text of whole lines are these (`texts_ofSource`).

A line that is written is put together from pieces that leave nothing open (`Piece`): keywords, literals
and separators.
-/

namespace QuestScript.Source

open Text (Standing Depth isQuote trim upperChar)

/-! ## Places -/

/-- A place agrees with where the text stands before the character `next`: at the second of two quotes
the first one has closed the literal. -/
inductive Place.Follows : Place → Standing → Option Char → Prop
  | plain {next : Option Char} (d : Depth) : Follows ⟨.plain, d.curly⟩ ⟨none, d⟩ next
  | literal {q : Char} {next : Option Char} (quote : isQuote q = true) (d : Depth) :
      Follows ⟨.literal q, d.curly⟩ ⟨some q, d⟩ next
  | paired {q : Char} (quote : isQuote q = true) (d : Depth) :
      Follows ⟨.paired q, d.curly⟩ ⟨none, d⟩ (some q)

variable {p : Place} {s : Standing} {c : Char} {cs : List Char}

theorem Place.Follows.after (h : p.Follows s (some c)) (next : Option Char) :
    (p.after c next).Follows (s.step c) next := by
  cases h with
  | plain d =>
    unfold Place.after
    dsimp only
    split
    · next hc =>
      obtain rfl : c = '{' := by simpa using hc
      exact .plain (d.track '{')
    split
    · next hc =>
      obtain rfl : c = '}' := by simpa using hc
      exact .plain (d.track '}')
    split
    · next hq =>
      rw [Standing.step_quote hq]
      exact .literal hq d
    · next ho hc hq =>
      rw [Standing.step_plain (by simpa using hq), ← Depth.curly_track d ho hc]
      exact .plain (d.track c)
  | @literal q _ quote d =>
    by_cases hc : c = q
    · subst hc
      rw [Standing.step_close]
      by_cases hnext : next = some c
      · subst hnext
        simpa [Place.after] using Place.Follows.paired quote d
      · simpa [Place.after, hnext] using Place.Follows.plain d
    · rw [Standing.step_inside hc]
      simpa [Place.after, hc] using Place.Follows.literal quote d
  | paired quote d =>
    rw [Standing.step_quote quote]
    exact .literal quote d

/-- Before anything but a quote the place knows whether it is outside. -/
theorem Place.Follows.isTop (h : p.Follows s (some c)) (hc : isQuote c = false) :
    p.isTop = s.isOutside := by
  cases h with
  | plain d => simp [Place.isTop, Standing.isOutside]
  | literal quote d => simp [Place.isTop, Standing.isOutside]
  | paired quote d => rw [quote] at hc; cases hc

/-! ## Upper case -/

/-- Put in upper case what stands outside literals and blocks. -/
def upperFrom (s : Standing) : List Char → List Char
  | [] => []
  | c :: cs => (if s.isOutside then upperChar c else [c]) ++ upperFrom (s.step c) cs

theorem upperFrom_append (s : Standing) (as bs : List Char) :
    upperFrom s (as ++ bs) = upperFrom s as ++ upperFrom (s.after as) bs := by
  induction as generalizing s with
  | nil => rfl
  | cons c as ih => rw [List.cons_append, upperFrom, ih, upperFrom, List.append_assoc, Standing.after_cons]

theorem upperChar_quote (h : isQuote c = true) : upperChar c = [c] := by
  have h' : c = '\'' ∨ c = '"' := by simpa [isQuote] using h
  rcases h' with rfl | rfl <;> rfl

theorem prepareFrom_eq (h : p.Follows s cs.head?) : prepareFrom p cs = upperFrom s cs := by
  induction cs generalizing p s with
  | nil => rfl
  | cons c cs ih =>
    rw [prepareFrom, upperFrom, ih (h.after cs.head?)]
    congr 1
    -- a quote is the same in upper case, so the two may differ about it
    by_cases hc : isQuote c = true
    · simp [upperChar_quote hc]
    · rw [h.isTop (by simpa using hc)]

theorem prepare_eq (cs : List Char) : prepare cs = upperFrom {} cs := prepareFrom_eq (.plain {})

/-! ## Physical lines -/

/-- A line that ends outside literals and blocks, with no break outside before, is read alone. -/
theorem splitFrom_line (rest : List Char) (h : p.Follows s (cs ++ '\n' :: rest).head?)
    (hin : ∀ before after, cs = before ++ '\n' :: after → (s.after before).isOutside = false)
    (hout : (s.after cs).isOutside = true) (line first : Nat) (current : List Char) :
    ∃ n, splitFrom p line first current (cs ++ '\n' :: rest)
      = (trim (current.reverse ++ cs), first) :: splitFrom {} n n [] rest := by
  induction cs generalizing p s line current with
  | nil =>
    have htop : p.isTop = true := (h.isTop (by decide)).trans hout
    have hp : p = {} := by
      obtain ⟨part, blocks⟩ := p
      simp only [Place.isTop, Bool.and_eq_true, decide_eq_true_eq, beq_iff_eq] at htop
      rw [htop.1, htop.2]
    refine ⟨line + 1, ?_⟩
    rw [List.nil_append, splitFrom, if_pos (by simp [htop]), List.append_nil, hp]
  | cons c cs ih =>
    have hc : ¬ (c == '\n' && p.isTop) = true := by
      simp only [Bool.and_eq_true, beq_iff_eq, not_and, Bool.not_eq_true]
      rintro rfl
      rw [h.isTop (by decide)]
      exact hin [] cs rfl
    obtain ⟨n, hn⟩ := ih (h.after _) (fun before after heq => hin (c :: before) after (by rw [heq]; rfl))
      hout (if c == '\n' then line + 1 else line) (c :: current)
    refine ⟨n, ?_⟩
    rw [List.cons_append, splitFrom, if_neg hc, hn]
    simp

/-! ## Whole lines -/

/-- A text that is read as one line with the same text. -/
structure Whole (cs : List Char) : Prop where
  noReturn : '\r' ∉ cs
  unbroken : ∀ before after, cs = before ++ '\n' :: after → (Standing.after {} before).isOutside = false
  outside : (Standing.after {} cs).isOutside = true
  trimmed : trim cs = cs
  complete : continues cs = false
  upper : prepare cs = cs

theorem whole_nil : Whole [] where
  noReturn := by simp
  unbroken := by simp
  outside := rfl
  trimmed := rfl
  complete := rfl
  upper := rfl

theorem splitFrom_whole {ls : List (List Char)} (h : ∀ l ∈ ls, Whole l) (n : Nat) :
    (splitFrom {} n n [] (ls.flatMap (· ++ ['\n']))).map (·.1) = ls ++ [[]] := by
  induction ls generalizing n with
  | nil => rfl
  | cons l ls ih =>
    obtain ⟨hl, hls⟩ := List.forall_mem_cons.mp h
    obtain ⟨k, hk⟩ := splitFrom_line (ls.flatMap (· ++ ['\n'])) (.plain {}) hl.unbroken hl.outside n n []
    rw [List.flatMap_cons, List.append_assoc, List.singleton_append, hk, List.map_cons, ih hls k]
    simp [hl.trimmed]

theorem filter_whole {ls : List (List Char)} (h : ∀ l ∈ ls, Whole l) :
    (ls.flatMap (· ++ ['\n'])).filter (· != '\r') = ls.flatMap (· ++ ['\n']) := by
  refine List.filter_eq_self.mpr ?_
  intro c hc
  obtain ⟨l, hl, hc⟩ := List.mem_flatMap.mp hc
  rcases List.mem_append.mp hc with hc | hc
  · simp only [bne_iff_ne, ne_eq]
    rintro rfl
    exact (h l hl).noReturn hc
  · rw [List.mem_singleton.mp hc]
    rfl

/-- Lines of which none goes on with the next are not joined. -/
theorem joinFrom_of_complete {text : List Char} {number : Nat} {lines : List (List Char × Nat)}
    (htext : continues text = false) (h : ∀ l ∈ lines, continues l.1 = false) :
    joinFrom text number lines = (text, number) :: lines := by
  induction lines generalizing text number with
  | nil => rfl
  | cons l lines ih =>
    obtain ⟨hl, hlines⟩ := List.forall_mem_cons.mp h
    rw [joinFrom, if_neg (by simp [htext]), ih hl hlines]

theorem joinContinuations_of_complete {lines : List (List Char × Nat)}
    (h : ∀ l ∈ lines, continues l.1 = false) : joinContinuations lines = lines := by
  cases lines with
  | nil => rfl
  | cons l lines =>
    obtain ⟨hl, hlines⟩ := List.forall_mem_cons.mp h
    exact joinFrom_of_complete hl hlines

/-- **The lines of a text of whole lines** are these, and an empty one after the last break. -/
theorem texts_ofSource {ls : List (List Char)} (h : ∀ l ∈ ls, Whole l) :
    (Line.ofSource (ls.flatMap (· ++ ['\n']))).map (·.text) = ls ++ [[]] := by
  have hwhole : ∀ l ∈ ls ++ [[]], Whole l := by
    intro l hl
    rcases List.mem_append.mp hl with hl | hl
    · exact h l hl
    · rw [List.mem_singleton.mp hl]
      exact whole_nil
  have hphysical : (physicalLines (ls.flatMap (· ++ ['\n']))).map (·.1) = ls ++ [[]] := by
    rw [physicalLines, filter_whole h, splitFrom_whole h]
  have hcomplete : ∀ l ∈ physicalLines (ls.flatMap (· ++ ['\n'])), continues l.1 = false := by
    intro l hl
    refine (hwhole l.1 ?_).complete
    rw [← hphysical]
    exact List.mem_map_of_mem hl
  have hupper : (ls ++ [[]]).map prepare = ls ++ [[]] :=
    (List.map_congr_left fun l hl => (hwhole l hl).upper).trans (List.map_id _)
  rw [← hupper, ← hphysical, Line.ofSource, logicalLines, joinContinuations_of_complete hcomplete]
  simp [Function.comp_def, Line.scan]

/-- Every line of a source text is scanned from its own text. -/
theorem scan_of_mem_ofSource {cs : List Char} {l : Line} (h : l ∈ Line.ofSource cs) :
    l = Line.scan l.text l.number := by
  obtain ⟨r, -, rfl⟩ := List.mem_map.mp h
  rfl

/-! ## Lines made of pieces -/

/-- A part of a line that leaves nothing open and is in upper case. -/
structure Piece (cs : List Char) : Prop where
  noReturn : '\r' ∉ cs
  unbroken : ∀ before after, cs = before ++ '\n' :: after → (Standing.after {} before).isOutside = false
  closed : Standing.after {} cs = {}
  upper : upperFrom {} cs = cs

namespace Piece

variable {as bs : List Char}

/-- Plain text without breaks. -/
theorem of_notMem (hreturn : '\r' ∉ cs) (hbreak : '\n' ∉ cs) (hclosed : Standing.after {} cs = {})
    (hupper : upperFrom {} cs = cs) : Piece cs where
  noReturn := hreturn
  unbroken before after heq := absurd (by simp [heq]) hbreak
  closed := hclosed
  upper := hupper

/-- Where a break stands in two parts of a line, the first of which leaves nothing open. -/
theorem unbroken_append (ha : Piece as)
    (hb : ∀ before after, bs = before ++ '\n' :: after → (Standing.after {} before).isOutside = false) :
    ∀ before after, as ++ bs = before ++ '\n' :: after →
      (Standing.after {} before).isOutside = false := by
  intro before after heq
  rcases Token.append_eq_append_cons heq with ⟨between, rfl, rfl⟩ | ⟨part, rfl⟩
  · rw [Standing.after_append, ha.closed]
    exact hb between after rfl
  · exact ha.unbroken before part rfl

theorem append (ha : Piece as) (hb : Piece bs) : Piece (as ++ bs) where
  noReturn := by simp [ha.noReturn, hb.noReturn]
  unbroken := ha.unbroken_append hb.unbroken
  closed := by rw [Standing.after_append, ha.closed, hb.closed]
  upper := by rw [upperFrom_append, ha.upper, ha.closed, hb.upper]

theorem upperFrom_doubleQuotes {q : Char} (hq : isQuote q = true) (cs rest : List Char) :
    upperFrom ⟨some q, {}⟩ (Text.doubleQuotes q cs ++ rest)
      = Text.doubleQuotes q cs ++ upperFrom ⟨some q, {}⟩ rest := by
  induction cs with
  | nil => rfl
  | cons c cs ih =>
    by_cases hc : c = q
    · subst hc
      simp [Text.doubleQuotes, upperFrom, Standing.step_close, Standing.step_quote hq, upperChar_quote hq,
        Standing.isOutside, ih]
    · simp [Text.doubleQuotes, hc, upperFrom, Standing.step_inside hc, Standing.isOutside, ih]

/-- A literal is a piece. -/
theorem singleQuoted {x : String} (hx : '\r' ∉ x.toList) : Piece (Text.singleQuoted x).toList := by
  have htext : (Text.singleQuoted x).toList
      = '\'' :: (Text.doubleQuotes '\'' x.toList ++ ['\'']) := by
    simp [Text.singleQuoted]
  have hclose : Text.closeQuote '\'' (Text.doubleQuotes '\'' x.toList ++ ['\''])
      = some (Text.doubleQuotes '\'' x.toList, []) :=
    Text.closeQuote_doubleQuotes '\'' x.toList (by simp)
  rw [htext]
  refine ⟨?_, ?_, ?_, ?_⟩
  · simpa [Text.mem_doubleQuotes] using hx
  · intro before after heq
    cases before with
    | nil => cases heq
    | cons y before =>
      simp only [List.cons_append, List.cons.injEq] at heq
      obtain ⟨rfl, heq⟩ := heq
      exact (Token.Spelled.text (by decide) hclose).isOutside_within (by decide) rfl heq
  · rw [Standing.after_cons, Standing.step_quote (by decide), Standing.after_closeQuote (by decide) {} hclose]
  · rw [upperFrom, Standing.step_quote (by decide), upperFrom_doubleQuotes (by decide)]
    rfl

/-- A piece that begins and ends with text is a whole line. -/
theorem whole (h : Piece cs) (hfirst : ∀ c ∈ cs.head?, Text.isBlank c = false)
    (hlast : ∀ c ∈ cs.getLast?, Text.isBlank c = false ∧ c ≠ '_') : Whole cs where
  noReturn := h.noReturn
  unbroken := h.unbroken
  outside := by rw [h.closed]; rfl
  trimmed := Text.trim_eq_self_iff.mpr ⟨hfirst, fun c hc => (hlast c hc).1⟩
  complete := by
    cases hcont : continues cs with
    | false => rfl
    | true =>
      obtain ⟨before, rfl⟩ := List.isSuffixOf_iff_suffix.mp hcont
      exact absurd rfl (hlast '_' (by simp)).2
  upper := (prepare_eq cs).trans h.upper

/-- A line may start with a piece. -/
theorem append_whole (ha : Piece as) (hfirst : ∀ c ∈ as.head?, Text.isBlank c = false)
    (hlast : ∀ c ∈ as.getLast?, c ≠ ' ') (hne : as ≠ []) (hb : Whole bs) (hne' : bs ≠ []) :
    Whole (as ++ bs) where
  noReturn := by simp [ha.noReturn, hb.noReturn]
  unbroken := ha.unbroken_append hb.unbroken
  outside := by rw [Standing.after_append, ha.closed, hb.outside]
  trimmed := by
    have hlast' := (Text.trim_eq_self_iff.mp hb.trimmed).2
    obtain ⟨a, rest, rfl⟩ := List.exists_cons_of_ne_nil hne
    rw [Text.trim_eq_self_iff, List.getLast?_append,
      Option.or_of_isSome (by simpa using hne')]
    exact ⟨hfirst, hlast'⟩
  complete := by
    cases hcont : continues (as ++ bs) with
    | false => rfl
    | true =>
      have hsuffix : [' ', '_'] <:+ as ++ bs := List.isSuffixOf_iff_suffix.mp hcont
      have hincomplete : ¬ [' ', '_'] <:+ bs := by
        intro hbs
        have := hb.complete
        rw [continues, List.isSuffixOf_iff_suffix.mpr hbs] at this
        cases this
      -- so only the underscore is in the second part, and the blank ends the first
      have hbs : bs = ['_'] := by
        rcases List.suffix_or_suffix_of_suffix hsuffix (List.suffix_append as bs) with h | h
        · exact absurd h hincomplete
        · rcases List.suffix_cons_iff.mp h with rfl | h
          · exact absurd (List.suffix_refl _) hincomplete
          · rcases List.suffix_cons_iff.mp h with h | h
            · exact h
            · exact absurd (List.suffix_nil.mp h) hne'
      obtain ⟨before, heq⟩ := hsuffix
      rw [hbs, ← List.singleton_append, ← List.append_assoc] at heq
      have has : as = before ++ [' '] := (List.append_cancel_right heq).symm
      exact absurd rfl (hlast ' ' (by simp [has]))
  upper := by
    rw [prepare_eq, upperFrom_append, ha.upper, ha.closed, ← prepare_eq, hb.upper]

end Piece

end QuestScript.Source
