import QuestScript.Proofs.Line.Source

/-!
# The lines of two texts, one after the other

A reader of lines carries three things across a line break: whether a literal or a block is open, the
line that goes on after an underscore, and the number of the line. `ofSource_append` says that nothing
else is carried. Where a text ends outside literals and blocks, and its last line does not go on, the
lines of a second text after a break are the lines it has on its own, with greater numbers.

Each of the three steps of the reader is cut at the break: the physical lines (`splitFrom_append`), the
continuations (`joinFrom_append`), and the upper case, which looks at each line alone.
-/

namespace QuestScript.Source

open Text (Standing Depth isQuote trim upperChar)

/-! ## Physical lines -/

variable {p : Place} {s : Standing} {c : Char}

/-- Carriage returns do not change where a text stands. -/
theorem after_filter_return (cs : List Char) (hs : ∀ q ∈ s.quote, isQuote q = true) :
    s.after (cs.filter (· != '\r')) = s.after cs := by
  induction cs generalizing s with
  | nil => rfl
  | cons c cs ih =>
    obtain ⟨quote, d⟩ := s
    have hnext : ∀ q ∈ (Standing.step ⟨quote, d⟩ c).quote, isQuote q = true := by
      intro q hq
      cases quote with
      | none =>
        by_cases hc : isQuote c = true
        · rw [Standing.step_quote hc] at hq
          cases hq
          exact hc
        · rw [Standing.step_plain (by simpa using hc)] at hq
          cases hq
      | some q' =>
        by_cases hc : c = q'
        · rw [hc, Standing.step_close] at hq
          cases hq
        · rw [Standing.step_inside hc] at hq
          exact hs q hq
    by_cases hc : c = '\r'
    · subst hc
      have hstep : Standing.step ⟨quote, d⟩ '\r' = ⟨quote, d⟩ := by
        cases quote with
        | none => exact Standing.step_plain (by decide)
        | some q =>
          refine Standing.step_inside ?_
          rintro rfl
          exact absurd (hs '\r' rfl) (by decide)
      rw [List.filter_cons_of_neg (by decide), Standing.after_cons, hstep]
      exact ih hs
    · rw [List.filter_cons_of_pos (by simpa using hc), Standing.after_cons, Standing.after_cons]
      exact ih hnext

/-- Before a break that counts the place is that of the start of a text. -/
theorem Place.eq_of_isTop (h : p.isTop = true) : p = {} := by
  obtain ⟨part, blocks⟩ := p
  simp only [Place.isTop, Bool.and_eq_true, decide_eq_true_eq, beq_iff_eq] at h
  rw [h.1, h.2]

/-- A quote at the end of a text closes its literal, whether a break follows or nothing. -/
theorem Place.Follows.after_break (h : p.Follows s (some c)) :
    p.after c (some '\n') = p.after c none := by
  cases h with
  | plain d => rfl
  | @literal q _ quote d =>
    have hq : ¬ '\n' = q := by
      rintro rfl
      exact absurd quote (by decide)
    simp [Place.after, hq]
  | paired quote d => rfl

/-- The lines of a text that ends outside literals and blocks are read alone, and what comes after its
break is read from the start. -/
theorem splitFrom_append (cs rest : List Char) (h : p.Follows s (cs ++ '\n' :: rest).head?)
    (hout : (s.after cs).isOutside = true) (line first : Nat) (current : List Char) :
    splitFrom p line first current (cs ++ '\n' :: rest)
      = splitFrom p line first current cs
        ++ splitFrom {} (line + cs.count '\n' + 1) (line + cs.count '\n' + 1) [] rest := by
  induction cs generalizing p s line first current with
  | nil =>
    have htop : p.isTop = true := (h.isTop (by decide)).trans hout
    obtain rfl := Place.eq_of_isTop htop
    rfl
  | cons c cs ih =>
    rw [Standing.after_cons] at hout
    rw [List.cons_append, splitFrom, splitFrom]
    by_cases hbreak : (c == '\n' && p.isTop) = true
    · obtain ⟨hc, htop⟩ := Bool.and_eq_true_iff.mp hbreak
      obtain rfl : c = '\n' := by simpa using hc
      obtain rfl := Place.eq_of_isTop htop
      have hfollows : Place.Follows {} (s.step '\n') (cs ++ '\n' :: rest).head? := h.after _
      rw [if_pos hbreak, if_pos hbreak, ih hfollows hout, List.count_cons_self, List.cons_append]
      simp only [Nat.add_assoc, Nat.add_comm 1]
    · -- only where the text ends does the reader see another character behind
      have hplace : p.after c (cs ++ '\n' :: rest).head? = p.after c cs.head? := by
        cases cs with
        | nil => exact h.after_break
        | cons d cs => rfl
      have hcount : (if c == '\n' then line + 1 else line) + cs.count '\n'
          = line + (c :: cs).count '\n' := by
        rw [List.count_cons]
        split
        · omega
        · omega
      have hfollows := h.after (cs ++ '\n' :: rest).head?
      rw [if_neg hbreak, if_neg hbreak, ih hfollows hout, hplace, hcount]

theorem splitFrom_ne_nil (p : Place) (line first : Nat) (current cs : List Char) :
    splitFrom p line first current cs ≠ [] := by
  induction cs generalizing p line first current with
  | nil => exact List.cons_ne_nil _ _
  | cons c cs ih =>
    rw [splitFrom]
    split
    · exact List.cons_ne_nil _ _
    · exact ih _ _ _ _

/-- Numbers are counted from the number of the first line. -/
theorem splitFrom_add (p : Place) (line first k : Nat) (current cs : List Char) :
    splitFrom p (line + k) (first + k) current cs
      = (splitFrom p line first current cs).map fun l => (l.1, l.2 + k) := by
  induction cs generalizing p line first current with
  | nil => rfl
  | cons c cs ih =>
    rw [splitFrom, splitFrom]
    split
    · rw [Nat.add_right_comm line k, ih]
      rfl
    · have hline : (if c == '\n' then line + k + 1 else line + k)
          = (if c == '\n' then line + 1 else line) + k := by
        split
        · exact Nat.add_right_comm line k 1
        · rfl
      rw [hline, ih]

theorem physicalLines_append (as bs : List Char) (hout : (Standing.after {} as).isOutside = true) :
    physicalLines (as ++ '\n' :: bs)
      = physicalLines as ++ (physicalLines bs).map fun l => (l.1, l.2 + (1 + as.count '\n')) := by
  have hfilter : (Standing.after {} (as.filter (· != '\r'))).isOutside = true := by
    rw [after_filter_return as (by simp)]
    exact hout
  have hcount : (as.filter (· != '\r')).count '\n' = as.count '\n' :=
    List.count_filter (by decide)
  unfold physicalLines
  rw [List.filter_append, List.filter_cons_of_pos (by decide),
    splitFrom_append _ _ (.plain {}) hfilter, hcount, Nat.add_assoc 1, Nat.add_comm _ 1, splitFrom_add]

/-! ## Continuations -/

theorem joinFrom_ne_nil (text : List Char) (number : Nat) (lines : List (List Char × Nat)) :
    joinFrom text number lines ≠ [] := by
  induction lines generalizing text number with
  | nil => simp [joinFrom]
  | cons l lines ih =>
    rw [joinFrom]
    split
    · exact ih _ _
    · exact List.cons_ne_nil _ _

/-- Lines of which the last one does not go on are joined alone. -/
theorem joinFrom_append {text : List Char} {number : Nat} {lines : List (List Char × Nat)}
    (h : ∀ l ∈ (joinFrom text number lines).getLast?, continues l.1 = false) (next : List Char) (n : Nat)
    (rest : List (List Char × Nat)) :
    joinFrom text number (lines ++ (next, n) :: rest)
      = joinFrom text number lines ++ joinFrom next n rest := by
  induction lines generalizing text number with
  | nil =>
    have htext : continues text = false := h (text, number) rfl
    simp [joinFrom, htext]
  | cons l lines ih =>
    rw [joinFrom] at h
    rw [List.cons_append, joinFrom, joinFrom]
    split
    · next hcont =>
      rw [if_pos hcont] at h
      exact ih h
    · next hcont =>
      rw [if_neg hcont, List.getLast?_cons_of_ne_nil (joinFrom_ne_nil _ _ _)] at h
      rw [ih h, List.cons_append]

theorem joinFrom_add (text : List Char) (number k : Nat) (lines : List (List Char × Nat)) :
    joinFrom text (number + k) (lines.map fun l => (l.1, l.2 + k))
      = (joinFrom text number lines).map fun l => (l.1, l.2 + k) := by
  induction lines generalizing text number with
  | nil => rfl
  | cons l lines ih =>
    rw [List.map_cons, joinFrom, joinFrom]
    split
    · exact ih _ _
    · rw [ih, List.map_cons]

theorem joinContinuations_append {as bs : List (List Char × Nat)} (has : as ≠ [])
    (h : ∀ l ∈ (joinContinuations as).getLast?, continues l.1 = false) (k : Nat) :
    joinContinuations (as ++ bs.map fun l => (l.1, l.2 + k))
      = joinContinuations as ++ (joinContinuations bs).map fun l => (l.1, l.2 + k) := by
  obtain ⟨a, as, rfl⟩ := List.exists_cons_of_ne_nil has
  cases bs with
  | nil => simp [joinContinuations]
  | cons b bs =>
    rw [List.map_cons, List.cons_append]
    show joinFrom a.1 a.2 (as ++ _) = joinFrom a.1 a.2 as ++ (joinFrom b.1 b.2 bs).map _
    rw [joinFrom_append h, joinFrom_add]

/-! ## Logical lines -/

/-- A line that goes on does so in upper case too. -/
theorem continues_prepare {cs : List Char} (h : continues cs = true) : continues (prepare cs) = true := by
  obtain ⟨before, rfl⟩ := List.isSuffixOf_iff_suffix.mp h
  have hmark (s : Standing) : upperFrom s [' ', '_'] = [' ', '_'] := by
    have hblank : upperChar ' ' = [' '] := by decide
    have hunderscore : upperChar '_' = ['_'] := by decide
    simp [upperFrom, hblank, hunderscore]
  rw [prepare_eq, upperFrom_append, hmark]
  exact List.isSuffixOf_iff_suffix.mpr (List.suffix_append _ _)

theorem logicalLines_append {as : List Char} (bs : List Char)
    (hout : (Standing.after {} as).isOutside = true)
    (hlast : ∀ l ∈ (logicalLines as).getLast?, continues l.1 = false) :
    logicalLines (as ++ '\n' :: bs)
      = logicalLines as ++ (logicalLines bs).map fun l => (l.1, l.2 + (1 + as.count '\n')) := by
  have hjoined : ∀ l ∈ (joinContinuations (physicalLines as)).getLast?, continues l.1 = false := by
    intro l hl
    have hprepared := hlast (prepare l.1, l.2) (by
      rw [logicalLines, List.getLast?_map, Option.mem_def.mp hl]
      rfl)
    cases hcont : continues l.1 with
    | false => rfl
    | true =>
      rw [continues_prepare hcont] at hprepared
      cases hprepared
  have hne : physicalLines as ≠ [] := splitFrom_ne_nil _ _ _ _ _
  unfold logicalLines
  rw [physicalLines_append as bs hout, joinContinuations_append hne hjoined, List.map_append, List.map_map,
    List.map_map]
  rfl

/-- **The lines of two texts with a break between them** are those of the first and those of the second,
with greater numbers, if the first ends outside literals and blocks and its last line does not go on. -/
theorem ofSource_append (as bs : List Char) (hout : (Standing.after {} as).isOutside = true)
    (hlast : ∀ l ∈ (Line.ofSource as).getLast?, continues l.text = false) :
    Line.ofSource (as ++ '\n' :: bs)
      = Line.ofSource as
        ++ (Line.ofSource bs).map fun l => { l with number := l.number + (1 + as.count '\n') } := by
  have hlogical : ∀ l ∈ (logicalLines as).getLast?, continues l.1 = false := by
    intro l hl
    refine hlast (Line.scan l.1 l.2) ?_
    rw [Line.ofSource, List.getLast?_map, Option.mem_def.mp hl]
    rfl
  unfold Line.ofSource
  rw [logicalLines_append bs hout hlogical, List.map_append, List.map_map, List.map_map]
  rfl

/-- The first text has a break in a literal and one in a block, a line that goes on, and a quote at its
end; its carriage return counts for nothing. -/
theorem ofSource_append_sample :
    let first := "p 'it''s\n\x7b' _\n  & x = \x7ba\r\nb\x7d & 'y'".toList
    let second := "'z' & *p 1 _\nelse\n:end".toList
    (Standing.after {} first).isOutside = true ∧
      (∀ l ∈ (Line.ofSource first).getLast?, continues l.text = false) ∧
      Line.ofSource (first ++ '\n' :: second)
        = Line.ofSource first
          ++ (Line.ofSource second).map fun l => { l with number := l.number + (1 + first.count '\n') } := by
  intro first second
  have hout : (Standing.after {} first).isOutside = true := by decide +kernel
  have hlast : ∀ l ∈ (Line.ofSource first).getLast?, continues l.text = false := by decide +kernel
  exact ⟨hout, hlast, ofSource_append first second hout hlast⟩

end QuestScript.Source
