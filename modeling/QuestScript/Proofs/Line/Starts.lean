import QuestScript.Proofs.Line.Append

/-!
# Where a physical line starts

The lines of a text are numbered, and each physical line keeps the number of the one it starts on. So the
numbers tell at which breaks a new physical line starts (`startsLine`): exactly at those that stand outside
literals and blocks, whatever comes after them (`startsLine_break`).
-/

namespace QuestScript.Source

open Text (Standing)

/-- Whether a physical line of the text `before ++ rest` starts where `rest` does. `before` is empty or ends
in a break. -/
def startsLine (before rest : List Char) : Bool :=
  (physicalLines (before ++ rest)).any fun l => l.2 == before.count '\n' + 1

variable {p : Place} {s : Standing} {line first : Nat} {current cs rest : List Char}

/-- The line that is being read keeps its number. -/
theorem exists_splitFrom_first (p : Place) (line first : Nat) (current cs : List Char) :
    ∃ l ∈ splitFrom p line first current cs, l.2 = first := by
  induction cs generalizing p line current with
  | nil => exact ⟨_, List.mem_singleton_self _, rfl⟩
  | cons c cs ih =>
    rw [splitFrom]
    split
    · exact ⟨_, List.mem_cons_self, rfl⟩
    · exact ih _ _ _

/-- The lines after it have greater numbers than those that have been read. -/
theorem splitFrom_number {l : List Char × Nat} (h : l ∈ splitFrom p line first current cs) :
    l.2 = first ∨ line < l.2 := by
  induction cs generalizing p line first current with
  | nil =>
    rw [splitFrom, List.mem_singleton] at h
    exact .inl (congrArg Prod.snd h)
  | cons c cs ih =>
    rw [splitFrom] at h
    split at h
    · rcases List.mem_cons.mp h with rfl | h
      · exact .inl rfl
      · have := ih h
        omega
    · have := ih h
      split at this
      · omega
      · exact this

/-- At a break inside a literal or a block no line starts. -/
theorem splitFrom_break_inside (h : p.Follows s (cs ++ '\n' :: rest).head?)
    (hin : (s.after cs).isOutside = false) (hfirst : first ≤ line) {l : List Char × Nat}
    (hl : l ∈ splitFrom p line first current (cs ++ '\n' :: rest)) : l.2 ≠ line + cs.count '\n' + 1 := by
  induction cs generalizing p s line first current with
  | nil =>
    have htop : p.isTop = false := (h.isTop (by decide)).trans hin
    rw [List.nil_append, splitFrom, htop, Bool.and_false, if_neg Bool.false_ne_true] at hl
    have := splitFrom_number hl
    simp only [beq_self_eq_true, if_true] at this
    rw [List.count_nil]
    omega
  | cons c cs ih =>
    rw [Standing.after_cons] at hin
    rw [List.cons_append, splitFrom] at hl
    split at hl
    · next hbreak =>
      obtain ⟨hc, htop⟩ := Bool.and_eq_true_iff.mp hbreak
      obtain rfl : c = '\n' := by simpa using hc
      obtain rfl := Place.eq_of_isTop htop
      rw [List.count_cons_self]
      rcases List.mem_cons.mp hl with rfl | hl
      · dsimp only
        omega
      · have hfollows : Place.Follows {} (s.step '\n') (cs ++ '\n' :: rest).head? := h.after _
        have := ih hfollows hin (Nat.le_refl _) hl
        omega
    · have hcount : (if c == '\n' then line + 1 else line) + cs.count '\n'
          = line + (c :: cs).count '\n' := by
        rw [List.count_cons]
        split
        · omega
        · omega
      have hle : first ≤ if c == '\n' then line + 1 else line := by
        split
        · omega
        · exact hfirst
      rw [← hcount]
      exact ih (h.after _) hin hle hl

/-- **A physical line starts at the breaks outside literals and blocks** and at no others, whatever comes
after the break. -/
theorem startsLine_break (cs rest : List Char) :
    startsLine (cs ++ ['\n']) rest = (Standing.after {} cs).isOutside := by
  have hcount : (cs.filter (· != '\r')).count '\n' = cs.count '\n' := List.count_filter (by decide)
  have hnumber : (cs ++ ['\n']).count '\n' + 1 = 1 + (cs.filter (· != '\r')).count '\n' + 1 := by
    rw [hcount, List.count_append, List.count_singleton_self]
    omega
  have hlines : physicalLines (cs ++ ['\n'] ++ rest)
      = splitFrom {} 1 1 [] (cs.filter (· != '\r') ++ '\n' :: rest.filter (· != '\r')) := by
    rw [physicalLines, List.append_assoc, List.filter_append]
    rfl
  unfold startsLine
  rw [hnumber, hlines, ← after_filter_return cs (by simp)]
  cases hout : (Standing.after {} (cs.filter (· != '\r'))).isOutside with
  | true =>
    rw [splitFrom_append _ _ (.plain {}) hout, List.any_append, Bool.or_eq_true]
    obtain ⟨l, hl, hfirst⟩ := exists_splitFrom_first {} (1 + (cs.filter (· != '\r')).count '\n' + 1)
      (1 + (cs.filter (· != '\r')).count '\n' + 1) [] (rest.filter (· != '\r'))
    exact .inr (List.any_eq_true.mpr ⟨l, hl, beq_iff_eq.mpr hfirst⟩)
  | false =>
    refine List.any_eq_false.mpr fun l hl => ?_
    rw [beq_iff_eq]
    exact splitFrom_break_inside (.plain {}) hout (Nat.le_refl 1) hl

/-- The first line starts where the text does. -/
theorem startsLine_nil (rest : List Char) : startsLine [] rest = true := by
  obtain ⟨l, hl, hfirst⟩ := exists_splitFrom_first {} 1 1 [] (rest.filter (· != '\r'))
  exact List.any_eq_true.mpr ⟨l, hl, beq_iff_eq.mpr hfirst⟩

end QuestScript.Source
