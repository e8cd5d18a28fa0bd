import Mathlib.Data.List.TakeWhile
import QuestScript.Text.Blank

/-!
# Trimming

Trimming a text is known from both sides. The text consists of blanks, of what is left of it, and of
blanks again (`exists_trim`); and blanks put around a text do not change what is left of it
(`trim_surrounded`). Nothing goes if there is no blank at either end (`trim_eq_self_iff`).
-/

namespace QuestScript.Text

variable {p : Char → Bool} {cs : List Char}

/-! ## One end -/

theorem dropWhile_eq_self_iff : cs.dropWhile p = cs ↔ ∀ c ∈ cs.head?, p c = false := by
  cases cs with
  | nil => simp
  | cons c cs =>
    cases hc : p c with
    | false => simp [hc]
    | true =>
      simp only [List.dropWhile_cons_of_pos hc, List.head?_cons, Option.mem_some_iff, forall_eq', hc,
        Bool.true_eq_false, iff_false]
      intro heq
      have hle := (List.dropWhile_suffix p (l := cs)).length_le
      rw [heq, List.length_cons] at hle
      omega

theorem dropTrailing_eq_self_iff : dropTrailing p cs = cs ↔ ∀ c ∈ cs.getLast?, p c = false := by
  rw [dropTrailing, List.reverse_eq_iff, dropWhile_eq_self_iff, List.head?_reverse]

theorem exists_dropTrailing (p : Char → Bool) (cs : List Char) :
    ∃ after, cs = dropTrailing p cs ++ after ∧ ∀ c ∈ after, p c = true := by
  refine ⟨(cs.reverse.takeWhile p).reverse, ?_, fun c hc => ?_⟩
  · rw [dropTrailing, ← List.reverse_append, List.takeWhile_append_dropWhile, List.reverse_reverse]
  · exact List.mem_takeWhile_imp (List.mem_reverse.mp hc)

theorem dropTrailing_append {after : List Char} (h : ∀ c ∈ after, p c = true) :
    dropTrailing p (cs ++ after) = dropTrailing p cs := by
  rw [dropTrailing, List.reverse_append, List.dropWhile_append_of_pos (by simpa using h), dropTrailing]

/-! ## Both ends -/

/-- The blanks at the ends of a text are what trimming takes away. -/
theorem exists_trim (cs : List Char) :
    ∃ after, cs = cs.takeWhile isBlank ++ (trim cs ++ after) ∧ ∀ c ∈ after, isBlank c = true := by
  obtain ⟨after, hcs, hafter⟩ := exists_dropTrailing isBlank (dropBlanks cs)
  refine ⟨after, ?_, hafter⟩
  rw [trim, ← hcs, dropBlanks, List.takeWhile_append_dropWhile]

/-- Blanks around a text are trimmed with it. -/
theorem trim_surrounded {before after : List Char} (hbefore : ∀ c ∈ before, isBlank c = true)
    (hafter : ∀ c ∈ after, isBlank c = true) (cs : List Char) :
    trim (before ++ (cs ++ after)) = trim cs := by
  rw [trim, dropBlanks, List.dropWhile_append_of_pos hbefore, List.dropWhile_append]
  split
  · next hempty =>
    -- there was nothing but blanks, so those behind the text go with those in front
    have hblank : dropBlanks cs = [] := List.isEmpty_iff.mp hempty
    have hafter' : after.dropWhile isBlank = [] := List.dropWhile_eq_nil_iff.mpr hafter
    rw [hafter', trim, hblank]
  · exact dropTrailing_append hafter

/-- Nothing is trimmed if there is no blank at either end. -/
theorem trim_eq_self_iff :
    trim cs = cs ↔ (∀ c ∈ cs.head?, isBlank c = false) ∧ ∀ c ∈ cs.getLast?, isBlank c = false := by
  constructor
  · intro h
    -- neither cut can have removed anything
    have hfront : dropBlanks cs = cs := by
      obtain ⟨after, hcs, -⟩ := exists_dropTrailing isBlank (dropBlanks cs)
      have hlen := congrArg List.length hcs
      have hle := dropBlanks_length_le cs
      rw [← trim, h, List.length_append] at hlen
      exact (List.dropWhile_suffix isBlank).eq_of_length (show (dropBlanks cs).length = cs.length by omega)
    rw [trim, hfront] at h
    exact ⟨dropWhile_eq_self_iff.mp hfront, dropTrailing_eq_self_iff.mp h⟩
  · rintro ⟨hfirst, hlast⟩
    rw [trim, dropBlanks, dropWhile_eq_self_iff.mpr hfirst, dropTrailing_eq_self_iff.mpr hlast]

/-- Nothing is left of a text if it holds nothing but blanks. -/
theorem trim_eq_nil_iff : trim cs = [] ↔ ∀ c ∈ cs, isBlank c = true := by
  constructor
  · intro h c hc
    obtain ⟨after, hcs, hafter⟩ := exists_trim cs
    rw [h, List.nil_append] at hcs
    rw [hcs, List.mem_append] at hc
    exact hc.elim List.mem_takeWhile_imp (hafter c)
  · intro h
    have hsurrounded := trim_surrounded h (by simp : ∀ c ∈ [], isBlank c = true) []
    rwa [List.append_nil, List.append_nil, trim_nil] at hsurrounded

/-- What is no blank is kept. -/
theorem mem_trim {c : Char} (h : c ∈ cs) (hc : isBlank c = false) : c ∈ trim cs := by
  obtain ⟨after, hcs, hafter⟩ := exists_trim cs
  have hnot {ds : List Char} (hds : ∀ d ∈ ds, isBlank d = true) : c ∉ ds := fun hmem => by
    rw [hds c hmem] at hc
    cases hc
  rw [hcs, List.mem_append, List.mem_append] at h
  exact (h.resolve_left (hnot fun _ => List.mem_takeWhile_imp)).resolve_right (hnot hafter)

end QuestScript.Text
