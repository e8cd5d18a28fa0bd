import QuestScript.Random

/-!
# Random numbers

Starting again with a seed leaves nothing of a generator behind: all lags are written before one of
them is read that has not been (`fillLags_congr`), and while the table is filled from its end, no entry
of it is read (`Agrees.fillTable`).

The size of an interval is computed in 64 bits. For two bounds that are further apart than there are
positive numbers it wraps around, but only once and only to zero or below (`size_nonpos_iff`), so its
sign tells. What is drawn from an interval with a size stays inside of it, and so does every sum on the
way.
-/

namespace QuestScript.Generator

variable {g g' : Generator}

/-! ## Starting again -/

/-- Lags that agree up to the place where writing begins are the same when it ends. -/
theorem fillLags_congr {lags lags' : Vector UInt32 55} {k : Nat}
    (h : ∀ m (hm : m < 55), m < k + 2 → lags[m] = lags'[m]) : fillLags lags k = fillLags lags' k := by
  fun_induction fillLags lags k generalizing lags' with
  | case1 lags k hk ih =>
    rw [fillLags.eq_def lags' k, dif_pos hk]
    refine ih fun m hm hlt => ?_
    by_cases hmk : m = k + 2
    · subst hmk
      simp [h k (by omega) (by omega), h (k + 1) (by omega) (by omega)]
    · rw [Vector.getElem_set_ne _ _ (Ne.symm hmk), Vector.getElem_set_ne _ _ (Ne.symm hmk)]
      exact h m hm (by omega)
  | case2 lags k hk =>
    rw [fillLags.eq_def lags' k, dif_neg hk]
    exact Vector.ext fun m hm => h m hm (by omega)

/-- The same lags and places, and the same table from entry `n` on. -/
structure Agrees (n : Nat) (g g' : Generator) : Prop where
  lags : g.lags = g'.lags
  i : g.i = g'.i
  j : g.j = g'.j
  table : ∀ m (hm : m < 256), n ≤ m → g.table[m] = g'.table[m]

/-- A word depends on neither the table nor the word that picks from it. -/
theorem Agrees.step {n : Nat} (h : Agrees n g g') :
    g.step.1 = g'.step.1 ∧ Agrees n g.step.2 g'.step.2 := by
  unfold Generator.step
  simp only [h.lags, h.i, h.j, true_and]
  exact ⟨rfl, rfl, rfl, h.table⟩

theorem Agrees.skip {n : Nat} (h : Agrees n g g') (m : Nat) : Agrees n (g.skip m) (g'.skip m) := by
  induction m generalizing g g' with
  | zero => exact h
  | succ m ih => exact ih h.step.2

/-- Filling the table brings the rest of it into agreement. -/
theorem Agrees.fillTable {n : Nat} (h : Agrees n g g') (hn : n ≤ 256) :
    Agrees 0 (g.fillTable n) (g'.fillTable n) := by
  induction n generalizing g g' with
  | zero => exact h
  | succ n ih =>
    obtain ⟨hword, hstep⟩ := h.step
    refine ih ⟨hstep.lags, hstep.i, hstep.j, fun m hm hle => ?_⟩ (by omega)
    show (g.step.2.table.setIfInBounds n g.step.1)[m] = (g'.step.2.table.setIfInBounds n g'.step.1)[m]
    rw [hword]
    by_cases hmn : n = m
    · subst hmn
      simp
    · rw [Vector.getElem_setIfInBounds_ne hm hmn, Vector.getElem_setIfInBounds_ne hm hmn]
      exact hstep.table m hm (by omega)

/-- Whatever a generator was, started again it is the one for the seed. -/
theorem reseed_congr (g g' : Generator) (seed : UInt32) : g.reseed seed = g'.reseed seed := by
  have hlags : Generator.fillLags ((g.lags.set 0 1).set 1 seed) 0
      = Generator.fillLags ((g'.lags.set 0 1).set 1 seed) 0 := by
    refine fillLags_congr fun m hm hlt => ?_
    have hm' : m = 0 ∨ m = 1 := by omega
    rcases hm' with rfl | rfl <;> simp
  unfold reseed
  simp only [hlags]
  generalize Generator.fillLags ((g'.lags.set 0 1).set 1 seed) 0 = lags
  -- before the table is filled only it and the word that picks from it can be different
  have hstart : Agrees 256 { g with lags, i := 23, j := 54 } { g' with lags, i := 23, j := 54 } :=
    ⟨rfl, rfl, rfl, fun m hm hle => by omega⟩
  obtain ⟨hpick, hfilled⟩ := ((hstart.skip 256).fillTable (Nat.le_refl 256)).step
  have htable := Vector.ext fun m hm => hfilled.table m hm (Nat.zero_le m)
  rw [hpick, mk.injEq]
  exact ⟨hfilled.lags, hfilled.i, hfilled.j, htable, rfl⟩

theorem reseed_eq_ofSeed (g : Generator) (seed : UInt32) : g.reseed seed = ofSeed seed :=
  reseed_congr g _ seed

/-! ## Numbers of 31 bits -/

theorem next_bounds (g : Generator) : 0 ≤ g.next.1.toInt ∧ g.next.1.toInt ≤ 0x7FFFFFFF := by
  have hle : (g.table[slot g.pick] &&& 0x7fffffff).toNat ≤ 0x7FFFFFFF := by
    rw [UInt32.toNat_and]
    exact Nat.and_le_right
  have htoInt : g.next.1.toInt = (g.table[slot g.pick] &&& 0x7fffffff).toNat :=
    Int64.toInt_ofNat_of_lt (by omega)
  omega

/-- A number that is drawn moves the places on. -/
theorem next_ne (g : Generator) : g.next.2 ≠ g := by
  intro h
  have hmoves : ∀ j : Fin 55, j - 1 ≠ j := by decide
  exact hmoves g.j (congrArg Generator.j h)

/-! ## Numbers between two bounds -/

theorem toInt_low (a b : Number) : (if b < a then b else a).toInt = min a.toInt b.toInt := by
  split
  · next h =>
    have := Int64.lt_iff_toInt_lt.mp h
    omega
  · next h =>
    have := mt Int64.lt_iff_toInt_lt.mpr h
    omega

theorem toInt_high (a b : Number) : (if b < a then a else b).toInt = max a.toInt b.toInt := by
  split
  · next h =>
    have := Int64.lt_iff_toInt_lt.mp h
    omega
  · next h =>
    have := mt Int64.lt_iff_toInt_lt.mpr h
    omega

variable {low high : Number}

theorem toInt_size (low high : Number) :
    (high - low + 1).toInt = (high.toInt - low.toInt + 1).bmod 18446744073709551616 := by
  rw [Int64.toInt_add, Int64.toInt_sub, Int.bmod_add_bmod]
  rfl

/-- The size of an interval wraps around, to zero or below, exactly if it is greater than all numbers. -/
theorem size_nonpos_iff (h : low.toInt ≤ high.toInt) :
    high - low + 1 ≤ 0 ↔ 9223372036854775807 < high.toInt - low.toInt + 1 := by
  have hlow := Int64.le_toInt low
  have hhigh := Int64.toInt_lt high
  rw [Int64.le_iff_toInt_le, toInt_size, Int64.toInt_zero, Int.bmod_def]
  split <;> omega

theorem toInt_size_of_pos (h : low.toInt ≤ high.toInt) (hpos : ¬high - low + 1 ≤ 0) :
    (high - low + 1).toInt = high.toInt - low.toInt + 1 := by
  rw [size_nonpos_iff h] at hpos
  rw [toInt_size]
  exact Int.bmod_eq_of_le (by omega) (by omega)

/-- What is left of a number that is not negative, counted from the lower bound on, is between the
bounds, and the sum is no other one in 64 bits. -/
theorem toInt_draw {n : Number} (hn : 0 ≤ n.toInt) (h : low.toInt ≤ high.toInt)
    (hpos : ¬high - low + 1 ≤ 0) :
    (n % (high - low + 1) + low).toInt = (n % (high - low + 1)).toInt + low.toInt ∧
      0 ≤ (n % (high - low + 1)).toInt ∧
      (n % (high - low + 1)).toInt ≤ high.toInt - low.toInt := by
  have hsize := toInt_size_of_pos h hpos
  have hmod : (n % (high - low + 1)).toInt = n.toInt % (high.toInt - low.toInt + 1) := by
    rw [Int64.toInt_mod, hsize, Int.tmod_eq_emod_of_nonneg hn]
  have hnonneg := Int.emod_nonneg n.toInt (show high.toInt - low.toInt + 1 ≠ 0 by omega)
  have hlt := Int.emod_lt_of_pos n.toInt (show 0 < high.toInt - low.toInt + 1 by omega)
  have hlow := Int64.le_toInt low
  have hhigh := Int64.toInt_lt high
  refine ⟨?_, by omega, by omega⟩
  rw [Int64.toInt_add, hmod]
  exact Int.bmod_eq_of_le (by omega) (by omega)

/-- An interval that has no size gives its lower bound, and the generator stays as it is. -/
theorem range_of_overflow {a b : Number}
    (h : 9223372036854775807 < max a.toInt b.toInt - min a.toInt b.toInt + 1) (g : Generator) :
    let low := if b < a then b else a
    let high := if b < a then a else b
    high - low + 1 ≤ 0 ∧ g.range a b = (low, g) := by
  intro low high
  have hsize : high - low + 1 ≤ 0 := by
    rw [size_nonpos_iff (by rw [toInt_low, toInt_high]; omega), toInt_low, toInt_high]
    exact h
  exact ⟨hsize, if_pos hsize⟩

/-- An interval with a size gives what is left of the next number. -/
theorem range_of_fits {a b : Number}
    (h : ¬9223372036854775807 < max a.toInt b.toInt - min a.toInt b.toInt + 1) (g : Generator) :
    let low := if b < a then b else a
    let high := if b < a then a else b
    ¬high - low + 1 ≤ 0 ∧ g.range a b = (g.next.1 % (high - low + 1) + low, g.next.2) := by
  intro low high
  have hpos : ¬high - low + 1 ≤ 0 := by
    rw [size_nonpos_iff (by rw [toInt_low, toInt_high]; omega), toInt_low, toInt_high]
    exact h
  exact ⟨hpos, if_neg hpos⟩

theorem range_bounds (g : Generator) (a b : Number) :
    min a.toInt b.toInt ≤ (g.range a b).1.toInt ∧ (g.range a b).1.toInt ≤ max a.toInt b.toInt := by
  by_cases h : 9223372036854775807 < max a.toInt b.toInt - min a.toInt b.toInt + 1
  · rw [(range_of_overflow h g).2, toInt_low]
    omega
  · obtain ⟨hpos, hrange⟩ := range_of_fits h g
    have hdraw := toInt_draw (next_bounds g).1 (by rw [toInt_low, toInt_high]; omega) hpos
    rw [hrange, hdraw.1]
    rw [toInt_low, toInt_high] at hdraw
    rw [toInt_low]
    omega

theorem range_eq_self_iff (g : Generator) (a b : Number) :
    (g.range a b).2 = g ↔ 9223372036854775807 < max a.toInt b.toInt - min a.toInt b.toInt + 1 := by
  by_cases h : 9223372036854775807 < max a.toInt b.toInt - min a.toInt b.toInt + 1
  · rw [(range_of_overflow h g).2]
    exact iff_of_true rfl h
  · rw [(range_of_fits h g).2]
    exact iff_of_false (next_ne g) h

end QuestScript.Generator
