import Mathlib.Data.String.Basic
import QuestScript.Bisection

/-!
# What a search by halving finds

The search is right when of two entries the former is too small or the latter too great (`Splits`), as
they are in ascending order of their keys (`splits_compare`). Then one entry fits at most; it is found
wherever it stands, and if none fits, the search ends between the entries that are too small and those
that are too great, so that a new one is to be put there (`exists_gap`).

While the list is halved, every entry behind the part that is left is too great, and the entry at its
start is not, unless nothing in front of it has been dropped (`narrow_last`).
-/

namespace QuestScript.Bisection

variable {α : Type} {order : α → Ordering} {xs : List α}

/-- Of two entries the former is too small or the latter too great. -/
def Splits (order : α → Ordering) (xs : List α) : Prop :=
  xs.Pairwise fun a b => order a = .lt ∨ order b = .gt

theorem Splits.getElem (h : Splits order xs) {i j : Nat} (hij : i < j) (hj : j < xs.length) :
    order xs[i] = .lt ∨ order xs[j] = .gt :=
  List.pairwise_iff_getElem.mp h i j (Nat.lt_trans hij hj) hj hij

/-- Two entries that fit are the same one. -/
theorem Splits.unique (h : Splits order xs) {x y : α} (hx : x ∈ xs) (hy : y ∈ xs)
    (hxe : order x = .eq) (hye : order y = .eq) : x = y := by
  obtain ⟨i, hi, rfl⟩ := List.mem_iff_getElem.mp hx
  obtain ⟨j, hj, rfl⟩ := List.mem_iff_getElem.mp hy
  rcases Nat.lt_trichotomy i j with hij | rfl | hij
  · rcases h.getElem hij hj with hlt | hgt
    · simp [hlt] at hxe
    · simp [hgt] at hye
  · rfl
  · rcases h.getElem hij hi with hlt | hgt
    · simp [hlt] at hye
    · simp [hgt] at hxe

/-- Entries in ascending order of their keys can be searched for any key. -/
theorem splits_compare {key : α → String} (h : xs.Pairwise fun a b => key a < key b) (k : String) :
    Splits (fun x => compare (key x) k) xs := by
  refine h.imp fun {a b} hab => ?_
  rcases lt_or_ge (key a) k with hlt | hge
  · exact .inl (compare_lt_iff_lt.mpr hlt)
  · exact .inr (compare_gt_iff_gt.mpr (lt_of_le_of_lt hge hab))

/-! ## Halving -/

/-- All behind an entry are too great, and it is not, unless it is the first one. -/
structure IsLast (order : α → Ordering) (xs : List α) (i : Fin xs.length) : Prop where
  not_gt : 0 < i.val → order (xs.get i) ≠ .gt
  gt_behind : ∀ j (hj : j < xs.length), i.val < j → order xs[j] = .gt

/-- Halving ends at the last entry that is not too great, or at the first one of all. -/
theorem narrow_last (h : Splits order xs) {base size : Nat} (nonempty : 0 < size)
    (inside : base + size ≤ xs.length) (hfirst : 0 < base → order xs[base] ≠ .gt)
    (hbehind : ∀ j (hj : j < xs.length), base + size ≤ j → order xs[j] = .gt) :
    IsLast order xs (narrow order xs base size nonempty inside) := by
  fun_induction narrow order xs base size nonempty inside with
  | case1 base nonempty inside => exact ⟨hfirst, hbehind⟩
  | case2 base size nonempty inside single half hgt ih =>
    refine ih hfirst fun j hj hle => ?_
    -- the first entry of the upper half is too great, so all of the upper half is
    rcases Nat.lt_or_ge (base + half) j with hlt | hge
    · rcases h.getElem hlt hj with hsmall | hgreat
      · simp [hsmall] at hgt
      · exact hgreat
    · obtain rfl : j = base + half := by omega
      exact hgt
  | case3 base size nonempty inside single half hgt ih =>
    exact ih (fun _ => hgt) fun j hj hle => hbehind j hj (by omega)

/-! ## The whole search -/

/-- The whole search looks once more at the entry that halving ends at. -/
theorem search_cases (h : Splits order xs) :
    (xs = [] ∧ search order xs = .gap 0) ∨
      ∃ i, IsLast order xs i ∧
        search order xs = match order (xs.get i) with
          | .lt => .gap i.succ
          | .eq => .hit i
          | .gt => .gap i.castSucc := by
  unfold search
  split
  · next hnil => exact .inl ⟨List.length_eq_zero_iff.mp hnil, rfl⟩
  · refine .inr ⟨_, narrow_last h _ _ (fun hpos => absurd hpos (Nat.lt_irrefl 0)) ?_, rfl⟩
    intro j hj hle
    omega

/-- An entry that the search ends at fits, in any list. -/
theorem order_of_search_eq_hit {i : Fin xs.length} (h : search order xs = .hit i) :
    order (xs.get i) = .eq := by
  unfold search at h
  split at h
  · cases h
  · simp only at h
    split at h
    · cases h
    · next heq =>
      cases h
      exact heq
    · cases h

/-- What is found is an entry, in any list. -/
theorem mem_of_find? {x : α} (h : find? order xs = some x) : x ∈ xs := by
  unfold find? at h
  split at h
  · next i _ =>
    cases h
    exact List.getElem_mem i.isLt
  · cases h

/-- A search that ends between two entries has all that are too small in front of it and all that are
too great behind it. -/
theorem order_of_search_eq_gap (hs : Splits order xs) {i : Fin (xs.length + 1)}
    (h : search order xs = .gap i) {j : Nat} (hj : j < xs.length) :
    order xs[j] = if j < i.val then .lt else .gt := by
  rcases search_cases hs with ⟨rfl, -⟩ | ⟨k, hlast, hk⟩
  · simp at hj
  rw [hk] at h
  split at h
  · next hlt =>
    obtain rfl : k.succ = i := by simpa using h
    rcases Nat.lt_trichotomy j k.val with hjk | rfl | hkj
    · rw [if_pos (by simp; omega)]
      rcases hs.getElem hjk k.isLt with hsmall | hgreat
      · exact hsmall
      · exact absurd (hgreat.symm.trans hlt) nofun
    · rw [if_pos (by simp)]
      exact hlt
    · rw [if_neg (by simp; omega)]
      exact hlast.gt_behind j hj hkj
  · cases h
  · next hgt =>
    obtain rfl : k.castSucc = i := by simpa using h
    -- even this one is too great, so it is the first of all
    have hzero : k.val = 0 := Nat.eq_zero_of_not_pos fun hpos => hlast.not_gt hpos hgt
    rw [if_neg (by simp [hzero])]
    rcases Nat.eq_zero_or_pos j with rfl | hpos
    · simpa [← hzero] using hgt
    · exact hlast.gt_behind j hj (by omega)

theorem insertIdx_eq_append (x : α) (l : List α) {i : Nat} (h : i ≤ l.length) :
    l.insertIdx i x = l.take i ++ x :: l.drop i := by
  induction i generalizing l with
  | zero => rfl
  | succ i ih =>
    cases l with
    | nil => simp at h
    | cons y l => simpa using ih l (by simpa using h)

/-- What is put where a search ends stands behind all that are too small and in front of all that are
too great. -/
theorem exists_gap (hs : Splits order xs) {i : Fin (xs.length + 1)} (h : search order xs = .gap i)
    (x : α) :
    ∃ before behind, xs = before ++ behind ∧ xs.insertIdx i x = before ++ x :: behind ∧
      (∀ r ∈ before, order r = .lt) ∧ ∀ r ∈ behind, order r = .gt := by
  have hgap {j : Nat} (hj : j < xs.length) := order_of_search_eq_gap hs h hj
  refine ⟨xs.take i, xs.drop i, by simp, insertIdx_eq_append _ _ (Nat.le_of_lt_succ i.isLt), ?_, ?_⟩
  · intro r hr
    obtain ⟨j, hj, rfl⟩ := List.mem_take_iff_getElem.mp hr
    rw [hgap (by omega), if_pos (by omega)]
  · intro r hr
    obtain ⟨j, hj, rfl⟩ := List.mem_drop_iff_getElem.mp hr
    rw [hgap (by omega), if_neg (by omega)]

/-- **A search finds the entry that fits**, and none if none fits. -/
theorem find?_eq_some_iff (hs : Splits order xs) {x : α} :
    find? order xs = some x ↔ x ∈ xs ∧ order x = .eq := by
  unfold find?
  split
  · next i hi =>
    have hfits := order_of_search_eq_hit hi
    constructor
    · rintro ⟨⟩
      exact ⟨List.getElem_mem i.isLt, hfits⟩
    · rintro ⟨hx, hxe⟩
      rw [hs.unique hx (List.getElem_mem i.isLt) hxe hfits]
      rfl
  · next i hi =>
    constructor
    · nofun
    · rintro ⟨hx, hxe⟩
      obtain ⟨j, hj, rfl⟩ := List.mem_iff_getElem.mp hx
      rw [order_of_search_eq_gap hs hi hj] at hxe
      split at hxe <;> simp at hxe

/-- What else is asked of an entry can be asked while the list is gone through from the front. -/
theorem filter_find? (hs : Splits order xs) (p : α → Bool) :
    (find? order xs).filter p = xs.find? fun x => order x == .eq && p x := by
  refine Option.ext fun x => ?_
  rw [Option.filter_eq_some_iff, find?_eq_some_iff hs]
  constructor
  · rintro ⟨⟨hx, hxe⟩, hp⟩
    have hsome : (xs.find? fun x => order x == .eq && p x).isSome := by
      rw [List.find?_isSome]
      exact ⟨x, hx, by simp [hxe, hp]⟩
    obtain ⟨y, hy⟩ := Option.isSome_iff_exists.mp hsome
    have hye := List.find?_some hy
    simp only [Bool.and_eq_true, beq_iff_eq] at hye
    rw [hy, hs.unique hx (List.mem_of_find?_eq_some hy) hxe hye.1]
  · intro h
    have hxe := List.find?_some h
    simp only [Bool.and_eq_true, beq_iff_eq] at hxe
    exact ⟨⟨List.mem_of_find?_eq_some h, hxe.1⟩, hxe.2⟩

end QuestScript.Bisection
