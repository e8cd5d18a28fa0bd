import Mathlib.Data.Char
import Mathlib.Order.Compare
import QuestScript.Line.Keyword
import QuestScript.Proofs.Bisection

/-!
# The longest keyword

A keyword is looked for by halving each table, and compared with just as much of the text as it is
long. What these comparisons give is no order of the texts: `ELSE` and `ELSEIF` would both fit one of
them. It does go down the table, though, where every keyword differs from every later one at a place
that both have, and has the smaller character there (`Precedes`).

So a table gives its only keyword that the text starts with, and the tables together give the first
one of all keywords that the text starts with and that ends there (`findSome?_tables`). No keyword is
the beginning of a later one, so it is the longest of them.
-/

namespace QuestScript.StatementKind

/-! ## Comparing with the beginning of a text -/

/-- Where two words first differ, the former has the smaller character. -/
def Precedes : List Char → List Char → Prop
  | a :: as, b :: bs => a < b ∨ (a = b ∧ Precedes as bs)
  | _, _ => False

instance decidablePrecedes : (as bs : List Char) → Decidable (Precedes as bs)
  | a :: as, b :: bs =>
    have := decidablePrecedes as bs
    inferInstanceAs (Decidable (a < b ∨ (a = b ∧ Precedes as bs)))
  | [], _ => isFalse nofun
  | _ :: _, [] => isFalse nofun

/-- Compared with as much of a text, a word fits if the text starts with it. -/
theorem compare_take_eq_iff (word cs : List Char) :
    compare word (cs.take word.length) = .eq ↔ word <+: cs := by
  induction word generalizing cs with
  | nil => simp
  | cons a word ih =>
    cases cs with
    | nil => simp
    | cons c cs =>
      rw [List.length_cons, List.take_succ_cons, List.compare_cons_cons, Ordering.then_eq_eq, ih,
        List.cons_prefix_cons, compare_eq_iff_eq]

/-- Of two words the former is too small for a text or the latter too great. -/
theorem Precedes.compare_take {as bs : List Char} (h : Precedes as bs) (cs : List Char) :
    compare as (cs.take as.length) = .lt ∨ compare bs (cs.take bs.length) = .gt := by
  induction as generalizing bs cs with
  | nil => exact h.elim
  | cons a as ih =>
    obtain _ | ⟨b, bs⟩ := bs
    · exact h.elim
    obtain _ | ⟨c, cs⟩ := cs
    · exact .inr rfl
    simp only [List.length_cons, List.take_succ_cons, List.compare_cons_cons]
    rcases lt_trichotomy a c with hac | rfl | hca
    · left
      simp [compare_lt_iff_lt.mpr hac]
    · rcases h with hab | ⟨rfl, hrest⟩
      · right
        simp [compare_gt_iff_gt.mpr hab]
      · rcases ih hrest cs with hlt | hgt
        · left
          simp [hlt]
        · right
          simp [hgt]
    · right
      have hcb : c < b := by
        rcases h with hab | ⟨rfl, -⟩
        · exact lt_trans hca hab
        · exact hca
      simp [compare_gt_iff_gt.mpr hcb]

/-! ## The tables -/

theorem tables_precede : ∀ table ∈ tables, table.Pairwise fun k l => Precedes k.1.toList l.1.toList := by
  decide +kernel

/-- No keyword is the beginning of a later one. -/
theorem keywords_pairwise : keywords.Pairwise fun k l => ¬k.1.toList <+: l.1.toList := by
  decide +kernel

theorem splits_compareStart {table : List (String × StatementKind)} (htable : table ∈ tables)
    (cs : List Char) : Bisection.Splits (compareStart cs) table := by
  refine (tables_precede table htable).imp fun {k l} hkl => ?_
  unfold compareStart
  rw [← String.length_toList, ← String.length_toList]
  exact hkl.compare_take cs

theorem compareStart_eq_iff {cs : List Char} {k : String × StatementKind} :
    compareStart cs k = .eq ↔ k.1.toList <+: cs := by
  unfold compareStart
  rw [← String.length_toList, compare_take_eq_iff]

/-- A search in a table finds the keyword that the text starts with and that ends there. -/
theorem find?_table {table : List (String × StatementKind)} (htable : table ∈ tables)
    (cs : List Char) : find? cs table = table.find? fun k => startsWith k.1 cs := by
  unfold find?
  rw [Bisection.filter_find? (splits_compareStart htable cs)]
  congr
  funext k
  rw [startsWith, Bool.eq_iff_iff]
  simp [compareStart_eq_iff]

/-- The tables give the first of all keywords that the text starts with and that end there. -/
theorem findSome?_tables (cs : List Char) :
    tables.findSome? (find? cs) = keywords.find? fun k => startsWith k.1 cs := by
  have hmap : tables.map (find? cs) = tables.map (List.find? fun k => startsWith k.1 cs) :=
    List.map_congr_left fun table htable => find?_table htable cs
  have hfind := congrArg (List.findSome? id) hmap
  rwa [List.findSome?_map, List.findSome?_map, Function.id_comp, Function.id_comp,
    ← List.find?_flatten] at hfind

/-! ## The longest keyword -/

/-- The text starts with the keyword, which ends there, and with no longer one that ends. -/
structure Longest (cs : List Char) (k : String × StatementKind) : Prop where
  mem : k ∈ keywords
  starts : startsWith k.1 cs = true
  le : ∀ l ∈ keywords, startsWith l.1 cs = true → l.1.length ≤ k.1.length

theorem prefix_of_startsWith {keyword : String} {cs : List Char} (h : startsWith keyword cs = true) :
    keyword.toList <+: cs := by
  simp only [startsWith, Bool.and_eq_true, List.isPrefixOf_iff_prefix] at h
  exact h.1

/-- The first keyword is the longest one. -/
theorem longest_of_find? {cs : List Char} {k : String × StatementKind}
    (h : (keywords.find? fun k => startsWith k.1 cs) = some k) : Longest cs k := by
  have hstarts := List.find?_some h
  refine ⟨List.mem_of_find?_eq_some h, hstarts, fun l hl hlstarts => ?_⟩
  obtain ⟨-, before, behind, hsplit, hbefore⟩ := List.find?_eq_some_iff_append.mp h
  have hpair := keywords_pairwise
  rw [hsplit, List.pairwise_append, List.pairwise_cons] at hpair
  rw [hsplit, List.mem_append, List.mem_cons] at hl
  rcases hl with hl | rfl | hl
  · have := hbefore l hl
    simp [hlstarts] at this
  · exact Nat.le_refl _
  · -- the text starts with both, so a longer one would begin with this one
    by_contra hlong
    refine hpair.2.1.1 l hl (List.prefix_of_prefix_length_le (prefix_of_startsWith hstarts)
      (prefix_of_startsWith hlstarts) ?_)
    rw [String.length_toList, String.length_toList]
    omega

/-- There is one longest keyword at most. -/
theorem Longest.unique {cs : List Char} {k l : String × StatementKind} (hk : Longest cs k)
    (hl : Longest cs l) : k = l := by
  have hlength : k.1.toList.length = l.1.toList.length := by
    rw [String.length_toList, String.length_toList]
    exact Nat.le_antisymm (hl.le k hk.mem hk.starts) (hk.le l hl.mem hl.starts)
  have hkl := List.prefix_of_prefix_length_le (prefix_of_startsWith hk.starts)
    (prefix_of_startsWith hl.starts) (Nat.le_of_eq hlength)
  have hlk := List.prefix_of_prefix_length_le (prefix_of_startsWith hl.starts)
    (prefix_of_startsWith hk.starts) (Nat.le_of_eq hlength.symm)
  by_contra hne
  obtain ⟨i, hi, rfl⟩ := List.mem_iff_getElem.mp hk.mem
  obtain ⟨j, hj, rfl⟩ := List.mem_iff_getElem.mp hl.mem
  rcases Nat.lt_trichotomy i j with hij | rfl | hji
  · exact List.pairwise_iff_getElem.mp keywords_pairwise i j hi hj hij hkl
  · exact hne rfl
  · exact List.pairwise_iff_getElem.mp keywords_pairwise j i hj hi hji hlk

/-- Neither a label nor a comment, a text has the kind of the first keyword. -/
theorem ofText_eq {cs : List Char} (hlabel : cs.head? ≠ some ':') (hcomment : cs.head? ≠ some '!') :
    ofText cs = ((keywords.find? fun k => startsWith k.1 cs).map fun k =>
      (k.2, some k.1.length)).getD (unknown, none) := by
  unfold ofText
  split
  · have hnone : (keywords.find? fun k => startsWith k.1 []) = none := by decide +kernel
    rw [hnone]
    rfl
  · simp at hlabel
  · simp at hcomment
  · rw [findSome?_tables]
    split
    · next h =>
      rw [h]
      rfl
    · next h =>
      rw [h]
      rfl

/-- A kind with a length is that of a keyword. -/
theorem exists_of_ofText_eq {cs : List Char} {kind : StatementKind} {n : Nat}
    (h : ofText cs = (kind, some n)) :
    ∃ k ∈ keywords, startsWith k.1 cs = true ∧ k.2 = kind ∧ k.1.length = n := by
  unfold ofText at h
  split at h
  · cases h
  · cases h
  · cases h
  · rw [findSome?_tables] at h
    split at h
    · next hfind =>
      cases h
      have hstarts := List.find?_some hfind
      exact ⟨_, List.mem_of_find?_eq_some hfind, hstarts, rfl, rfl⟩
    · cases h

/-- **The longest keyword wins.** Of a text that is neither a label nor a comment, a kind and a length
are those of the longest keyword that the text starts with and behind which a delimiter or the end of
the text stands; and the kind is unknown, without a length, exactly if there is no such keyword. -/
theorem ofText_longest {cs : List Char} (hlabel : cs.head? ≠ some ':')
    (hcomment : cs.head? ≠ some '!') :
    (∀ kind n, ofText cs = (kind, some n) ↔ ∃ k, Longest cs k ∧ k.2 = kind ∧ k.1.length = n) ∧
      ∀ kind, ofText cs = (kind, none) ↔
        kind = unknown ∧ ∀ k ∈ keywords, startsWith k.1 cs = false := by
  rw [ofText_eq hlabel hcomment]
  cases h : keywords.find? fun k => startsWith k.1 cs with
  | none =>
    have hnone : ∀ k ∈ keywords, startsWith k.1 cs = false := by simpa using h
    refine ⟨fun kind n => ⟨nofun, ?_⟩, fun kind => ?_⟩
    · rintro ⟨k, hk, -⟩
      exact absurd hk.starts (by simp [hnone k hk.mem])
    · constructor
      · intro heq
        cases heq
        exact ⟨rfl, hnone⟩
      · rintro ⟨rfl, -⟩
        rfl
  | some k =>
    have hk := longest_of_find? h
    refine ⟨fun kind n => ?_, fun kind => ?_⟩
    · constructor
      · intro heq
        cases heq
        exact ⟨k, hk, rfl, rfl⟩
      · rintro ⟨l, hl, rfl, rfl⟩
        rw [hk.unique hl]
        rfl
    · constructor
      · nofun
      · rintro ⟨-, hnone⟩
        exact absurd hk.starts (by simp [hnone k hk.mem])

/-- `CLOSE` ends there too, but `CLOSE ALL` is longer; and `PLAYER` is no keyword, though it begins with
three of them. -/
theorem ofText_longest_sample :
    let cs := "CLOSE ALL & PL".toList
    let ds := "PLAYER = 1".toList
    (cs.head? ≠ some ':' ∧ cs.head? ≠ some '!' ∧ startsWith "CLOSE" cs = true ∧
      ofText cs = (closeAll, some 9)) ∧
    (ds.head? ≠ some ':' ∧ ds.head? ≠ some '!' ∧ ofText ds = (unknown, none)) := by
  intro cs ds
  obtain ⟨hkeyword, -⟩ := ofText_longest (show cs.head? ≠ some ':' by decide) (by decide)
  obtain ⟨-, hnone⟩ := ofText_longest (show ds.head? ≠ some ':' by decide) (by decide)
  have hlongest : Longest cs ("CLOSE ALL", closeAll) :=
    ⟨by decide +kernel, by decide +kernel, by decide +kernel⟩
  exact ⟨⟨by decide, by decide, by decide, (hkeyword closeAll 9).mpr ⟨_, hlongest, rfl, rfl⟩⟩,
    by decide, by decide, (hnone unknown).mpr ⟨rfl, by decide +kernel⟩⟩

end QuestScript.StatementKind
