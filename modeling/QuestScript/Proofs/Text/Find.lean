import Mathlib.Algebra.Group.Nat.Defs
import QuestScript.Expr.Builtin

/-!
# Finding and cutting out

`INSTR` finds a text in another one, and `MID` cuts one out. Both count characters from one and take any
number for a position: `INSTR` gives up where it starts behind the end, and `MID` cuts out nothing there.

What `INSTR` finds is the first place at or after the start where `MID` cuts the same text out, and it finds
nothing only if there is no such place up to the one behind the last character (`instr_mid`). For both, the
text stands after some number of characters if it is a prefix of the rest (`find_cases`, `midIs_iff`).
-/

namespace QuestScript

namespace Text

variable {sub cs : List Char} {start q : Number} {n : Nat}

/-! ## The first occurrence -/

theorem occurrence?_eq_some_iff :
    occurrence? sub cs = some n ↔
      (n ≤ cs.length ∧ sub <+: cs.drop n) ∧ ∀ m < n, ¬ sub <+: cs.drop m := by
  induction cs generalizing n with
  | nil =>
    rw [occurrence?, List.drop_nil, List.prefix_nil, List.length_nil, Nat.le_zero]
    split
    · next hsub =>
      rw [Option.some.injEq]
      constructor
      · rintro rfl
        exact ⟨⟨rfl, List.isEmpty_iff.mp hsub⟩, nofun⟩
      · rintro ⟨⟨rfl, -⟩, -⟩
        rfl
    · next hsub => simp [← List.isEmpty_iff, hsub]
  | cons c cs ih =>
    rw [occurrence?]
    split
    · next hfirst =>
      rw [List.isPrefixOf_iff_prefix] at hfirst
      rw [Option.some.injEq]
      constructor
      · rintro rfl
        exact ⟨⟨Nat.zero_le _, hfirst⟩, nofun⟩
      · rintro ⟨-, hleast⟩
        -- it occurs at once, so nothing later is the first occurrence
        exact (Nat.eq_zero_of_not_pos fun hn => hleast 0 hn hfirst).symm
    · next hfirst =>
      rw [List.isPrefixOf_iff_prefix] at hfirst
      cases n with
      | zero => simp [hfirst]
      | succ n =>
        rw [Option.map_eq_some_iff, Nat.forall_lt_succ_left]
        simp [ih, hfirst]

theorem occurrence?_eq_none_iff : occurrence? sub cs = none ↔ ∀ n ≤ cs.length, ¬ sub <+: cs.drop n := by
  induction cs with
  | nil => simp [occurrence?, List.prefix_nil]
  | cons c cs ih =>
    simp only [← Nat.lt_succ_iff, List.length_cons, Nat.forall_lt_succ_left] at ih ⊢
    rw [occurrence?]
    split
    · next hfirst =>
      rw [List.isPrefixOf_iff_prefix] at hfirst
      simp [hfirst]
    · next hfirst =>
      rw [List.isPrefixOf_iff_prefix] at hfirst
      rw [Option.map_eq_none_iff, ih]
      simp [hfirst]

/-! ## Positions -/

/-- Positions from a start on are those after at least as many characters, and no position is before the first. -/
theorem max_one_le_iff : max start 1 ≤ q ↔ charsBefore start ≤ charsBefore q ∧ q.toInt = charsBefore q + 1 := by
  have hone : (1 : Number).toInt = 1 := rfl
  change (if start ≤ 1 then 1 else start) ≤ q ↔ _
  simp only [charsBefore, Int64.le_iff_toInt_le]
  split <;> omega

/-- What is found is the first occurrence, and nothing is found only if there is none up to the end. -/
theorem find_cases (sub : List Char) (start : Number) (h : cs.length + 1 < 2 ^ 63) :
    (∃ k : Nat, (find cs sub start).toInt = k + 1 ∧ charsBefore start ≤ k ∧ k ≤ cs.length ∧
      sub <+: cs.drop k ∧ ∀ m, charsBefore start ≤ m → m < k → ¬ sub <+: cs.drop m) ∨
    find cs sub start = 0 ∧ ∀ m, charsBefore start ≤ m → m ≤ cs.length → ¬ sub <+: cs.drop m := by
  rw [find]
  split
  · next hpast => exact .inr ⟨rfl, fun m hm hle => by omega⟩
  · next hinside =>
    -- what is after `m` characters of the text is after `m - charsBefore start` of the rest
    have hrest {m : Nat} (hm : charsBefore start ≤ m) :
        (cs.drop (charsBefore start)).drop (m - charsBefore start) = cs.drop m := by
      rw [List.drop_drop, Nat.add_sub_cancel' hm]
    split
    · next n hn =>
      obtain ⟨⟨hle, hoccurs⟩, hfirst⟩ := occurrence?_eq_some_iff.mp hn
      rw [List.length_drop] at hle
      rw [List.drop_drop] at hoccurs
      refine .inl ⟨charsBefore start + n, ?_, Nat.le_add_right _ _, by omega, hoccurs, fun m hm hlt => ?_⟩
      · rw [Number.ofCount, Int64.toInt_ofNat_of_lt (by omega)]
        push_cast
        rfl
      · rw [← hrest hm]
        exact hfirst _ (by omega)
    · next hn =>
      refine .inr ⟨rfl, fun m hm hle => ?_⟩
      rw [← hrest hm]
      exact occurrence?_eq_none_iff.mp hn _ (by rw [List.length_drop]; omega)

/-- As many characters as a text has are that text if it is a prefix of what is left. -/
theorem mid_eq_iff (h : cs.length < 2 ^ 63) :
    mid cs q (some (Number.ofCount sub.length)) = sub ↔ sub <+: cs.drop (charsBefore q) := by
  have hlength : (cs.drop (charsBefore q)).length ≤ cs.length := by
    rw [List.length_drop]
    exact Nat.sub_le _ _
  by_cases hsub : sub.length ≤ cs.length
  · have hcount : (Number.ofCount sub.length).count = sub.length := by
      rw [Number.ofCount, Number.count, Int64.toInt_ofNat_of_lt (by omega), Int.toNat_natCast]
    rw [List.prefix_iff_eq_take, eq_comm, mid, hcount]
  · -- the text is too short to be cut so
    constructor
    · intro hmid
      have hle := (List.take_prefix (Number.ofCount sub.length).count (cs.drop (charsBefore q))).length_le
      rw [mid] at hmid
      rw [hmid] at hle
      omega
    · intro hprefix
      exact absurd (Nat.le_trans hprefix.length_le hlength) hsub

/-- The text that `MID` cuts out of `s` at a position, as long as `sub`, is `sub`. -/
def MidIs (s sub : String) (position : Number) : Prop :=
  Op.compute? .mid [.text s, .number position, .number (Op.length (.text sub))] = some (.ok (.text sub))

variable {s sub : String}

theorem midIs_iff (h : s.length < 2 ^ 63) : MidIs s sub q ↔ sub.toList <+: s.toList.drop (charsBefore q) := by
  rw [← mid_eq_iff (by rwa [String.length_toList]), String.length_toList, ← String.ofList_inj, String.ofList_toList]
  change some (Except.ok (Value.text _)) = some (.ok (.text sub)) ↔ _
  rw [Option.some.injEq, Except.ok.injEq, Value.text.injEq]
  rfl

/-- **`INSTR` finds the first place where `MID` cuts the text out.** A position that is found is at or after the
start, `MID` gives the text there, and at no position between. None is found if and only if `MID` gives the text
nowhere from the start up to the position behind the last character. The text is one whose last position is a
number. -/
theorem instr_mid (s sub : String) (start : Number) (h : s.length + 1 < 2 ^ 63) :
    ∃ p : Number, Op.compute? .instr [.text s, .text sub, .number start] = some (.ok (.number p)) ∧ 0 ≤ p ∧
      (0 < p → max start 1 ≤ p ∧ MidIs s sub p ∧ ∀ q, max start 1 ≤ q → MidIs s sub q → p ≤ q) ∧
      (p = 0 ↔ ¬ ∃ q, max start 1 ≤ q ∧ q ≤ Op.length (.text s) + 1 ∧ MidIs s sub q) := by
  have hlength : s.toList.length = s.length := String.length_toList
  have hend {q : Number} : q ≤ Op.length (.text s) + 1 ↔ q.toInt ≤ s.toList.length + 1 := by
    have hsum : (Op.length (.text s) + 1).toInt = s.toList.length + 1 := by
      change (Number.ofCount s.length + Number.ofCount 1).toInt = _
      rw [Number.ofCount, Number.ofCount, ← Int64.ofNat_add, Int64.toInt_ofNat_of_lt h, hlength]
      rfl
    rw [Int64.le_iff_toInt_le, hsum]
  have hmid {q : Number} : MidIs s sub q ↔ sub.toList <+: s.toList.drop (charsBefore q) := midIs_iff (by omega)
  refine ⟨find s.toList sub.toList start, rfl, ?_⟩
  rcases find_cases sub.toList start (hlength ▸ h) with ⟨k, hk, hfrom, hle, hoccurs, hfirst⟩ | ⟨hzero, hnone⟩
  · generalize find s.toList sub.toList start = p at hk
    have hbefore : charsBefore p = k := by rw [charsBefore, hk]; omega
    have hpos : 0 < p := by
      rw [Int64.lt_iff_toInt_lt, hk]
      exact Int.natCast_succ_pos k
    have hstart : max start 1 ≤ p := max_one_le_iff.mpr (by rw [hbefore]; exact ⟨hfrom, hk⟩)
    have hfound : MidIs s sub p := hmid.mpr (by rwa [hbefore])
    refine ⟨Int64.le_of_lt hpos, fun _ => ⟨hstart, hfound, fun q hq hmidq => ?_⟩, fun h0 => ?_, fun hno => ?_⟩
    · obtain ⟨hfromq, hqk⟩ := max_one_le_iff.mp hq
      have hkq : k ≤ charsBefore q := Nat.le_of_not_lt fun hlt => hfirst _ hfromq hlt (hmid.mp hmidq)
      rw [Int64.le_iff_toInt_le, hk, hqk]
      omega
    · rw [h0] at hpos
      exact absurd hpos (by decide)
    · exact absurd ⟨p, hstart, hend.mpr (by rw [hk]; omega), hfound⟩ hno
  · rw [hzero]
    refine ⟨by decide, fun h0 => absurd h0 (by decide), fun _ => ?_, fun _ => rfl⟩
    rintro ⟨q, hq, hlast, hmidq⟩
    obtain ⟨hfromq, hqk⟩ := max_one_le_iff.mp hq
    have hlast' := hend.mp hlast
    exact hnone _ hfromq (by omega) (hmid.mp hmidq)

theorem instr_mid_sample :
    "abcabc".length + 1 < 2 ^ 63 ∧
      Op.compute? .instr [.text "abcabc", .text "c", .number 4] = some (.ok (.number 6)) ∧
      MidIs "abcabc" "c" 6 ∧ ∀ q, max 4 1 ≤ q → MidIs "abcabc" "c" q → 6 ≤ q := by
  have hfits : "abcabc".length + 1 < 2 ^ 63 := by decide
  have hsix : Op.compute? .instr [.text "abcabc", .text "c", .number 4] = some (.ok (.number 6)) := by rfl
  obtain ⟨p, hp, -, hfound, -⟩ := instr_mid "abcabc" "c" 4 hfits
  obtain rfl : p = 6 := by
    rw [hsix] at hp
    cases hp
    rfl
  exact ⟨hfits, hsix, (hfound (by decide)).2⟩

end Text

end QuestScript
