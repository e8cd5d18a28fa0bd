import QuestScript.Value.Number
import QuestScript.Proofs.Text.Trim

/-!
# Reading numbers

A number is read digit by digit below zero, in steps that fail as soon as one leaves the 64 bits. That a
step fails says at once that the whole number does not fit, because one more digit never brings a number
closer to zero. So what is read of a run of digits is their value, if that fits, and nothing otherwise,
however long the run is and however many zeros it starts with (`bind_foldlM_appendDigit?`).

`Spells` says what the text of an integer looks like. A text that is not blank is read as a number if and
only if it spells that number, and the decimal text of a number is read as the number itself
(`read?_exact`).
-/

namespace QuestScript.Number

variable {n : Number} {cs ds : List Char} {i : Int}

/-! ## Integers that fit -/

theorem ofInt?_of_fits (h : fits i = true) : ∃ n, ofInt? i = some n ∧ n.toInt = i := by
  refine ⟨.ofInt i, if_pos h, ?_⟩
  simp only [fits, Bool.and_eq_true, decide_eq_true_eq] at h
  exact Int64.toInt_ofInt_of_le (by omega) (by omega)

theorem ofInt?_of_not_fits (h : fits i = false) : ofInt? i = none := if_neg (by simp [h])

theorem fits_toInt (n : Number) : fits n.toInt = true := by
  have hlow := n.le_toInt
  have hhigh := n.toInt_lt
  simp only [fits, Bool.and_eq_true, decide_eq_true_eq]
  omega

theorem ofInt?_eq_some_iff : ofInt? i = some n ↔ n.toInt = i := by
  constructor
  · intro h
    cases hfits : fits i with
    | true =>
      obtain ⟨m, hm, rfl⟩ := ofInt?_of_fits hfits
      rw [hm, Option.some.injEq] at h
      rw [h]
    | false =>
      rw [ofInt?_of_not_fits hfits] at h
      cases h
  · rintro rfl
    rw [ofInt?, if_pos (fits_toInt n), Int64.ofInt_toInt]

/-- Two checked steps are one, if what the second one lets through was let through by the first. -/
theorem bind_ofInt? (g : Int → Int) (h : fits (g i) = true → fits i = true) :
    ((ofInt? i).bind fun n => ofInt? (g n.toInt)) = ofInt? (g i) := by
  cases hfits : fits i with
  | true =>
    obtain ⟨n, hn, rfl⟩ := ofInt?_of_fits hfits
    rw [hn, Option.bind_some]
  | false =>
    have hnot : fits (g i) = false := Bool.eq_false_iff.mpr fun hg => by simp [h hg] at hfits
    rw [ofInt?_of_not_fits hfits, ofInt?_of_not_fits hnot, Option.bind_none]

/-! ## Reading digits -/

/-- One digit more, after digits whose value is `k`. -/
theorem bind_appendDigit? (k : Nat) (d : Char) :
    ((ofInt? (-k)).bind fun n => appendDigit? n d) = ofInt? (-(10 * k + (d.toNat - '0'.toNat) : Nat)) := by
  generalize hv : d.toNat - '0'.toNat = v
  calc ((ofInt? (-k)).bind fun n => appendDigit? n d)
      = ((ofInt? (-k)).bind fun n => ofInt? (n.toInt * 10)).bind fun n => ofInt? (n.toInt - v) := by
        rw [Option.bind_assoc]
        simp only [appendDigit?, hv, Option.bind_eq_bind]
    _ = (ofInt? (-k * 10)).bind fun n => ofInt? (n.toInt - v) := by
        -- ten times as far below zero
        rw [bind_ofInt? (· * 10)]
        simp only [fits, Bool.and_eq_true, decide_eq_true_eq]
        omega
    _ = ofInt? (-k * 10 - v) := by
        rw [bind_ofInt? (· - (v : Int))]
        simp only [fits, Bool.and_eq_true, decide_eq_true_eq]
        omega
    _ = ofInt? (-(10 * k + v : Nat)) := by
        congr 1
        omega

/-- All digits, after digits whose value is `k`. -/
theorem bind_foldlM_appendDigit? (ds : List Char) (k : Nat) :
    ((ofInt? (-k)).bind fun n => ds.foldlM appendDigit? n) = ofInt? (-(Nat.ofDigitChars 10 ds k : Nat)) := by
  induction ds generalizing k with
  | nil => exact Option.bind_fun_some _
  | cons d ds ih =>
    rw [Nat.ofDigitChars_cons, ← ih, ← bind_appendDigit?, Option.bind_assoc]
    rfl

/-- The other side of zero has room for less. -/
theorem bind_negated? (k : Nat) : (ofInt? (-k)).bind negated? = ofInt? k := by
  have hfits : fits (- -(k : Int)) = true → fits (-k) = true := by
    simp only [fits, Bool.and_eq_true, decide_eq_true_eq]
    omega
  have h := bind_ofInt? (- ·) hfits
  rwa [Int.neg_neg] at h

/-! ## What a text spells -/

/-- One or more decimal digits. -/
def IsDigits (ds : List Char) : Prop := ds ≠ [] ∧ ∀ d ∈ ds, isDigit d = true

/-- Digits with a sign or none in front of them, and their value. -/
inductive Signed : List Char → Int → Prop
  | none {ds : List Char} (digits : IsDigits ds) : Signed ds (Nat.ofDigitChars 10 ds 0)
  | plus {ds : List Char} (digits : IsDigits ds) : Signed ('+' :: ds) (Nat.ofDigitChars 10 ds 0)
  | minus {ds : List Char} (digits : IsDigits ds) : Signed ('-' :: ds) (-Nat.ofDigitChars 10 ds 0)

/-- The text is that of an integer, with any number of blanks around it. -/
def Spells (cs : List Char) (i : Int) : Prop :=
  ∃ before core after, cs = before ++ (core ++ after) ∧ (∀ c ∈ before, Text.isBlank c = true) ∧
    (∀ c ∈ after, Text.isBlank c = true) ∧ Signed core i

/-! ## Digits and signs -/

theorem readNegative?_of_isDigits (h : IsDigits ds) :
    readNegative? ds = ofInt? (-Nat.ofDigitChars 10 ds 0) := by
  rw [readNegative?, if_pos (by simpa [IsDigits] using h), ← bind_foldlM_appendDigit?]
  rfl

theorem isDigits_of_readNegative? (h : readNegative? ds = some n) : IsDigits ds := by
  unfold readNegative? at h
  split at h
  · next hdigits => simpa [IsDigits] using hdigits
  · cases h

/-- Below zero, digits are read as the negative of their value. -/
theorem readNegative?_eq_some_iff :
    readNegative? ds = some n ↔ IsDigits ds ∧ n.toInt = -Nat.ofDigitChars 10 ds 0 := by
  constructor
  · intro h
    have hdigits := isDigits_of_readNegative? h
    rw [readNegative?_of_isDigits hdigits, ofInt?_eq_some_iff] at h
    exact ⟨hdigits, h⟩
  · rintro ⟨hdigits, hn⟩
    rw [readNegative?_of_isDigits hdigits, ofInt?_eq_some_iff, hn]

/-- Above zero, digits are read as their value. -/
theorem readNegative?_negated?_eq_some_iff :
    (readNegative? ds).bind negated? = some n ↔ IsDigits ds ∧ n.toInt = Nat.ofDigitChars 10 ds 0 := by
  constructor
  · intro h
    obtain ⟨m, hm, -⟩ := Option.bind_eq_some_iff.mp h
    have hdigits := isDigits_of_readNegative? hm
    rw [readNegative?_of_isDigits hdigits, bind_negated?, ofInt?_eq_some_iff] at h
    exact ⟨hdigits, h⟩
  · rintro ⟨hdigits, hn⟩
    rw [readNegative?_of_isDigits hdigits, bind_negated?, ofInt?_eq_some_iff, hn]

theorem readSigned?_eq_some_iff : readSigned? cs = some n ↔ Signed cs n.toInt := by
  constructor
  · intro h
    unfold readSigned? at h
    split at h
    · obtain ⟨hdigits, hn⟩ := readNegative?_eq_some_iff.mp h
      exact hn ▸ .minus hdigits
    · obtain ⟨hdigits, hn⟩ := readNegative?_negated?_eq_some_iff.mp h
      exact hn ▸ .plus hdigits
    · obtain ⟨hdigits, hn⟩ := readNegative?_negated?_eq_some_iff.mp h
      exact hn ▸ .none hdigits
  · intro h
    generalize hi : n.toInt = i at h
    cases h with
    | plus digits => exact readNegative?_negated?_eq_some_iff.mpr ⟨digits, hi⟩
    | minus digits => exact readNegative?_eq_some_iff.mpr ⟨digits, hi⟩
    | none digits =>
      unfold readSigned?
      split
      · exact absurd (digits.2 _ List.mem_cons_self) (by decide)
      · exact absurd (digits.2 _ List.mem_cons_self) (by decide)
      · exact readNegative?_negated?_eq_some_iff.mpr ⟨digits, hi⟩

/-! ## Blanks -/

theorem not_isBlank_of_isDigit {c : Char} (h : isDigit c = true) : Text.isBlank c = false := by
  cases hblank : Text.isBlank c with
  | false => rfl
  | true =>
    simp only [Text.isBlank, Bool.or_eq_true, beq_iff_eq] at hblank
    rcases hblank with rfl | rfl <;> cases h

theorem IsDigits.trim_append (h : IsDigits ds) (sign : List Char) (hsign : ∀ c ∈ sign, Text.isBlank c = false) :
    Text.trim (sign ++ ds) = sign ++ ds := by
  have hall : ∀ c ∈ sign ++ ds, Text.isBlank c = false := by
    intro c hc
    rcases List.mem_append.mp hc with hc | hc
    · exact hsign c hc
    · exact not_isBlank_of_isDigit (h.2 c hc)
  exact Text.trim_eq_self_iff.mpr
    ⟨fun c hc => hall c (List.mem_of_head? hc), fun c hc => hall c (List.mem_of_getLast? hc)⟩

theorem Signed.trim_eq (h : Signed cs i) : Text.trim cs = cs := by
  cases h with
  | none digits => exact digits.trim_append [] (by simp)
  | plus digits => exact digits.trim_append ['+'] (by simp [Text.isBlank])
  | minus digits => exact digits.trim_append ['-'] (by simp [Text.isBlank])

theorem Signed.ne_nil (h : Signed cs i) : cs ≠ [] := by
  cases h with
  | none digits => exact digits.1
  | plus _ | minus _ => exact List.cons_ne_nil _ _

/-- A text spells what its part between the blanks spells. -/
theorem spells_iff : Spells cs i ↔ Signed (Text.trim cs) i := by
  constructor
  · rintro ⟨before, core, after, rfl, hbefore, hafter, hcore⟩
    rwa [Text.trim_surrounded hbefore hafter, hcore.trim_eq]
  · intro h
    obtain ⟨after, hcs, hafter⟩ := Text.exists_trim cs
    exact ⟨_, _, after, hcs, fun _ => List.mem_takeWhile_imp, hafter, h⟩

/-! ## Whole texts -/

theorem read?_of_blank (h : ∀ c ∈ cs, Text.isBlank c = true) : read? cs = some 0 := by
  rw [read?, Text.trim_eq_nil_iff.mpr h]

theorem read?_eq_some_iff (h : ¬ ∀ c ∈ cs, Text.isBlank c = true) : read? cs = some n ↔ Spells cs n.toInt := by
  rw [← Text.trim_eq_nil_iff] at h
  rw [spells_iff, ← readSigned?_eq_some_iff, read?]
  split
  · next hnil => exact absurd hnil h
  · rfl

theorem Spells.read?_eq (h : Spells cs n.toInt) : read? cs = some n := by
  refine (read?_eq_some_iff fun hblank => ?_).mpr h
  rw [spells_iff] at h
  exact h.ne_nil (Text.trim_eq_nil_iff.mpr hblank)

/-- Digits alone are read as their value. -/
theorem IsDigits.read?_eq_some_iff (h : IsDigits ds) : read? ds = some n ↔ n.toInt = Nat.ofDigitChars 10 ds 0 := by
  obtain ⟨d, ds, rfl⟩ := List.exists_cons_of_ne_nil h.1
  have hfirst := h.2 d List.mem_cons_self
  have hnot : ¬ ∀ c ∈ d :: ds, Text.isBlank c = true := fun hblank => by
    have hd := hblank d List.mem_cons_self
    rw [not_isBlank_of_isDigit hfirst] at hd
    cases hd
  rw [Number.read?_eq_some_iff hnot, spells_iff, (Signed.none h).trim_eq]
  constructor
  · intro hsigned
    generalize n.toInt = i at hsigned
    cases hsigned with
    | none _ => rfl
    | plus _ | minus _ => cases hfirst
  · intro hn
    exact hn ▸ .none h

/-! ## The text of a number -/

theorem isDigits_toDigits (k : Nat) : IsDigits (Nat.toDigits 10 k) := by
  refine ⟨Nat.toDigits_ne_nil, fun d hd => ?_⟩
  have hd' := Nat.isDigit_of_mem_toDigits (by decide) (by decide) hd
  simpa [Char.isDigit, isDigit, Char.le_def] using hd'

theorem toList_text {k : Nat} (h : n.toInt = k) : n.text.toList = Nat.toDigits 10 k := by
  rw [text, h]
  exact Nat.toList_repr

theorem isDigits_text (h : 0 ≤ n.toInt) : IsDigits n.text.toList := by
  obtain ⟨k, hk⟩ := Int.eq_ofNat_of_zero_le h
  rw [toList_text hk]
  exact isDigits_toDigits k

/-- The text of a number has a sign only below zero, and its digits have the value of the number. -/
theorem signed_text (n : Number) : Signed n.text.toList n.toInt := by
  have hvalue (k : Nat) : Nat.ofDigitChars 10 (Nat.toDigits 10 k) 0 = k :=
    Nat.ofDigitChars_toDigits (by decide) (by decide)
  cases hn : n.toInt with
  | ofNat k =>
    have h := Signed.none (isDigits_toDigits k)
    rwa [hvalue, ← toList_text hn] at h
  | negSucc k =>
    have htext : n.text.toList = '-' :: Nat.toDigits 10 (k + 1) := by
      rw [text, hn, Int.toString_eq_repr, Int.repr, String.toList_append, Nat.toList_repr]
      rfl
    have h := Signed.minus (isDigits_toDigits (k + 1))
    rwa [hvalue, ← htext] at h

theorem read?_text (n : Number) : read? n.text.toList = some n :=
  Spells.read?_eq ⟨[], _, [], by simp, by simp, by simp, signed_text n⟩

/-- **Numbers are read exactly.** A blank text is zero. Any other text is read as a number if and only if it
is a sign or none and then digits, between blanks or not, and the value of the digits with that sign is that
number. And the decimal text of every number is read as the number. -/
theorem read?_exact (s : String) (n : Number) :
    ((∀ c ∈ s.toList, c = ' ' ∨ c = '\t') → read? s.toList = some 0) ∧
    ((¬ ∀ c ∈ s.toList, c = ' ' ∨ c = '\t') → (read? s.toList = some n ↔ Spells s.toList n.toInt)) ∧
    read? n.text.toList = some n := by
  have hblank (c : Char) : (c = ' ' ∨ c = '\t') ↔ Text.isBlank c = true := by simp [Text.isBlank]
  simp only [hblank]
  exact ⟨read?_of_blank, read?_eq_some_iff, read?_text n⟩

/-! The least number is read, although its digits alone are not. -/

example : read? " -9223372036854775808".toList = some Int64.minValue := by rfl

example : read? "9223372036854775808".toList = none := by rfl

end QuestScript.Number
