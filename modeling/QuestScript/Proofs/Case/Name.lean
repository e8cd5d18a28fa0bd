import QuestScript.Expr.Function
import QuestScript.Proofs.Text.Upper
import QuestScript.Variable.Name
import QuestScript.World

/-!
# Names in any case

A name is looked up in upper case, whatever it names: a function, an operator spelled as a word, a variable
or a location. Upper case keeps the characters by which names are taken apart, such as blanks, delimiters
and digits, and makes no others of them (`Text.class_upper`). So a name in upper case is found where the name
itself is found.
-/

namespace QuestScript

/-! ## Classes of characters -/

namespace Text

variable {p : Char → Bool} {b : Bool} {c x : Char}

/-- A class of characters that tells no letters apart holds of a character as of what it is in upper case. -/
theorem class_upper (hp : ∀ x, isCaseless x = false → p x = b) (hx : x ∈ upperChar c) : p x = p c := by
  by_cases hc : isCaseless c = true
  · rw [upperChar_caseless hc, List.mem_singleton] at hx
    rw [hx]
  · have hx' : isCaseless x = false := by
      rw [Bool.eq_false_iff]
      intro hcaseless
      rw [(mem_upperChar_iff hcaseless).mp hx] at hcaseless
      exact hc hcaseless
    rw [hp x hx', hp c (by simpa using hc)]

/-- A character with two cases is a letter, and no delimiter is one. -/
theorem isDelimiter_of_not_isCaseless (x : Char) (h : isCaseless x = false) : isDelimiter x = false := by
  have hall : delimiters.all isCaseless = true := by decide
  rw [Bool.eq_false_iff]
  intro hx
  have hmem : x ∈ delimiters := by simpa [isDelimiter] using hx
  rw [List.all_eq_true.mp hall x hmem] at h
  cases h

theorem isBlank_of_not_isCaseless (x : Char) (h : isCaseless x = false) : isBlank x = false := by
  rw [Bool.eq_false_iff]
  intro hx
  have hdelimiter := isDelimiter_of_not_isCaseless x h
  rw [isDelimiter_of_isBlank hx] at hdelimiter
  cases hdelimiter

theorem isDigit_of_not_isCaseless (x : Char) (h : isCaseless x = false) : Number.isDigit x = false := by
  have hall : ∀ n < 58, 48 ≤ n → isCaseless (Char.ofNat n) = true := by decide
  rw [Bool.eq_false_iff]
  intro hx
  have hrange : '0' ≤ x ∧ x ≤ '9' := by
    simpa only [Number.isDigit, Bool.and_eq_true, decide_eq_true_eq] using hx
  obtain ⟨hlow, hhigh⟩ : 48 ≤ x.toNat ∧ x.toNat ≤ 57 := hrange
  have hcaseless := hall x.toNat (Nat.lt_succ_of_le hhigh) hlow
  rw [Char.ofNat_toNat, h] at hcaseless
  cases hcaseless

/-! ## Texts -/

/-- Dropping characters of a class commutes with a change of characters that keeps the class. -/
theorem dropWhile_flatMap {f : Char → List Char} (hne : ∀ c, f c ≠ []) (hf : ∀ c, ∀ x ∈ f c, p x = p c)
    (cs : List Char) : (cs.flatMap f).dropWhile p = (cs.dropWhile p).flatMap f := by
  induction cs with
  | nil => rfl
  | cons c cs ih =>
    rw [List.flatMap_cons]
    by_cases hc : p c = true
    · rw [List.dropWhile_append_of_pos fun x hx => (hf c x hx).trans hc, ih, List.dropWhile_cons_of_pos hc]
    · obtain ⟨x, xs, hx⟩ := List.exists_cons_of_ne_nil (hne c)
      have hstop : ¬ p x = true := by rwa [hf c x (by simp [hx])]
      rw [List.dropWhile_cons_of_neg hc, List.flatMap_cons, hx, List.cons_append, List.dropWhile_cons_of_neg hstop]

/-- Blanks have one case, so they are trimmed before or after. -/
theorem trim_upper (cs : List Char) : trim (upper cs) = upper (trim cs) := by
  have hclass : ∀ c, ∀ x ∈ upperChar c, isBlank x = isBlank c :=
    fun _ _ hx => class_upper isBlank_of_not_isCaseless hx
  rw [trim, dropBlanks, upper, dropWhile_flatMap upperChar_ne_nil hclass, dropTrailing, List.reverse_flatMap,
    dropWhile_flatMap (by simp [upperChar_ne_nil]) (by simpa using hclass), List.reverse_flatMap]
  simp [trim, dropTrailing, dropBlanks, upper, Function.comp_def]

theorem isEmpty_upper (cs : List Char) : (upper cs).isEmpty = cs.isEmpty := by
  cases cs with
  | nil => rfl
  | cons c cs => simp [upperChar_ne_nil]

/-- A text in upper case starts with a caseless character where the text does, and goes on in upper case. -/
theorem upper_eq_cons_iff {cs rest : List Char} (hx : isCaseless x = true) :
    upper cs = x :: rest ↔ ∃ tail, cs = x :: tail ∧ upper tail = rest := by
  constructor
  · intro h
    cases cs with
    | nil => cases h
    | cons c tail =>
      rw [upper_cons] at h
      have hmem : x ∈ upperChar c := by
        obtain ⟨y, ys, hy⟩ := List.exists_cons_of_ne_nil (upperChar_ne_nil c)
        rw [hy, List.cons_append, List.cons.injEq] at h
        simp [hy, h.1]
      obtain rfl := (mem_upperChar_iff hx).mp hmem
      rw [upperChar_caseless hx, List.singleton_append, List.cons.injEq] at h
      exact ⟨tail, rfl, h.2⟩
  · rintro ⟨tail, rfl, rfl⟩
    rw [upper_cons, upperChar_caseless hx, List.singleton_append]

end Text

open Text (upper uppercased)

/-! ## Functions and operators -/

namespace Function

/-- The table of functions is searched in upper case. -/
@[simp] theorem find?_uppercased (s : String) : find? (uppercased s) = find? s := by
  simp only [find?, Text.uppercased_uppercased]

@[simp] theorem wordOperator?_uppercased (s : String) : wordOperator? (uppercased s) = wordOperator? s := by
  simp only [wordOperator?, Text.uppercased_uppercased]

end Function

/-! ## Locations -/

@[simp] theorem Location.key_uppercased (name : String) : key (uppercased name) = key name := by
  simp only [key, uppercased, String.toList_ofList, Text.trim_upper, Text.upper_upper]

@[simp] theorem World.find?_uppercased (w : World) (name : String) : w.find? (uppercased name) = w.find? name := by
  simp only [find?, Location.key_uppercased]

/-! ## Variables -/

/-- The sign of a type has one case, so a name has the same type in upper case. -/
theorem ValueType.ofName_upper (cs : List Char) : ofName (upper cs) = ofName cs := by
  have htext : ∀ {rest : List Char}, upper cs = '$' :: rest ↔ ∃ tail, cs = '$' :: tail ∧ upper tail = rest :=
    Text.upper_eq_cons_iff (by decide)
  have htuple : ∀ {rest : List Char}, upper cs = '%' :: rest ↔ ∃ tail, cs = '%' :: tail ∧ upper tail = rest :=
    Text.upper_eq_cons_iff (by decide)
  unfold ofName
  split
  · next rest heq =>
    obtain ⟨tail, rfl, -⟩ := htext.mp heq
    rfl
  · next rest heq =>
    obtain ⟨tail, rfl, -⟩ := htuple.mp heq
    rfl
  · next hno hno' =>
    split
    · next tail => exact absurd (htext.mpr ⟨tail, rfl, rfl⟩) (hno _)
    · next tail => exact absurd (htuple.mpr ⟨tail, rfl, rfl⟩) (hno' _)
    · rfl

namespace VarName

/-- A name is ruled out by digits and delimiters, which have one case. -/
theorem isValid_upper (cs : List Char) : isValid (upper cs) = isValid cs := by
  cases cs with
  | nil => rfl
  | cons c cs =>
    have hany : (upper (c :: cs)).any Text.isDelimiter = (c :: cs).any Text.isDelimiter := by
      rw [upper, List.any_flatMap]
      refine List.any_congr rfl fun x => ?_
      obtain ⟨y, ys, hy⟩ := List.exists_cons_of_ne_nil (Text.upperChar_ne_nil x)
      have hclass : ∀ z ∈ Text.upperChar x, Text.isDelimiter z = Text.isDelimiter x :=
        fun z hz => Text.class_upper Text.isDelimiter_of_not_isCaseless hz
      rw [Bool.eq_iff_iff, List.any_eq_true]
      constructor
      · rintro ⟨z, hz, hd⟩
        rwa [← hclass z hz]
      · intro hd
        exact ⟨y, by simp [hy], by rw [hclass y (by simp [hy]), hd]⟩
    obtain ⟨y, ys, hy⟩ := List.exists_cons_of_ne_nil (Text.upperChar_ne_nil c)
    have hdigit : Number.isDigit y = Number.isDigit c :=
      Text.class_upper Text.isDigit_of_not_isCaseless (by simp [hy])
    rw [Text.upper_cons, hy] at hany ⊢
    rw [List.cons_append] at hany ⊢
    rw [isValid, isValid, hany, hdigit]

/-- The sign of a name is its first character in upper case, too. -/
theorem bare_upper (cs : List Char) :
    bare (ValueType.ofName cs) (upper cs) = upper (bare (ValueType.ofName cs) cs) := by
  unfold ValueType.ofName
  split
  · next tail =>
    rw [Text.upper_cons, Text.upperChar_caseless (by decide)]
    rfl
  · next tail =>
    rw [Text.upper_cons, Text.upperChar_caseless (by decide)]
    rfl
  · rfl

/-- **A variable is the same in upper case**; a name that is none is none there. -/
theorem read_upper (cs : List Char) : (read (upper cs)).mapError Error.kind = (read cs).mapError Error.kind := by
  simp only [read, Text.trim_upper, ValueType.ofName_upper, bare_upper, isValid_upper, Text.upper_upper]
  split
  · rfl
  · rfl

end VarName

end QuestScript
