import QuestScript.Text.Case

/-!
# What upper case is made of

The tables of letters are read here once, in the logic. A character outside ASCII becomes characters
outside ASCII and capital letters (`isCapital_of_mem_upperChar`), and never nothing
(`upperChar_ne_nil`). So an ASCII character that is no letter, such as a separator, comes from nothing
but itself (`mem_upperChar_iff`).

What upper case makes of a letter is in upper case: no entry of a table leads to a letter that another
entry changes (`resultingLetters_apart`). So putting a text in upper case twice is putting it there once
(`upper_upper`).

The tables are written as text, which the kernel decodes slowly. `Table.shifts_eq` and
`Table.expansions_eq` read a table from the characters of its lines instead.
-/

namespace QuestScript.Text

/-! ## Tables -/

namespace Table

/-- The words of a line, given its characters. -/
def wordsOfChars (cs : List Char) : List (List Char) :=
  let step : Char → List Char × List (List Char) → List Char × List (List Char) :=
    fun c (word, done) =>
      if c == ' ' then ([], if word.isEmpty then done else word :: done) else (c :: word, done)
  let (word, done) := cs.foldr step ([], [])
  if word.isEmpty then done else word :: done

/-- The tables are strings, and their words are taken from lists of characters here, which the kernel can
compute with. -/
theorem words_eq (table : List String) :
    words table = (table.map String.toList).flatMap wordsOfChars := by
  rw [List.flatMap_map]
  rfl

theorem shifts_eq (table : List String) :
    shifts table = ((table.map String.toList).flatMap wordsOfChars).filterMap shift? := by
  rw [shifts, words_eq]

theorem expansions_eq (table : List String) :
    expansions table = ((table.map String.toList).flatMap wordsOfChars).filterMap expansion? := by
  rw [expansions, words_eq]

/-- A range holds the numbers between its ends. -/
theorem Range.holds_iff {r : Range} {n : Nat} : r.holds n = true ↔ r.first ≤ n ∧ n ≤ r.last := by
  simp [holds]

/-- The code points between the images of the first and the last one that is moved. -/
def Shift.image (s : Shift) : Range := ⟨s.apply s.span.first, s.apply s.span.last⟩

theorem Shift.holds_span {s : Shift} {n : Nat} (h : s.moves n = true) : s.span.holds n = true :=
  (Bool.and_eq_true_iff.mp h).1

/-- A shift takes its span to its image. -/
theorem Shift.holds_image {s : Shift} {n : Nat} (h : s.moves n = true) :
    s.image.holds (s.apply n) = true := by
  have hspan := Range.holds_iff.mp (holds_span h)
  refine Range.holds_iff.mpr ⟨?_, ?_⟩
  · show (s.span.first + s.delta).toNat ≤ (n + s.delta).toNat
    omega
  · show (n + s.delta).toNat ≤ (s.span.last + s.delta).toNat
    omega

/-- What a table says of a number comes from one of its shifts. -/
theorem image?_eq_some {table : List Shift} {n m : Nat} (h : image? table n = some m) :
    ∃ s ∈ table, s.moves n = true ∧ s.apply n = m := by
  obtain ⟨s, hs, rfl⟩ := Option.map_eq_some_iff.mp h
  have hmoves := List.find?_some hs
  exact ⟨s, List.mem_of_find?_eq_some hs, hmoves, rfl⟩

end Table

/-! ## Capital letters -/

/-- Whether a code point is outside ASCII or an ASCII capital letter. -/
def isCapital (n : Nat) : Bool := 128 ≤ n || (65 ≤ n && n ≤ 90)

/-- Whether a code point is a character. -/
def isScalar (n : Nat) : Bool := n < 0xd800 || (0xdfff < n && n < 0x110000)

theorem toNat_ofNat {n : Nat} (h : isScalar n = true) : (Char.ofNat n).toNat = n := by
  have hvalid : n.isValidChar := by
    simp only [isScalar, Bool.or_eq_true, Bool.and_eq_true, decide_eq_true_eq] at h
    exact h
  rw [Char.ofNat, dif_pos hvalid]
  rfl

/-- Whether a shift that moves code points outside ASCII takes them to capital letters or to others
outside ASCII. -/
def capitalizes (s : Table.Shift) : Bool :=
  s.span.last < 128 ||
    ((128 ≤ s.image.first || (s.image.first == s.image.last && isCapital s.image.first)) &&
      (s.image.last < 0xd800 || (0xdfff < s.image.first && s.image.last < 0x110000)))

/-- All shifts of the table lead to capital letters. This is computed, shift by shift. -/
theorem upperShifts_capitalize : upperShifts.all capitalizes = true := by
  rw [upperShifts, Table.shifts_eq]
  simp only [List.map_cons, List.map_nil]
  repeat rw [String.toList_ofList]
  decide +kernel

theorem upperExpansions_capitalize :
    (upperExpansions.all fun e => !e.2.isEmpty && e.2.all fun m => isCapital m && isScalar m)
      = true := by
  rw [upperExpansions, Table.expansions_eq]
  simp only [List.map_cons, List.map_nil]
  repeat rw [String.toList_ofList]
  decide +kernel

/-- Letters outside of the first 128 become capital letters, which are characters. -/
theorem isCapital_of_moves {s : Table.Shift} {n : Nat} (hs : capitalizes s = true)
    (hn : s.moves n = true) (h : 128 ≤ n) :
    isCapital (s.apply n) = true ∧ isScalar (s.apply n) = true := by
  have hspan := Table.Range.holds_iff.mp (Table.Shift.holds_span hn)
  have himage := Table.Range.holds_iff.mp (Table.Shift.holds_image hn)
  simp only [capitalizes, isCapital, isScalar, Bool.or_eq_true, Bool.and_eq_true, decide_eq_true_eq,
    beq_iff_eq] at hs ⊢
  omega

/-! ## Letters that are in upper case -/

namespace Table

/-- A code point as an entry of its own. -/
def Shift.point (n : Nat) : Shift := ⟨⟨n, n⟩, 1, 0⟩

/-- The images of the code points that are moved, as an entry. -/
def Shift.images (s : Shift) : Shift := ⟨s.image, s.step, 0⟩

/-- Whether two entries are seen to have no code point in common: their spans are apart, or they take
every second one in turn. -/
def Shift.apart (s t : Shift) : Bool :=
  Nat.blt s.span.last t.span.first || Nat.blt t.span.last s.span.first ||
    ((Nat.beq s.step 2 || Nat.beq s.span.first s.span.last) && Nat.beq t.step 2 &&
      Nat.beq ((s.span.first + t.span.first) % 2) 1)

theorem Shift.moves_iff {s : Shift} {n : Nat} :
    s.moves n = true ↔ s.span.first ≤ n ∧ n ≤ s.span.last ∧ (n - s.span.first) % s.step = 0 := by
  simp [moves, Range.holds, and_assoc]

theorem Shift.moves_point (n : Nat) : (point n).moves n = true := by simp [moves_iff, point]

/-- Shifts that are apart move no number together. -/
theorem Shift.not_moves_of_apart {s t : Shift} {n : Nat} (h : s.apart t = true) (hs : s.moves n = true) :
    t.moves n = false := by
  rw [Bool.eq_false_iff]
  intro ht
  obtain ⟨hsf, hsl, hsm⟩ := moves_iff.mp hs
  obtain ⟨htf, htl, htm⟩ := moves_iff.mp ht
  simp only [apart, Bool.or_eq_true, Bool.and_eq_true, Nat.blt_eq, Nat.beq_eq] at h
  rcases h with (h | h) | ⟨⟨h | h, h₂⟩, hodd⟩
  · omega
  · omega
  · rw [h] at hsm
    rw [h₂] at htm
    omega
  · rw [h₂] at htm
    omega

/-- What a code point is moved to is one of the images, unless the shift leads below zero. -/
theorem Shift.moves_images {s : Shift} {n : Nat} (h : s.moves n = true) (hs : 0 < s.image.first) :
    s.images.moves (s.apply n) = true := by
  obtain ⟨hfirst, -, hstep⟩ := moves_iff.mp h
  have himage := Range.holds_iff.mp (holds_image h)
  refine moves_iff.mpr ⟨himage.1, himage.2, ?_⟩
  have hshift : s.apply n - s.image.first = n - s.span.first := by
    have hpos : 0 < (s.span.first + s.delta).toNat := hs
    show (n + s.delta).toNat - (s.span.first + s.delta).toNat = _
    omega
  show (s.apply n - s.image.first) % s.step = 0
  rw [hshift, hstep]

end Table

open Table (Shift)

/-- The letters that upper case changes. -/
def changedLetters : List Shift := upperShifts ++ upperExpansions.map fun e => .point e.1

/-- What upper case makes of those outside ASCII. -/
def resultingLetters : List Shift :=
  (upperShifts.filter fun s => Nat.ble 128 s.span.last).map Shift.images ++
    upperExpansions.flatMap fun e => e.2.map .point

/-- No letter that comes out of the tables is changed by them again. -/
theorem resultingLetters_apart :
    (resultingLetters.all fun s => changedLetters.all s.apart) = true := by
  unfold resultingLetters changedLetters upperShifts upperExpansions
  rw [Table.shifts_eq, Table.expansions_eq]
  simp only [List.map_cons, List.map_nil]
  repeat rw [String.toList_ofList]
  decide +kernel

/-- A code point that no entry changes. -/
def IsSettled (n : Nat) : Prop := upperExpansions.lookup n = none ∧ Table.image? upperShifts n = none

/-- A letter that comes out of a shift of the table is settled. -/
theorem isSettled_of_resulting {s : Shift} {n : Nat} (hs : s ∈ resultingLetters) (hn : s.moves n = true) :
    IsSettled n := by
  have hall := List.all_eq_true.mp (List.all_eq_true.mp resultingLetters_apart s hs)
  constructor
  · refine List.lookup_eq_none_iff.mpr fun e he => ?_
    have hpoint := hall (.point e.1) (List.mem_append_right _ (List.mem_map_of_mem he))
    rw [bne_iff_ne]
    rintro rfl
    have := Shift.not_moves_of_apart hpoint hn
    rw [Shift.moves_point] at this
    cases this
  · refine Option.map_eq_none_iff.mpr (List.find?_eq_none.mpr fun t ht => ?_)
    rw [Shift.not_moves_of_apart (hall t (List.mem_append_left _ ht)) hn]
    exact Bool.false_ne_true

/-- So is a letter that comes out of an expansion. -/
theorem isSettled_of_expansion {e : Nat × List Nat} {m : Nat} (he : e ∈ upperExpansions) (hm : m ∈ e.2) :
    IsSettled m := by
  refine isSettled_of_resulting (s := .point m) (List.mem_append_right _ ?_) (Shift.moves_point m)
  exact List.mem_flatMap.mpr ⟨e, he, List.mem_map_of_mem hm⟩

theorem isSettled_of_shift {s : Shift} {n : Nat} (hs : s ∈ upperShifts) (hn : s.moves n = true)
    (h : 128 ≤ n) : IsSettled (s.apply n) := by
  obtain ⟨-, hlast, -⟩ := Shift.moves_iff.mp hn
  have hpos : 0 < s.image.first := by
    have hcapital := List.all_eq_true.mp upperShifts_capitalize s hs
    simp only [capitalizes, isCapital, Bool.or_eq_true, Bool.and_eq_true, decide_eq_true_eq,
      beq_iff_eq] at hcapital
    omega
  refine isSettled_of_resulting (List.mem_append_left _ (List.mem_map_of_mem (f := Shift.images) ?_))
    (Shift.moves_images hn hpos)
  refine List.mem_filter.mpr ⟨hs, ?_⟩
  simp only [Nat.ble_eq]
  omega

/-! ## Characters -/

/-- What a character outside ASCII becomes. -/
theorem exists_upperChar {c : Char} (h : 128 ≤ c.toNat) :
    ∃ ms, ms ≠ [] ∧ upperChar c = ms.map Char.ofNat ∧
      ∀ m ∈ ms, isCapital m = true ∧ isScalar m = true ∧ IsSettled m := by
  unfold upperChar
  dsimp only
  rw [if_neg (Nat.not_lt.mpr h)]
  cases hlookup : upperExpansions.lookup c.toNat with
  | some ms =>
    obtain ⟨before, after, heq, -⟩ := List.lookup_eq_some_iff.mp hlookup
    have hmem : (c.toNat, ms) ∈ upperExpansions := by simp [heq]
    have hall := List.all_eq_true.mp upperExpansions_capitalize (c.toNat, ms) hmem
    simp only [Bool.and_eq_true, Bool.not_eq_true', List.isEmpty_eq_false_iff, List.all_eq_true] at hall
    refine ⟨ms, hall.1, rfl, fun m hm => ⟨(hall.2 m hm).1, (hall.2 m hm).2, ?_⟩⟩
    exact isSettled_of_expansion hmem hm
  | none =>
    refine ⟨[(Table.image? upperShifts c.toNat).getD c.toNat], List.cons_ne_nil _ _, rfl, ?_⟩
    intro m hm
    rw [List.mem_singleton.mp hm]
    cases himage : Table.image? upperShifts c.toNat with
    | some m =>
      obtain ⟨s, hs, hmoves, rfl⟩ := Table.image?_eq_some himage
      obtain ⟨hcapital, hscalar⟩ :=
        isCapital_of_moves (List.all_eq_true.mp upperShifts_capitalize s hs) hmoves h
      exact ⟨hcapital, hscalar, isSettled_of_shift hs hmoves h⟩
    | none =>
      have hvalid : c.toNat < 0xd800 ∨ 0xdfff < c.toNat ∧ c.toNat < 0x110000 := c.valid
      have hcapital : isCapital c.toNat = true := by simp [isCapital, h]
      have hscalar : isScalar c.toNat = true := by simp [isScalar, hvalid]
      exact ⟨hcapital, hscalar, hlookup, himage⟩

/-- No character vanishes in upper case. -/
theorem upperChar_ne_nil (c : Char) : upperChar c ≠ [] := by
  by_cases h : c.toNat < 128
  · rw [upperChar_of_ascii h]
    exact List.cons_ne_nil _ _
  · obtain ⟨ms, hne, hms, -⟩ := exists_upperChar (Nat.not_lt.mp h)
    rw [hms]
    simpa using hne

/-- A character outside ASCII becomes capital letters and characters outside ASCII. -/
theorem isCapital_of_mem_upperChar {c x : Char} (h : 128 ≤ c.toNat) (hx : x ∈ upperChar c) :
    isCapital x.toNat = true := by
  obtain ⟨ms, -, hms, hall⟩ := exists_upperChar h
  rw [hms] at hx
  obtain ⟨m, hm, rfl⟩ := List.mem_map.mp hx
  rw [toNat_ofNat (hall m hm).2.1]
  exact (hall m hm).1

/-- Whether a character is an ASCII character that has no case. -/
def isCaseless (c : Char) : Bool := c.toNat < 128 && !c.isAlpha

/-- Among the ASCII characters, upper case changes letters only, and into letters. -/
theorem toUpper_ascii {c : Char} (h : c.toNat < 128) :
    c.toUpper.isAlpha = c.isAlpha ∧ (c.isAlpha = false → c.toUpper = c) := by
  have hall : ∀ n < 128, (Char.ofNat n).toUpper.isAlpha = (Char.ofNat n).isAlpha ∧
      ((Char.ofNat n).isAlpha = false → (Char.ofNat n).toUpper = Char.ofNat n) := by decide
  have hc := hall c.toNat h
  rwa [Char.ofNat_toNat] at hc

/-- A character without case stays as it is. -/
theorem upperChar_caseless {c : Char} (h : isCaseless c = true) : upperChar c = [c] := by
  simp only [isCaseless, Bool.and_eq_true, decide_eq_true_eq, Bool.not_eq_true'] at h
  rw [upperChar_of_ascii h.1, (toUpper_ascii h.1).2 h.2]

/-- An ASCII character that has no case comes from nothing but itself. -/
theorem mem_upperChar_iff {c x : Char} (hx : isCaseless x = true) : x ∈ upperChar c ↔ x = c := by
  constructor
  · intro hmem
    simp only [isCaseless, Bool.and_eq_true, decide_eq_true_eq, Bool.not_eq_true'] at hx
    by_cases hc : c.toNat < 128
    · rw [upperChar_of_ascii hc, List.mem_singleton] at hmem
      have hupper := toUpper_ascii hc
      rw [← hmem, hx.2] at hupper
      rw [hmem, (toUpper_ascii hc).2 hupper.1.symm]
    · -- `x` would be a capital letter
      have hcapital := isCapital_of_mem_upperChar (Nat.not_lt.mp hc) hmem
      simp only [isCapital, Bool.or_eq_true, Bool.and_eq_true, decide_eq_true_eq] at hcapital
      have hletter : ∀ n < 128, 65 ≤ n ∧ n ≤ 90 → (Char.ofNat n).isAlpha = true := by decide
      have halpha := hletter x.toNat hx.1 (hcapital.resolve_left (Nat.not_le.mpr hx.1))
      rw [Char.ofNat_toNat, hx.2] at halpha
      cases halpha
  · rintro rfl
    rw [upperChar_caseless hx]
    exact List.mem_singleton_self x

/-! ## Upper case twice -/

/-- A capital letter that no entry changes stays as it is. -/
theorem upperChar_of_isSettled {n : Nat} (hscalar : isScalar n = true) (hcapital : isCapital n = true)
    (h : IsSettled n) : upperChar (Char.ofNat n) = [Char.ofNat n] := by
  by_cases hn : n < 128
  · have hletter : ∀ n < 128, isCapital n = true → (Char.ofNat n).toUpper = Char.ofNat n := by decide
    rw [upperChar_of_ascii (by rwa [toNat_ofNat hscalar]), hletter n hn hcapital]
  · unfold upperChar
    dsimp only
    rw [toNat_ofNat hscalar, if_neg hn, h.1, h.2]
    rfl

/-- The upper case of a character is in upper case. -/
theorem upper_upperChar (c : Char) : upper (upperChar c) = upperChar c := by
  by_cases h : c.toNat < 128
  · have hletter : ∀ n < 128, ((Char.ofNat n).toUpper).toNat < 128 ∧
        (Char.ofNat n).toUpper.toUpper = (Char.ofNat n).toUpper := by decide
    obtain ⟨hascii, htwice⟩ := hletter c.toNat h
    rw [Char.ofNat_toNat] at hascii htwice
    rw [upperChar_of_ascii h, upper_cons, upperChar_of_ascii hascii, htwice]
    rfl
  · obtain ⟨ms, -, hms, hall⟩ := exists_upperChar (Nat.not_lt.mp h)
    rw [hms, upper, List.flatMap_map]
    have hletters : ∀ m ∈ ms, upperChar (Char.ofNat m) = [Char.ofNat m] := by
      intro m hm
      obtain ⟨hcapital, hscalar, hsettled⟩ := hall m hm
      exact upperChar_of_isSettled hscalar hcapital hsettled
    rw [List.flatMap_def, List.map_congr_left hletters, ← List.flatMap_def, ← List.map_eq_flatMap]

/-- **Upper case is settled**: a text that is put in upper case is in upper case. -/
@[simp] theorem upper_upper (cs : List Char) : upper (upper cs) = upper cs := by
  induction cs with
  | nil => rfl
  | cons c cs ih => rw [upper_cons, upper_append, upper_upperChar, ih]

@[simp] theorem uppercased_uppercased (s : String) : uppercased (uppercased s) = uppercased s := by
  simp [uppercased]

end QuestScript.Text
