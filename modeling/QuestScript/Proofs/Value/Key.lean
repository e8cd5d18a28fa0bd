import QuestScript.Value
import QuestScript.Proofs.Text.Upper

/-!
# What a key tells of a tuple

The key of a tuple is one text: the texts of its scalars in upper case, with a separator between items
and a mark on each side of a nested tuple. As long as no text contains one of these three characters,
the key can be taken apart again, with one exception: nothing is written for an empty tuple, and nothing
is written for a tuple of one empty text.

So a key tells the shape of its tuple, up to that exception (`key_eq_iff`). The argument has three steps:

* putting a key in upper case is putting its scalars in upper case, because the three characters come
  from nothing but themselves (`upper_rawKeyItem`);
* what is written for a shape that has no empty tuple can be read in one way only, whatever follows
  (`Shape.key_append_inj`);
* filling empty tuples with an empty text changes nothing that is written (`Shape.key_filled`).
-/

namespace QuestScript

namespace Value

open Text (upper upperChar)

/-! ## Shapes -/

/-- How a value is nested, and the texts of its scalars in upper case. -/
inductive Shape where
  | scalar (text : List Char)
  | tuple (items : List Shape)

mutual

/-- The shape of a value. -/
def shape : Value → Shape
  | number n => .scalar (upper n.text.toList)
  | text s => .scalar (upper s.toList)
  | tuple items => .tuple (shapes items)

/-- The shapes of values. -/
def shapes : List Value → List Shape
  | [] => []
  | v :: vs => shape v :: shapes vs

end

namespace Shape

mutual

/-- The shape with an empty text in each empty tuple. -/
def filled : Shape → Shape
  | scalar t => scalar t
  | tuple [] => tuple [scalar []]
  | tuple (s :: ss) => tuple (filled s :: filledAll ss)

/-- The shapes with an empty text in each empty tuple. -/
def filledAll : List Shape → List Shape
  | [] => []
  | s :: ss => filled s :: filledAll ss

end

mutual

/-- Whether no tuple in the shape is empty. -/
def isFull : Shape → Bool
  | scalar _ => true
  | tuple [] => false
  | tuple (s :: ss) => isFull s && areFull ss

/-- Whether no tuple in the shapes is empty. -/
def areFull : List Shape → Bool
  | [] => true
  | s :: ss => isFull s && areFull ss

end

mutual

theorem filled_of_isFull : ∀ {s : Shape}, s.isFull = true → s.filled = s
  | scalar _, _ => rfl
  | tuple (_ :: _), h => by
    rw [isFull, Bool.and_eq_true] at h
    rw [filled, filled_of_isFull h.1, filledAll_of_areFull h.2]

theorem filledAll_of_areFull : ∀ {ss : List Shape}, areFull ss = true → filledAll ss = ss
  | [], _ => rfl
  | _ :: _, h => by
    rw [areFull, Bool.and_eq_true] at h
    rw [filledAll, filled_of_isFull h.1, filledAll_of_areFull h.2]

end

mutual

theorem isFull_filled : ∀ s : Shape, s.filled.isFull = true
  | scalar _ => rfl
  | tuple [] => rfl
  | tuple (s :: ss) => by rw [filled, isFull, isFull_filled s, areFull_filledAll ss]; rfl

theorem areFull_filledAll : ∀ ss : List Shape, areFull (filledAll ss) = true
  | [] => rfl
  | s :: ss => by rw [filledAll, areFull, isFull_filled s, areFull_filledAll ss]; rfl

end

/-! ## What is written for a shape -/

mutual

/-- The part of a key that stands for an item. -/
def key : Shape → List Char
  | scalar t => t
  | tuple items => keyOpen :: keyItems items ++ [keyClose]

/-- The parts of a key that stand for the items of a tuple, with separators between them. -/
def keyItems : List Shape → List Char
  | [] => []
  | [s] => key s
  | s :: ss => key s ++ keySeparator :: keyItems ss

end

/-- What is written for the items behind the first one. -/
def keyRest : List Shape → List Char
  | [] => []
  | ss => keySeparator :: keyItems ss

theorem keyItems_cons (s : Shape) (ss : List Shape) : keyItems (s :: ss) = key s ++ keyRest ss := by
  cases ss with
  | nil => exact (List.append_nil _).symm
  | cons t ss => rfl

mutual

/-- An empty text is written as nothing, as an empty tuple is. -/
theorem key_filled : ∀ s : Shape, s.filled.key = s.key
  | scalar _ => rfl
  | tuple [] => rfl
  | tuple (s :: ss) => by rw [filled, key, key, ← filledAll, keyItems_filledAll (s :: ss)]

theorem keyItems_filledAll : ∀ ss : List Shape, keyItems (filledAll ss) = keyItems ss
  | [] => rfl
  | s :: ss => by
    rw [filledAll, keyItems_cons, keyItems_cons, key_filled s, keyRest_filledAll ss]

theorem keyRest_filledAll : ∀ ss : List Shape, keyRest (filledAll ss) = keyRest ss
  | [] => rfl
  | s :: ss => congrArg (keySeparator :: ·) (keyItems_filledAll (s :: ss))

end

end Shape

/-- Whether a character has a meaning in keys. -/
def isKeyMark (c : Char) : Bool := c == keySeparator || c == keyOpen || c == keyClose

namespace Shape

mutual

/-- Whether no scalar contains a character with a meaning. -/
def isUnmarked : Shape → Bool
  | scalar t => t.all fun c => !isKeyMark c
  | tuple items => areUnmarked items

/-- Whether no scalar of the shapes contains a character with a meaning. -/
def areUnmarked : List Shape → Bool
  | [] => true
  | s :: ss => isUnmarked s && areUnmarked ss

end

mutual

theorem isUnmarked_filled : ∀ s : Shape, s.filled.isUnmarked = s.isUnmarked
  | scalar _ => rfl
  | tuple [] => rfl
  | tuple (s :: ss) => by
    rw [filled, isUnmarked, isUnmarked, areUnmarked, areUnmarked, isUnmarked_filled s,
      areUnmarked_filledAll ss]

theorem areUnmarked_filledAll : ∀ ss : List Shape, areUnmarked (filledAll ss) = areUnmarked ss
  | [] => rfl
  | s :: ss => by
    rw [filledAll, areUnmarked, areUnmarked, isUnmarked_filled s, areUnmarked_filledAll ss]

end

/-! ## Reading a key -/

/-- What may follow an item: nothing, a separator or the end of its tuple. -/
def Ends (r : List Char) : Prop := ∀ c ∈ r.head?, c = keySeparator ∨ c = keyClose

/-- What may follow the last item of a tuple. -/
def Closes (r : List Char) : Prop := ∀ c ∈ r.head?, c = keyClose

theorem Closes.ends {r : List Char} (h : Closes r) : Ends r := fun c hc => .inr (h c hc)

/-- What follows the first item of a tuple. -/
theorem Closes.ends_keyRest {r : List Char} (h : Closes r) (ss : List Shape) :
    Ends (keyRest ss ++ r) := by
  cases ss with
  | nil => exact h.ends
  | cons s ss =>
    rintro _ ⟨⟩
    exact .inl rfl

theorem closes_close (r : List Char) : Closes (keyClose :: r) := by
  rintro _ ⟨⟩
  rfl

theorem Ends.isKeyMark {r : List Char} (h : Ends r) {c : Char} (hc : c ∈ r.head?) :
    isKeyMark c = true := by
  rcases h c hc with rfl | rfl
  · rfl
  · rfl

/-- The end of a scalar is the first character with a meaning. -/
theorem scalar_append_inj {t t' r r' : List Char} (ht : (scalar t).isUnmarked = true)
    (ht' : (scalar t').isUnmarked = true) (hr : Ends r) (hr' : Ends r') (h : t ++ r = t' ++ r') :
    t = t' ∧ r = r' := by
  induction t generalizing t' with
  | nil =>
    cases t' with
    | nil => exact ⟨rfl, h⟩
    | cons c t' =>
      have hmark := hr.isKeyMark (c := c) (by rw [show r = c :: (t' ++ r') from h]; rfl)
      simp [isUnmarked, hmark] at ht'
  | cons c t ih =>
    cases t' with
    | nil =>
      have hmark := hr'.isKeyMark (c := c) (by rw [show r' = c :: (t ++ r) from h.symm]; rfl)
      simp [isUnmarked, hmark] at ht
    | cons c' t' =>
      obtain ⟨rfl, htail⟩ := List.cons_eq_cons.mp h
      simp only [isUnmarked, List.all_cons, Bool.and_eq_true] at ht ht' ih
      obtain ⟨rfl, hrest⟩ := ih ht.2 ht'.2 htail
      exact ⟨rfl, hrest⟩

/-- No scalar looks like the start of a tuple. -/
theorem scalar_append_ne {t r r' : List Char} {ss : List Shape} (ht : (scalar t).isUnmarked = true)
    (hr : Ends r) : t ++ r ≠ (tuple ss).key ++ r' := by
  intro h
  cases t with
  | nil =>
    rcases hr keyOpen (by rw [show r = _ from h]; rfl) with hc | hc
    · cases hc
    · cases hc
  | cons c t =>
    obtain ⟨rfl, -⟩ := List.cons_eq_cons.mp h
    simp only [isUnmarked, List.all_cons] at ht
    cases ht

mutual

/-- An item can be read in one way only, and so can what follows it. -/
theorem key_append_inj : ∀ {a b : Shape} {r r' : List Char}, a.isFull = true → b.isFull = true →
    a.isUnmarked = true → b.isUnmarked = true → Ends r → Ends r' →
    a.key ++ r = b.key ++ r' → a = b ∧ r = r'
  | scalar t, scalar t', r, r', _, _, ha, hb, hr, hr', h => by
    obtain ⟨rfl, hrest⟩ := scalar_append_inj ha hb hr hr' h
    exact ⟨rfl, hrest⟩
  | scalar t, tuple ss, r, r', _, _, ha, _, hr, _, h => absurd h (scalar_append_ne ha hr)
  | tuple ss, scalar t, r, r', _, _, _, hb, _, hr', h => absurd h.symm (scalar_append_ne hb hr')
  | tuple (s :: ss), tuple (t :: ts), r, r', hsa, hsb, ha, hb, _, _, h => by
    simp only [key, List.cons_append, List.append_assoc, List.cons.injEq, true_and] at h
    obtain ⟨hitems, hrest⟩ :=
      keyItems_append_inj (List.cons_ne_nil _ _) (List.cons_ne_nil _ _) hsa hsb ha hb (closes_close r)
        (closes_close r') h
    exact ⟨congrArg tuple hitems, (List.cons_eq_cons.mp hrest).2⟩

/-- The items of a tuple that is not empty can be read in one way only. -/
theorem keyItems_append_inj : ∀ {as bs : List Shape} {r r' : List Char}, as ≠ [] → bs ≠ [] →
    areFull as = true → areFull bs = true → areUnmarked as = true → areUnmarked bs = true →
    Closes r → Closes r' → keyItems as ++ r = keyItems bs ++ r' → as = bs ∧ r = r'
  | [], _, _, _, hne, _, _, _, _, _, _, _, _ => absurd rfl hne
  | _ :: _, [], _, _, _, hne, _, _, _, _, _, _, _ => absurd rfl hne
  | a :: as, b :: bs, r, r', _, _, hfa, hfb, ha, hb, hr, hr', h => by
    simp only [areFull, areUnmarked, Bool.and_eq_true] at hfa hfb ha hb
    simp only [keyItems_cons, List.append_assoc] at h
    obtain ⟨rfl, hrest⟩ :=
      key_append_inj hfa.1 hfb.1 ha.1 hb.1 (hr.ends_keyRest as) (hr'.ends_keyRest bs) h
    have htail := @keyItems_append_inj as bs r r'
    cases as with
    | nil =>
      cases bs with
      | nil => exact ⟨rfl, hrest⟩
      | cons b bs => cases hr keySeparator (by rw [show r = _ from hrest]; rfl)
    | cons a as =>
      cases bs with
      | nil => cases hr' keySeparator (by rw [show r' = _ from hrest.symm]; rfl)
      | cons b bs =>
        obtain ⟨heq, hlast⟩ := htail (List.cons_ne_nil _ _) (List.cons_ne_nil _ _) hfa.2 hfb.2
          ha.2 hb.2 hr hr' (List.cons_eq_cons.mp hrest).2
        exact ⟨congrArg _ heq, hlast⟩

end

/-- Shapes without empty tuples are told apart by what is written for them. -/
theorem key_inj {a b : Shape} (hfa : a.isFull = true) (hfb : b.isFull = true)
    (ha : a.isUnmarked = true) (hb : b.isUnmarked = true) : a.key = b.key ↔ a = b := by
  constructor
  · intro h
    have hnone : Ends [] := nofun
    exact (key_append_inj hfa hfb ha hb hnone hnone (by rw [h])).1
  · exact congrArg key

end Shape

/-! ## Keys of values -/

mutual

/-- Whether no text in the value contains a character with a meaning in keys. -/
def isUnmarked : Value → Bool
  | number _ => true
  | text s => s.toList.all fun c => !isKeyMark c
  | tuple items => areUnmarked items

/-- Whether no text in the values contains a character with a meaning in keys. -/
def areUnmarked : List Value → Bool
  | [] => true
  | v :: vs => isUnmarked v && areUnmarked vs

end

theorem isCaseless_of_isKeyMark {c : Char} (h : isKeyMark c = true) : Text.isCaseless c = true := by
  simp only [isKeyMark, Bool.or_eq_true, beq_iff_eq] at h
  rcases h with (rfl | rfl) | rfl <;> rfl

/-- Upper case brings no character with a meaning into a text. -/
theorem isUnmarked_upper {cs : List Char} (h : (cs.all fun c => !isKeyMark c) = true) :
    (Shape.scalar (upper cs)).isUnmarked = true := by
  simp only [List.all_eq_true, Bool.not_eq_true', Shape.isUnmarked] at h ⊢
  intro x hx
  obtain ⟨c, hc, hmem⟩ := List.mem_flatMap.mp hx
  cases hmark : isKeyMark x with
  | false => rfl
  | true =>
    rw [(Text.mem_upperChar_iff (isCaseless_of_isKeyMark hmark)).mp hmem, h c hc] at hmark
    cases hmark

/-- A number is written with digits and a minus sign. -/
theorem isUnmarked_number (n : Number) : (n.text.toList.all fun c => !isKeyMark c) = true := by
  have hdigits : ∀ k : Nat, (k.repr.toList.all fun c => !isKeyMark c) = true := by
    intro k
    rw [Nat.toList_repr, List.all_eq_true]
    intro c hc
    have hdigit := Nat.isDigit_of_mem_toDigits (by decide) (by decide) hc
    cases hmark : isKeyMark c with
    | false => rfl
    | true =>
      simp only [isKeyMark, Bool.or_eq_true, beq_iff_eq] at hmark
      rcases hmark with (rfl | rfl) | rfl <;> cases hdigit
  rw [Number.text]
  cases n.toInt with
  | ofNat k => exact hdigits k
  | negSucc k =>
    show (("-" ++ (k + 1).repr).toList.all fun c => !isKeyMark c) = true
    rw [String.toList_append, List.all_append, hdigits (k + 1)]
    rfl

mutual

theorem isUnmarked_shape : ∀ {v : Value}, v.isUnmarked = true → v.shape.isUnmarked = true
  | number n, _ => isUnmarked_upper (isUnmarked_number n)
  | text _, h => isUnmarked_upper h
  | tuple _, h => areUnmarked_shapes h

theorem areUnmarked_shapes : ∀ {vs : List Value}, areUnmarked vs = true →
    Shape.areUnmarked (shapes vs) = true
  | [], _ => rfl
  | v :: vs, h => by
    rw [areUnmarked, Bool.and_eq_true] at h
    rw [shapes, Shape.areUnmarked, isUnmarked_shape h.1, areUnmarked_shapes h.2]
    rfl

end

mutual

/-- A key is put in upper case scalar by scalar. -/
theorem upper_rawKeyItem : ∀ v : Value, upper (rawKeyItem v) = v.shape.key
  | number _ => rfl
  | text _ => rfl
  | tuple items => by
    have hopen : upperChar keyOpen = [keyOpen] := Text.upperChar_caseless rfl
    have hclose : upperChar keyClose = [keyClose] := Text.upperChar_caseless rfl
    simp [rawKeyItem, shape, Shape.key, upper_rawKeyItems items, hopen, hclose]

theorem upper_rawKeyItems : ∀ vs : List Value, upper (rawKeyItems vs) = Shape.keyItems (shapes vs)
  | [] => rfl
  | [v] => upper_rawKeyItem v
  | v :: w :: vs => by
    have hseparator : upperChar keySeparator = [keySeparator] := Text.upperChar_caseless rfl
    have hraw : rawKeyItems (v :: w :: vs)
        = rawKeyItem v ++ keySeparator :: rawKeyItems (w :: vs) := rfl
    rw [hraw, Text.upper_append, Text.upper_cons, upper_rawKeyItem v, upper_rawKeyItems (w :: vs),
      hseparator]
    rfl

end

/-- Two tuples have one key if the same is written for their shapes. -/
theorem key_eq_iff_key_shape (as bs : List Value) :
    (tuple as).key = (tuple bs).key ↔ (tuple as).shape.key = (tuple bs).shape.key := by
  have hkey : ∀ vs : List Value, (tuple vs).key = String.ofList (Shape.keyItems (shapes vs)) := by
    intro vs
    rw [key, rawKey, upper_rawKeyItems]
  simp [hkey, shape, Shape.key, String.ofList_inj]

/-- **A key tells the shape of its tuple.** If no text in two tuples contains one of the three
characters with a meaning, the tuples have one key just if they have the same length, scalars and
tuples in the same places at any depth, and the same texts in upper case for the scalars, where an
empty tuple counts as a tuple of one empty text. If neither has an empty tuple in it, this means that
their shapes are the same. -/
theorem tuple_key_eq_iff {as bs : List Value} (ha : areUnmarked as = true) (hb : areUnmarked bs = true) :
    ((tuple as).key = (tuple bs).key ↔ (tuple as).shape.filled = (tuple bs).shape.filled) ∧
    ((tuple as).shape.isFull = true → (tuple bs).shape.isFull = true →
      ((tuple as).key = (tuple bs).key ↔ (tuple as).shape = (tuple bs).shape)) := by
  have hfilled : (tuple as).key = (tuple bs).key ↔
      (tuple as).shape.filled = (tuple bs).shape.filled := by
    rw [key_eq_iff_key_shape, ← Shape.key_filled (tuple as).shape, ← Shape.key_filled (tuple bs).shape]
    refine Shape.key_inj (Shape.isFull_filled _) (Shape.isFull_filled _) ?_ ?_
    · rw [Shape.isUnmarked_filled]
      exact isUnmarked_shape (v := tuple as) ha
    · rw [Shape.isUnmarked_filled]
      exact isUnmarked_shape (v := tuple bs) hb
  refine ⟨hfilled, fun hfa hfb => ?_⟩
  rw [hfilled, Shape.filled_of_isFull hfa, Shape.filled_of_isFull hfb]

/-- Two tuples that differ in letter case, in the type of a scalar and in an empty tuple have one key; an
empty text at the end makes another key. -/
theorem tuple_key_eq_sample :
    let as := [text "key", tuple [], tuple [number 1]]
    let bs := [text "Key", tuple [text ""], tuple [text "1"]]
    areUnmarked as = true ∧ areUnmarked bs = true ∧ (tuple as).key = (tuple bs).key ∧
      (tuple as).key ≠ (tuple (as ++ [text ""])).key := by
  intro as bs
  have ha : areUnmarked as = true := by decide +kernel
  have hb : areUnmarked bs = true := by decide +kernel
  have htext : upper "key".toList = upper "Key".toList := by decide +kernel
  have hnumber : upper (Number.text 1).toList = upper "1".toList := by decide +kernel
  have hempty : upper "".toList = [] := by decide +kernel
  refine ⟨ha, hb, (tuple_key_eq_iff ha hb).1.mpr ?_, fun h => ?_⟩
  · simp only [as, bs, shape, shapes, Shape.filled, Shape.filledAll, htext, hnumber, hempty]
  · have hfilled := (tuple_key_eq_iff ha (by decide +kernel)).1.mp h
    simp [as, shape, shapes, Shape.filled, Shape.filledAll] at hfilled

/-- An empty tuple has the key of a tuple of one empty text. -/
theorem key_not_injective :
    areUnmarked [] = true ∧ areUnmarked [text ""] = true ∧
      (tuple []).key = (tuple [text ""]).key ∧ (tuple []).shape ≠ (tuple [text ""]).shape := by
  refine ⟨rfl, rfl, rfl, ?_⟩
  intro h
  cases h

end Value

end QuestScript
