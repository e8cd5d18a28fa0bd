/-!
# Byte offsets

Positions in a line are counted in bytes of its UTF-8 form. A position is *inside* a text when it
falls between two characters; `splitBytes` cuts there and refuses every other position.

Main statement: a successful cut loses nothing and its first part has exactly the requested size
(`splitBytes_eq_some`).
-/

namespace QuestScript.Text

/-- Size of a text in bytes. -/
def byteSize : List Char → Nat
  | [] => 0
  | c :: cs => c.utf8Size + byteSize cs

@[simp] theorem byteSize_nil : byteSize [] = 0 := rfl

@[simp] theorem byteSize_cons (c : Char) (cs : List Char) :
    byteSize (c :: cs) = c.utf8Size + byteSize cs := rfl

@[simp] theorem byteSize_append (as bs : List Char) :
    byteSize (as ++ bs) = byteSize as + byteSize bs := by
  induction as with
  | nil => simp
  | cons c as ih => simp [ih, Nat.add_assoc]

/-- Cut a text after `n` bytes; `none` when `n` is past the end or inside a character. -/
def splitBytes : List Char → Nat → Option (List Char × List Char)
  | cs, 0 => some ([], cs)
  | [], _ + 1 => none
  | c :: cs, n + 1 =>
    if c.utf8Size ≤ n + 1 then
      (splitBytes cs (n + 1 - c.utf8Size)).map fun (a, b) => (c :: a, b)
    else none

/-- A cut loses nothing, and its first part has the requested size. -/
theorem splitBytes_eq_some {cs a b : List Char} {n : Nat} (h : splitBytes cs n = some (a, b)) :
    cs = a ++ b ∧ byteSize a = n := by
  induction cs generalizing n a b with
  | nil =>
    cases n with
    | zero => simp only [splitBytes, Option.some.injEq, Prod.mk.injEq] at h; simp [← h.1, ← h.2]
    | succ n => simp [splitBytes] at h
  | cons c cs ih =>
    cases n with
    | zero => simp only [splitBytes, Option.some.injEq, Prod.mk.injEq] at h; simp [← h.1, ← h.2]
    | succ n =>
      by_cases hc : c.utf8Size ≤ n + 1
      · simp only [splitBytes, if_pos hc, Option.map_eq_some_iff, Prod.mk.injEq] at h
        obtain ⟨⟨a', b'⟩, h', rfl, rfl⟩ := h
        obtain ⟨rfl, hs⟩ := ih h'
        simp only [List.cons_append, byteSize_cons, true_and]
        omega
      · simp [splitBytes, hc] at h

/-- Cutting a concatenation after its first part gives the two parts back. -/
theorem splitBytes_append (a b : List Char) : splitBytes (a ++ b) (byteSize a) = some (a, b) := by
  induction a with
  | nil => cases b <;> rfl
  | cons c a ih =>
    have hc : 0 < c.utf8Size := Char.utf8Size_pos c
    obtain ⟨m, hm⟩ : ∃ m, byteSize (c :: a) = m + 1 := ⟨byteSize (c :: a) - 1, by simp; omega⟩
    have hle : c.utf8Size ≤ m + 1 := by rw [← hm]; simp
    have hsub : m + 1 - c.utf8Size = byteSize a := by rw [← hm]; simp
    rw [hm, List.cons_append, splitBytes, if_pos hle, hsub, ih]
    rfl

/-- The bytes from `start` up to `stop`, when both positions are inside the text. -/
def slice? (cs : List Char) (start stop : Nat) : Option (List Char) :=
  if start ≤ stop then do
    let (_, rest) ← splitBytes cs start
    let (part, _) ← splitBytes rest (stop - start)
    return part
  else none

/-- The character that starts at byte `n`. -/
def charAt? (cs : List Char) (n : Nat) : Option Char :=
  (splitBytes cs n).bind fun (_, rest) => rest.head?

theorem charAt?_append (as bs : List Char) : charAt? (as ++ bs) (byteSize as) = bs.head? := by
  rw [charAt?, splitBytes_append]
  rfl

/-- The text from byte `n` on; empty when `n` is past the end or inside a character. -/
def dropBytes (cs : List Char) (n : Nat) : List Char :=
  match splitBytes cs n with
  | some (_, rest) => rest
  | none => []

end QuestScript.Text
