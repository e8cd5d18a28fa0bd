import QuestScript.Proofs.Store

/-!
# Reading what was written

A slot has three parts, a position and a key may lead to the same slot, and a write may append a slot
for a new key or fill a gap with empty ones. So it is not obvious which reads a write can change.

Main statement: a write changes what is read through the same part of the same position, and nothing
else (`set_get`). Two facts carry it:

* slots that are appended are empty, and what lies past the end reads as empty too, so growing a
  variable changes no read (`get_appendKey`, `get_put_of_ne`);
* a key that a write creates leads to the position that is written, and no other key is moved
  (`keyPosition?_appendKey`).
-/

namespace QuestScript

namespace Slot

theorem get_default (ty : ValueType) : ({} : Slot).get ty = Value.empty ty := by
  cases ty <;> rfl

end Slot

namespace Variable

variable {v : Variable} {p q : Nat} {w : Value} {ty : ValueType}

/-! ## Items -/

theorem get_of_size_le (h : v.size ≤ q) : v.get q ty = Value.empty ty := by
  unfold get
  rw [Array.getElem?_eq_none h, Option.getD_none, Slot.get_default]

/-- Every position of a variable that has grown reads as it did, but for the one that is written. -/
theorem slot_put (v : Variable) (p q : Nat) (w : Value) :
    (v.put p w).values[q]?.getD {}
      = if q = p then (v.values[q]?.getD {}).put w else v.values[q]?.getD {} := by
  have hgrown : (v.values ++ Array.replicate (p + 1 - v.values.size) ({} : Slot))[q]?.getD {}
      = v.values[q]?.getD {} := by
    rw [Array.getElem?_append]
    split
    · rfl
    · next hq =>
      rw [Array.getElem?_replicate, Array.getElem?_eq_none (Nat.not_lt.mp hq)]
      split <;> rfl
  unfold put
  dsimp only
  rw [Array.getElem?_modify]
  by_cases hpq : p = q
  · subst hpq
    rw [if_pos rfl, if_pos rfl, ← hgrown]
    have hlt : p < (v.values ++ Array.replicate (p + 1 - v.values.size) ({} : Slot)).size := by
      simp only [Array.size_append, Array.size_replicate]
      omega
    rw [Array.getElem?_eq_getElem hlt]
    rfl
  · rw [if_neg hpq, if_neg (Ne.symm hpq), hgrown]

theorem get_put_self (v : Variable) (p : Nat) (w : Value) : (v.put p w).get p w.type = w := by
  unfold get
  rw [slot_put, if_pos rfl, Slot.get_put]

/-- Other positions and other parts stay. -/
theorem get_put_of_ne (h : q ≠ p ∨ ty ≠ w.type) : (v.put p w).get q ty = v.get q ty := by
  unfold get
  rw [slot_put]
  split
  · next hq =>
    rcases h with h | h
    · exact absurd hq h
    · exact Slot.get_put_of_ne h
  · rfl

/-! ## New keys -/

theorem lookup_insertKey (key key' : String) (p : Nat) {keys : List (String × Nat)}
    (hnew : ∀ entry ∈ keys, entry.1 ≠ key) :
    (insertKey key p keys).lookup key' = if key' = key then some p else keys.lookup key' := by
  induction keys with
  | nil =>
    by_cases h : key' = key <;> simp [insertKey, h]
  | cons entry keys ih =>
    obtain ⟨k, n⟩ := entry
    obtain ⟨hk, hkeys⟩ := List.forall_mem_cons.mp hnew
    unfold insertKey
    split
    · by_cases h : key' = key
      · simp [h]
      · have hbeq : (key' == key) = false := beq_false_of_ne h
        rw [List.lookup_cons, hbeq, if_neg h]
    · rw [List.lookup_cons, ih hkeys, List.lookup_cons]
      by_cases h : key' = key
      · have hbeq : (key' == k) = false := beq_false_of_ne (h ▸ Ne.symm hk)
        rw [hbeq, if_pos h]
      · rw [if_neg h, if_neg h]

/-- A new key leads to the item that is appended for it; all others lead where they did. -/
theorem keyPosition?_appendKey {key : String} (h : v.keyPosition? key = none) (key' : String) :
    (v.appendKey key).keyPosition? key' = if key' = key then some v.size else v.keyPosition? key' :=
  lookup_insertKey key key' v.size (ne_of_keyPosition?_eq_none h)

/-- The item that is appended is empty. -/
theorem get_appendKey (v : Variable) (key : String) (q : Nat) (ty : ValueType) :
    (v.appendKey key).get q ty = v.get q ty := by
  unfold get appendKey
  dsimp only
  rw [Array.getElem?_push]
  split
  · next hq =>
    rw [hq, Array.getElem?_eq_none (Nat.le_refl _)]
    rfl
  · rfl

/-! ## Indices -/

/-- The position an index leads to. -/
def position? (v : Variable) : Value → Option Nat
  | .number n => n.position?
  | index => v.keyPosition? index.key

/-- The item an index leads to, and an empty one if it leads nowhere. -/
def read (v : Variable) (ty : ValueType) (index : Value) : Value :=
  match v.position? index with
  | some q => v.get q ty
  | none => Value.empty ty

/-- The variable once an index leads to an item of it: a key that leads nowhere gets an item. -/
def reach (v : Variable) : Value → Variable
  | .number _ => v
  | index => if (v.keyPosition? index.key).isSome then v else v.appendKey index.key

theorem get_reach (v : Variable) (index : Value) (q : Nat) (ty : ValueType) :
    (v.reach index).get q ty = v.get q ty := by
  unfold reach
  split
  · rfl
  · split
    · rfl
    · exact get_appendKey v _ q ty

/-- An index leads to the same position as before, or it had none and now leads to the item that was
appended. -/
theorem position?_reach (v : Variable) (index index' : Value) :
    (v.reach index).position? index' = v.position? index' ∨
      v.position? index' = none ∧ (v.reach index).position? index' = some v.size := by
  cases index' with
  | number n => exact .inl rfl
  | text _ | tuple _ =>
    cases index with
    | number n => exact .inl rfl
    | text _ | tuple _ =>
      simp only [reach, position?]
      split
      · exact .inl rfl
      · next hnew =>
        rw [Option.not_isSome_iff_eq_none] at hnew
        simp only [keyPosition?_appendKey hnew]
        split
        · next heq =>
          rw [heq]
          exact .inr ⟨hnew, rfl⟩
        · exact .inl rfl

theorem position?_put (v : Variable) (p : Nat) (w : Value) (index : Value) :
    (v.put p w).position? index = v.position? index := by
  cases index <;> rfl

/-- **A write to an item changes one part of one position.** -/
theorem read_put_of_ne {index index' : Value}
    (h : ty ≠ w.type ∨ ((v.reach index).put p w).position? index' ≠ some p) :
    ((v.reach index).put p w).read ty index' = v.read ty index' := by
  have hmoved := v.position?_reach index index'
  unfold read
  rw [position?_put] at h ⊢
  cases hq : (v.reach index).position? index' with
  | none =>
    -- a key that leads nowhere after the write led nowhere before
    rcases hmoved with heq | ⟨hnone, -⟩
    · rw [← heq, hq]
    · rw [hnone]
  | some q =>
    have hne : q ≠ p ∨ ty ≠ w.type := by
      rcases h with h | h
      · exact .inr h
      · left
        rintro rfl
        exact h hq
    dsimp only
    rw [get_put_of_ne hne, get_reach]
    rcases hmoved with heq | ⟨hnone, hlast⟩
    · rw [← heq, hq]
    · rw [hq] at hlast
      cases hlast
      rw [hnone, get_of_size_le (Nat.le_refl _)]

end Variable

namespace Store

variable {s s' : Store}

theorem get_eq_read (s : Store) (name : VarName) (index : Value) :
    s.get name index = (s.var name.key).read name.type index := by
  unfold get Variable.read
  cases index <;> rfl

theorem position?_eq (s : Store) (key : String) (index : Value) :
    s.position? key index = (s.var key).position? index := by
  cases index <;> rfl

/-! ## Writes that succeed -/

theorem var_of_putRaw {key : String} {position : Nat} {v : Value}
    (h : s.putRaw key position v = (.ok (), s')) (key' : String) :
    s'.var key' = if key = key' then (s.var key).put position v else s.var key' := by
  unfold putRaw at h
  split at h
  · cases h
  · exact (update_eq_ok h).2 key'

/-- A key leads to a position once it has been created. -/
theorem positionForWrite_key {key : String} {index : Value} (hindex : ∀ n, index ≠ .number n)
    {position : Option Nat} (h : s.positionForWrite key index = (.ok position, s')) :
    ∃ p, position = some p ∧ ((s.var key).reach index).position? index = some p ∧
      ∀ key', s'.var key' = if key = key' then (s.var key).reach index else s.var key' := by
  cases index with
  | number n => exact absurd rfl (hindex n)
  | text _ | tuple _ =>
    unfold positionForWrite at h
    dsimp only at h
    split at h
    · next p hp =>
      cases h
      exact ⟨p, rfl, by simp [Variable.reach, Variable.position?, hp], by simp [Variable.reach, hp]⟩
    · next hnew =>
      split at h
      · cases h
      · split at h
        · next hupdate =>
          cases h
          refine ⟨_, rfl, ?_, ?_⟩
          · simp only [Variable.reach, hnew, Option.isSome_none, Variable.position?]
            exact (Variable.keyPosition?_appendKey hnew _).trans (if_pos rfl)
          · simpa [Variable.reach, hnew] using (update_eq_ok hupdate).2
        · cases h

/-- The position that is looked for is negative, and nothing happens, or the index leads to it once its
key has been created. -/
theorem positionForWrite_eq_ok {key : String} {index : Value} {position : Option Nat}
    (h : s.positionForWrite key index = (.ok position, s')) :
    position = none ∧ s' = s ∧ (∃ n, index = .number n ∧ n < 0) ∨
      ∃ p, position = some p ∧ ((s.var key).reach index).position? index = some p ∧
        (∀ n, index = .number n → 0 ≤ n) ∧
        ∀ key', s'.var key' = if key = key' then (s.var key).reach index else s.var key' := by
  cases index with
  | number n =>
    unfold positionForWrite at h
    simp only [Number.position?] at h
    by_cases hn : 0 ≤ n
    · rw [if_pos hn] at h
      dsimp only at h
      split at h
      · cases h
        refine .inr ⟨_, rfl, ?_, ?_, fun key' => ?_⟩
        · simp [Variable.position?, Number.position?, hn]
        · rintro _ ⟨⟩
          exact hn
        · split
          · next hk => rw [← hk]; rfl
          · rfl
      · cases h
    · rw [if_neg hn] at h
      cases h
      exact .inl ⟨rfl, rfl, n, rfl, Int64.not_le.mp hn⟩
  | text _ | tuple _ =>
    obtain ⟨p, hp, hreach, hv⟩ := positionForWrite_key (by rintro n ⟨⟩) h
    exact .inr ⟨p, hp, hreach, by rintro n ⟨⟩, hv⟩

/-- A write that succeeds has a negative index and does nothing, or puts the value, converted to the
type of the name, where the index leads. -/
theorem set_eq_ok {name : VarName} {index v : Value} (h : s.set name index v = (.ok (), s')) :
    ∃ w, v.convert name.type = .ok w ∧
      (s' = s ∧ (∃ n, index = .number n ∧ n < 0) ∨
        ∃ p, ((s.var name.key).reach index).position? index = some p ∧
          (∀ n, index = .number n → 0 ≤ n) ∧
          ∀ key', s'.var key'
            = if name.key = key' then ((s.var name.key).reach index).put p w else s.var key') := by
  unfold set assignIndex combine at h
  dsimp only at h
  split at h
  · cases h
  · next w hw =>
    refine ⟨w, hw, ?_⟩
    split at h
    · cases h
    · next position s₁ hposition =>
      rcases positionForWrite_eq_ok hposition with ⟨rfl, rfl, hn⟩ | ⟨p, rfl, hp, hn, hv⟩
      · cases h
        exact .inl ⟨rfl, hn⟩
      · refine .inr ⟨p, hp, hn, fun key' => ?_⟩
        rw [var_of_putRaw h key', hv, hv, if_pos rfl]
        split
        · rfl
        · rfl

theorem type_of_convert {v w : Value} {ty : ValueType} (h : v.convert ty = .ok w) : w.type = ty := by
  unfold Value.convert at h
  split at h
  · next hw =>
    cases h
    exact Value.type_convert? hw
  · cases h

/-- **A write is read back, and no other read sees it.** After a write that succeeds, the same name
and index give the value, converted to the type of the name. A name with another key or of another
type, or an index that leads to another position, gives what it gave before. A write to a negative
position leaves the store as it is. -/
theorem set_get {name : VarName} {index v : Value} (h : s.set name index v = (.ok (), s')) :
    ((∀ n, index = .number n → 0 ≤ n) → v.convert name.type = .ok (s'.get name index)) ∧
    (∀ (other : VarName) (index' : Value),
      other.key ≠ name.key ∨ other.type ≠ name.type ∨
        s'.position? other.key index' ≠ s'.position? name.key index →
      s'.get other index' = s.get other index') ∧
    ((∃ n, index = .number n ∧ n < 0) → s' = s) := by
  obtain ⟨w, hw, ⟨rfl, n, rfl, hn⟩ | ⟨p, hp, hindex, hv⟩⟩ := set_eq_ok h
  · refine ⟨fun hindex => ?_, fun _ _ _ => rfl, fun _ => rfl⟩
    exact absurd (hindex n rfl) (Int64.not_le.mpr hn)
  · have htype := type_of_convert hw
    have hposition : s'.position? name.key index = some p := by
      rw [position?_eq, hv, if_pos rfl, Variable.position?_put, hp]
    refine ⟨fun _ => ?_, fun other index' hother => ?_, ?_⟩
    · rw [hw, get_eq_read, hv, if_pos rfl, Variable.read, Variable.position?_put, hp]
      dsimp only
      rw [← htype, Variable.get_put_self]
    · rw [hposition, position?_eq] at hother
      rw [get_eq_read, get_eq_read]
      rw [hv] at hother ⊢
      by_cases hkey : name.key = other.key
      · rw [if_pos hkey] at hother ⊢
        rw [← hkey]
        refine Variable.read_put_of_ne ?_
        rw [htype]
        rcases hother with hother | hother
        · exact absurd hkey.symm hother
        · exact hother
      · rw [if_neg hkey]
    · rintro ⟨n, rfl, hn⟩
      exact absurd (hindex n rfl) (Int64.not_le.mpr hn)

/-- A new key gets the item behind a gap; the numbers of the variable and the texts of its other items
are as before. -/
theorem set_get_sample :
    let s := ((Bindings.new 8 8).run [.set ⟨"A", .number⟩ (.number 2) (.number 5)]).store
    let written := s.set ⟨"A", .text⟩ (.text "k") (.number 7)
    written.1 = .ok () ∧ written.2.get ⟨"A", .text⟩ (.text "K") = .text "7" ∧
      written.2.get ⟨"A", .number⟩ (.number 2) = .number 5 ∧
      written.2.get ⟨"A", .text⟩ (.number 2) = s.get ⟨"A", .text⟩ (.number 2) := by
  intro s written
  have hok : written.1 = .ok () := by with_unfolding_all rfl
  have hset : s.set ⟨"A", .text⟩ (.text "k") (.number 7) = (.ok (), written.2) := Prod.ext hok rfl
  obtain ⟨hread, hother, -⟩ := set_get hset
  refine ⟨hok, ?_, ?_, ?_⟩
  · have hvalue := hread nofun
    have hsame : written.2.get ⟨"A", .text⟩ (.text "K") = written.2.get ⟨"A", .text⟩ (.text "k") := by
      with_unfolding_all rfl
    rw [hsame]
    exact (Except.ok.inj hvalue).symm
  · exact (hother ⟨"A", .number⟩ (.number 2) (.inr (.inl nofun))).trans (by with_unfolding_all rfl)
  · exact hother ⟨"A", .text⟩ (.number 2) (.inr (.inr (by decide +kernel)))

end Store

end QuestScript
