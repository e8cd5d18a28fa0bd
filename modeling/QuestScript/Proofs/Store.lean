import QuestScript.Proofs.Saves

/-!
# Variables stay well formed

A variable is two parallel arrays, the items and the keys that lead to them, and a search for a key
is right only as long as the two fit. `Variable.WellFormed` says when they do:

* the keys are in strictly ascending order, so none is there twice;
* every key leads to an item, and no two keys lead to the same one;
* there are no more items than the store allows.

Items are appended, shifted, sliced, moved into groups and put back by more than a dozen operations.
`Bindings.apply_wellFormed` is the step over all of them. By induction on the operations it follows
that no store that starts empty ever holds or saves a variable that is not well formed.
-/

namespace QuestScript

/-! ## Well-formed variables -/

/-- The keys of a variable fit its items, of which there are at most `limit`. -/
structure Variable.WellFormed (limit : Nat) (v : Variable) : Prop where
  ascending : v.keys.Pairwise fun a b => a.1 < b.1
  inside : ∀ entry ∈ v.keys, entry.2 < v.values.size
  apart : v.keys.Pairwise fun a b => a.2 ≠ b.2
  limited : v.values.size ≤ limit

namespace Variable

variable {limit : Nat} {v : Variable}

theorem wellFormed_empty (limit : Nat) : ({} : Variable).WellFormed limit where
  ascending := .nil
  inside := nofun
  apart := .nil
  limited := Nat.zero_le _

/-! ## Writing an item -/

/-- A write behind the end fills up to its place. -/
theorem size_put (v : Variable) (position : Nat) (value : Value) :
    (v.put position value).values.size = max v.values.size (position + 1) := by
  simp only [put, Array.size_modify, Array.size_append, Array.size_replicate]
  omega

/-- A write within the limit: the items can only become more, and the keys stay. -/
theorem WellFormed.put (h : v.WellFormed limit) {position : Nat} (hp : position < limit)
    (value : Value) : (v.put position value).WellFormed limit where
  ascending := h.ascending
  inside entry he := by
    have := h.inside entry he
    rw [size_put]
    omega
  apart := h.apart
  limited := by
    have := h.limited
    rw [size_put]
    omega

/-! ## Appending a key -/

/-- A key that is appended is added to those that are there. -/
theorem mem_insertKey {key : String} {position : Nat} {entry : String × Nat}
    {keys : List (String × Nat)} :
    entry ∈ insertKey key position keys ↔ entry = (key, position) ∨ entry ∈ keys := by
  induction keys with
  | nil => simp [insertKey]
  | cons e keys ih =>
    unfold insertKey
    split
    · simp
    · simp only [List.mem_cons, ih]
      exact or_left_comm

/-- A key goes to its place among others that are all different from it. -/
theorem ascending_insertKey {key : String} (position : Nat) {keys : List (String × Nat)}
    (h : keys.Pairwise fun a b => a.1 < b.1) (hnew : ∀ entry ∈ keys, entry.1 ≠ key) :
    (insertKey key position keys).Pairwise fun a b => a.1 < b.1 := by
  induction keys with
  | nil => exact List.pairwise_singleton _ _
  | cons e keys ih =>
    obtain ⟨hfirst, hrest⟩ := List.pairwise_cons.mp h
    unfold insertKey
    split
    · next hlt =>
      refine List.pairwise_cons.mpr ⟨fun entry he => ?_, h⟩
      rcases List.mem_cons.mp he with rfl | hm
      · exact hlt
      · exact String.lt_trans hlt (hfirst entry hm)
    · next hge =>
      refine List.pairwise_cons.mpr ⟨fun entry he => ?_, ih hrest fun entry hm =>
        hnew entry (List.mem_cons_of_mem _ hm)⟩
      rcases mem_insertKey.mp he with rfl | hm
      · exact String.not_le.mp fun hle =>
          hnew e List.mem_cons_self (String.le_antisymm (String.not_lt.mp hge) hle)
      · exact hfirst entry hm

/-- Entries stay apart when one is added whose position none of them has. -/
theorem apart_insertKey (key : String) {position : Nat} {keys : List (String × Nat)}
    (h : keys.Pairwise fun a b => a.2 ≠ b.2) (hnew : ∀ entry ∈ keys, entry.2 ≠ position) :
    (insertKey key position keys).Pairwise fun a b => a.2 ≠ b.2 := by
  induction keys with
  | nil => exact List.pairwise_singleton _ _
  | cons e keys ih =>
    obtain ⟨hfirst, hrest⟩ := List.pairwise_cons.mp h
    unfold insertKey
    split
    · exact List.pairwise_cons.mpr ⟨fun entry he => (hnew entry he).symm, h⟩
    · refine List.pairwise_cons.mpr ⟨fun entry he => ?_, ih hrest fun entry hm =>
        hnew entry (List.mem_cons_of_mem _ hm)⟩
      rcases mem_insertKey.mp he with rfl | hm
      · exact hnew e List.mem_cons_self
      · exact hfirst entry hm

/-- A key that leads nowhere is the key of no entry. -/
theorem ne_of_keyPosition?_eq_none {key : String} (h : v.keyPosition? key = none) :
    ∀ entry ∈ v.keys, entry.1 ≠ key := by
  rintro ⟨k, p⟩ he rfl
  have hk := List.lookup_eq_none_iff.mp h (k, p) he
  simp at hk

/-- A new key gets an item of its own at the end. -/
theorem WellFormed.appendKey (h : v.WellFormed limit) {key : String}
    (hnew : v.keyPosition? key = none) (hroom : v.size < limit) :
    (v.appendKey key).WellFormed limit where
  ascending := ascending_insertKey _ h.ascending (ne_of_keyPosition?_eq_none hnew)
  inside entry he := by
    simp only [Variable.appendKey, Array.size_push]
    rcases mem_insertKey.mp he with rfl | hm
    · exact Nat.lt_succ_self _
    · exact Nat.lt_succ_of_lt (h.inside entry hm)
  apart := apart_insertKey _ h.apart fun entry he => Nat.ne_of_lt (h.inside entry he)
  limited := by
    simp only [Variable.appendKey, Array.size_push]
    exact hroom

/-! ## Removing an item -/

/-- Where an item stands after the one at `position`, which it is not, has gone. -/
def shifted (position p : Nat) : Nat := if position < p then p - 1 else p

/-- A position moves down by one if it is above the removed one, and stays inside. -/
theorem shifted_lt {position p size : Nat} (hp : p < size) (hposition : position < size)
    (hne : p ≠ position) : shifted position p < size - 1 := by
  unfold shifted
  split
  · omega
  · omega

/-- Positions that differ do so after the removal. -/
theorem shifted_ne {position p q : Nat} (hp : p ≠ position) (hq : q ≠ position) (h : p ≠ q) :
    shifted position p ≠ shifted position q := by
  unfold shifted
  split
  · split
    · omega
    · omega
  · split
    · omega
    · omega

theorem WellFormed.remove (h : v.WellFormed limit) (position : Nat) :
    (v.remove position).WellFormed limit := by
  unfold Variable.remove
  split
  case isFalse => exact h
  case isTrue hposition =>
    have hsize : (v.values.eraseIdxIfInBounds position).size = v.values.size - 1 := by
      rw [Array.eraseIdxIfInBounds_eq, dif_pos hposition, Array.size_eraseIdx]
    exact
      { ascending := (h.ascending.filter _).map _ fun _ _ hab => hab
        inside := by
          intro entry he
          obtain ⟨e, hm, rfl⟩ := List.mem_map.mp he
          obtain ⟨hm, hne⟩ := List.mem_filter.mp hm
          rw [hsize]
          exact shifted_lt (h.inside e hm) hposition (by simpa using hne)
        apart := by
          refine List.pairwise_map.mpr ((h.apart.filter _).imp_of_mem fun ha hb hab => ?_)
          have hane := (List.mem_filter.mp ha).2
          have hbne := (List.mem_filter.mp hb).2
          exact shifted_ne (by simpa using hane) (by simpa using hbne) hab
        limited := by
          have := h.limited
          rw [hsize]
          omega }

/-! ## A part of a variable -/

/-- A part of a variable takes the keys that lead into it. -/
theorem WellFormed.slice (h : v.WellFormed limit) (start count : Nat) :
    (v.slice start count).WellFormed limit := by
  unfold Variable.slice
  split
  case isTrue => exact wellFormed_empty limit
  case isFalse =>
    have hsize : (v.values.extract start (min v.values.size (start + count))).size
        = min v.values.size (start + count) - start := by
      rw [Array.size_extract]
      omega
    exact
      { ascending := (h.ascending.filter _).map _ fun _ _ hab => hab
        inside := by
          intro entry he
          obtain ⟨e, hm, rfl⟩ := List.mem_map.mp he
          obtain ⟨-, hin⟩ := List.mem_filter.mp hm
          simp only [Bool.and_eq_true, decide_eq_true_eq] at hin
          rw [hsize]
          dsimp only
          omega
        apart := by
          refine List.pairwise_map.mpr ((h.apart.filter _).imp_of_mem fun ha hb hab => ?_)
          have hain := (List.mem_filter.mp ha).2
          have hbin := (List.mem_filter.mp hb).2
          simp only [Bool.and_eq_true, decide_eq_true_eq] at hain hbin
          dsimp only
          omega
        limited := by
          have := h.limited
          rw [hsize]
          omega }

end Variable

/-! ## What operations do to the variables of a store -/

namespace Store

theorem var_insert (s : Store) (key key' : String) (v : Variable) :
    ({ s with vars := s.vars.insert key v } : Store).var key'
      = if key = key' then v else s.var key' := by
  unfold var
  dsimp only
  rw [Std.TreeMap.getElem?_insert]
  simp only [Std.compare_eq_iff_eq]
  split
  · rfl
  · rfl

/-- Of the variables in the store, only the one with the key is changed. -/
theorem var_modify (s : Store) (key key' : String) (f : Variable → Variable) :
    ({ s with vars := s.vars.modify key f } : Store).var key'
      = if key = key' ∧ s.vars.contains key then f (s.var key) else s.var key' := by
  unfold var
  dsimp only
  rw [Std.TreeMap.getElem?_modify]
  simp only [Std.compare_eq_iff_eq, Std.TreeMap.contains_eq_isSome_getElem?]
  by_cases hk : key = key'
  · subst hk
    cases h : s.vars[key]? with
    | none => simp
    | some v => simp
  · simp [hk]

theorem var_of_not_contains {s : Store} {key : String} (h : s.vars.contains key = false) :
    s.var key = {} := by
  rw [Std.TreeMap.contains_eq_isSome_getElem?, Option.isSome_eq_false_iff, Option.isNone_iff_eq_none]
    at h
  rw [var, h]
  rfl

/-- Only variables that hold nothing are pruned. -/
theorem var_prune (s : Store) (key : String) : s.prune.var key = s.var key := by
  unfold var prune
  dsimp only
  rw [Std.TreeMap.getElem?_filter']
  cases s.vars[key]? with
  | none => rfl
  | some v =>
    cases he : v.isEmpty with
    | false => rw [Option.filter_some, he]; rfl
    | true => rw [Option.filter_some, he, Variable.eq_of_isEmpty he]; rfl

/-- The limits of a store. -/
def limits (s : Store) : Nat × Nat := (s.maxVariables, s.maxItems)

/-- Making room for a variable changes none, and if there is room the variable is there. -/
theorem makeRoom_cases (s : Store) (key : String) :
    ∃ room s', s.makeRoom key = (room, s') ∧ s'.limits = s.limits ∧
      (∀ key', s'.var key' = s.var key') ∧ (room = true → s'.vars.contains key = true) := by
  unfold makeRoom
  split
  · next hc => exact ⟨true, s, rfl, rfl, fun _ => rfl, fun _ => hc⟩
  · next hc =>
    have hempty : s.var key = {} := var_of_not_contains (Bool.eq_false_iff.mpr hc)
    -- the room is looked for in the store itself or in the pruned one
    obtain ⟨s₁, heq, hl, hv⟩ : ∃ s₁, (if s.vars.size < s.maxVariables then s else s.prune) = s₁ ∧
        s₁.limits = s.limits ∧ ∀ key', s₁.var key' = s.var key' := by
      split
      · exact ⟨s, rfl, rfl, fun _ => rfl⟩
      · exact ⟨s.prune, rfl, rfl, var_prune s⟩
    dsimp only
    rw [heq]
    split
    · refine ⟨true, _, rfl, hl, fun key' => ?_, fun _ => Std.TreeMap.contains_insert_self⟩
      rw [var_insert]
      split
      · next hk => rw [← hk, hempty]
      · exact hv key'
    · exact ⟨false, s₁, rfl, hl, hv, nofun⟩

/-- A variable is changed, or there is no room for it and nothing is. -/
theorem update_cases (s : Store) (key : String) (f : Variable → Variable) :
    (∃ s', s.update key f = (.ok (), s') ∧ s'.limits = s.limits ∧
      ∀ key', s'.var key' = if key = key' then f (s.var key) else s.var key') ∨
    ∃ s', s.update key f = (.error ⟨.tooManyVariables, none⟩, s') ∧ s'.limits = s.limits ∧
      ∀ key', s'.var key' = s.var key' := by
  obtain ⟨room, s₁, heq, hl, hv, hroom⟩ := s.makeRoom_cases key
  unfold update
  rw [heq]
  cases room with
  | false => exact .inr ⟨s₁, rfl, hl, hv⟩
  | true =>
    refine .inl ⟨_, rfl, hl, fun key' => ?_⟩
    rw [var_modify, hv, hv, hroom rfl]
    simp

/-- An update that succeeds writes one variable. -/
theorem update_eq_ok {s s' : Store} {key : String} {f : Variable → Variable} (h : s.update key f = (.ok (), s')) :
    s'.limits = s.limits ∧ ∀ key', s'.var key' = if key = key' then f (s.var key) else s.var key' := by
  rcases s.update_cases key f with ⟨s₁, heq, hl, hv⟩ | ⟨s₁, heq, -, -⟩
  · rw [h] at heq
    cases heq
    exact ⟨hl, hv⟩
  · rw [h] at heq
    cases heq

/-- A position is found in the store as it is, or nothing is, or an item is appended for a new key,
within the limit, if there is room for the variable. -/
theorem positionForWrite_cases (s : Store) (key : String) (index : Value) :
    (∃ r, s.positionForWrite key index = (r, s)) ∨
      (s.var key).keyPosition? index.key = none ∧ s.checkPosition (s.size key) = .ok () ∧
        s.positionForWrite key index =
          ((s.update key (·.appendKey index.key)).1.map fun _ => some (s.size key),
            (s.update key (·.appendKey index.key)).2) := by
  unfold positionForWrite
  split
  · split
    · split
      · exact .inl ⟨_, rfl⟩
      · exact .inl ⟨_, rfl⟩
    · exact .inl ⟨_, rfl⟩
  · split
    · exact .inl ⟨_, rfl⟩
    · next hnew =>
      dsimp only
      split
      · exact .inl ⟨_, rfl⟩
      · next hcheck =>
        refine .inr ⟨hnew, hcheck, ?_⟩
        split
        · next heq => rw [heq]; rfl
        · next heq => rw [heq]; rfl

/-! ## Well-formed stores -/

/-- Every variable is well formed, with no more items than the store allows. -/
def WellFormed (s : Store) : Prop := ∀ key, (s.var key).WellFormed s.maxItems

/-- A change of the store that keeps its limits, and its variables well formed if they are. -/
def Preserves (s s' : Store) : Prop := s'.limits = s.limits ∧ (s.WellFormed → s'.WellFormed)

theorem Preserves.refl (s : Store) : s.Preserves s := ⟨rfl, id⟩

theorem Preserves.trans {s₁ s₂ s₃ : Store} (h₁ : s₁.Preserves s₂) (h₂ : s₂.Preserves s₃) :
    s₁.Preserves s₃ := ⟨h₂.1.trans h₁.1, fun h => h₂.2 (h₁.2 h)⟩

theorem Preserves.maxItems {s s' : Store} (h : s.Preserves s') : s'.maxItems = s.maxItems :=
  congrArg Prod.snd h.1

/-- A store whose variables are those of another, but for some that are well formed. -/
theorem preserves_of_var {s s' : Store} (hl : s'.limits = s.limits)
    (hv : s.WellFormed → ∀ key, s'.var key = s.var key ∨ (s'.var key).WellFormed s.maxItems) :
    s.Preserves s' := by
  refine ⟨hl, fun h key => ?_⟩
  rw [show s'.maxItems = s.maxItems from congrArg Prod.snd hl]
  rcases hv h key with heq | hw
  · rw [heq]
    exact h key
  · exact hw

/-- It is enough to know what an update does to the variable. -/
theorem preserves_update {s : Store} {key : String} {f : Variable → Variable}
    (hf : s.WellFormed → (f (s.var key)).WellFormed s.maxItems) :
    s.Preserves (s.update key f).2 := by
  rcases s.update_cases key f with ⟨s', heq, hl, hv⟩ | ⟨s', heq, hl, hv⟩
  · rw [heq]
    refine preserves_of_var hl fun h key' => ?_
    rw [hv]
    split
    · exact .inr (hf h)
    · exact .inl rfl
  · rw [heq]
    exact preserves_of_var hl fun _ key' => .inl (hv key')

/-- A position that passes its check is below the limit. -/
theorem lt_of_checkPosition {s : Store} {position : Nat} (h : s.checkPosition position = .ok ()) :
    position < s.maxItems := by
  unfold checkPosition at h
  split at h
  · cases h
  · next hlt => exact Nat.not_le.mp hlt

theorem preserves_putRaw (s : Store) (key : String) (position : Nat) (v : Value) :
    s.Preserves (s.putRaw key position v).2 := by
  unfold putRaw
  split
  · exact .refl s
  · next hp => exact preserves_update fun h => (h key).put (lt_of_checkPosition hp) v

/-- A key is entered at the end, and only if there is room for an item. -/
theorem preserves_positionForWrite (s : Store) (key : String) (index : Value) :
    s.Preserves (s.positionForWrite key index).2 := by
  rcases s.positionForWrite_cases key index with ⟨r, heq⟩ | ⟨hnew, hroom, heq⟩
  · rw [heq]
    exact .refl s
  · rw [heq]
    exact preserves_update fun h => (h key).appendKey hnew (lt_of_checkPosition hroom)

theorem preserves_storeAt (s : Store) (name : VarName) (position : Option Nat) (v : Value) :
    s.Preserves (s.storeAt name position v).2 := by
  unfold storeAt
  split
  · exact .refl s
  · exact s.preserves_putRaw _ _ _

theorem preserves_assign (s : Store) (name : VarName) (position : Option Nat) (op : AssignOp)
    (v : Value) : s.Preserves (s.assign name position op v).2 := by
  unfold assign
  split
  · exact .refl s
  · exact s.preserves_storeAt _ _ _

/-- The position for the key is found, and then the value is stored there. -/
theorem preserves_assignIndex (s : Store) (name : VarName) (index : Value) (op : AssignOp)
    (v : Value) : s.Preserves (s.assignIndex name index op v).2 := by
  unfold assignIndex
  split
  · exact .refl s
  · have := s.preserves_positionForWrite name.key index
    split
    · next heq => rw [heq] at this; exact this
    · next heq => rw [heq] at this; exact this.trans (preserves_storeAt _ _ _ _)

theorem preserves_clear (s : Store) : s.Preserves s.clear :=
  preserves_of_var rfl fun _ _ => .inr (Variable.wellFormed_empty _)

theorem preserves_removeVar (s : Store) (key : String) : s.Preserves (s.removeVar key) := by
  refine preserves_of_var rfl fun _ key' => ?_
  rw [var_removeVar]
  split
  · exact .inr (Variable.wellFormed_empty _)
  · exact .inl rfl

theorem preserves_removeItem (s : Store) (key : String) (position : Nat) :
    s.Preserves (s.removeItem key position) := by
  refine preserves_of_var rfl fun h key' => ?_
  rw [removeItem, var_modify]
  split
  · exact .inr ((h key).remove position)
  · exact .inl rfl

/-- What is copied is a part of a well-formed variable. -/
theorem preserves_copyArray (s : Store) (dest src : String) (start : Number)
    (count : Option Number) : s.Preserves (s.copyArray dest src start count).2 := by
  unfold copyArray
  split
  · exact .refl s
  · exact preserves_update fun h => (h src).slice _ _

theorem limits_restore (s : Store) (key : String) (v : Variable) :
    (s.restore key v).limits = s.limits := by
  unfold restore
  split
  · rfl
  · rfl

/-- A variable that comes back was well-formed when it was saved. -/
theorem preserves_restore {s : Store} (key : String) {v : Variable} (hv : v.WellFormed s.maxItems) :
    s.Preserves (s.restore key v) := by
  refine preserves_of_var (s.limits_restore key v) fun _ key' => ?_
  rw [var_restore]
  split
  · exact .inr hv
  · exact .inl rfl

end Store

/-! ## Saved groups -/

/-- The variables of a group are well formed. -/
def SaveGroup.WellFormed (limit : Nat) (g : SaveGroup) : Prop :=
  ∀ entry ∈ g, entry.2.WellFormed limit

namespace Saves

theorem limits_restoreGroup (g : SaveGroup) (s : Store) : (restoreGroup g s).limits = s.limits := by
  induction g generalizing s with
  | nil => rfl
  | cons entry g ih => exact (ih _).trans (s.limits_restore entry.1 entry.2)

theorem limits_closeAbove (mark : Nat) (restore : Bool) (groups : List SaveGroup) (s : Store) :
    (closeAbove mark restore groups s).2.limits = s.limits := by
  induction groups generalizing s with
  | nil => rfl
  | cons g gs ih =>
    unfold closeAbove
    split
    · rw [ih]
      split
      · exact limits_restoreGroup g s
      · rfl
    · rfl

/-- By induction on the group. -/
theorem preserves_restoreGroup {g : SaveGroup} {s : Store} (hg : g.WellFormed s.maxItems) :
    s.Preserves (restoreGroup g s) := by
  induction g generalizing s with
  | nil => exact .refl s
  | cons entry g ih =>
    have hfirst := Store.preserves_restore (s := s) entry.1 (hg entry List.mem_cons_self)
    refine hfirst.trans (ih fun e he => ?_)
    rw [hfirst.maxItems]
    exact hg e (List.mem_cons_of_mem _ he)

/-- Closing groups leaves some of them, and puts well-formed variables back. -/
theorem preserves_closeAbove (mark : Nat) (restore : Bool) {groups : List SaveGroup} {s : Store}
    (hg : ∀ g ∈ groups, g.WellFormed s.maxItems) :
    s.Preserves (closeAbove mark restore groups s).2 ∧
      ∀ g ∈ (closeAbove mark restore groups s).1, g ∈ groups := by
  induction groups generalizing s with
  | nil => exact ⟨.refl s, nofun⟩
  | cons g gs ih =>
    unfold closeAbove
    split
    · have hfirst : s.Preserves (if restore then restoreGroup g s else s) := by
        split
        · exact preserves_restoreGroup (hg g List.mem_cons_self)
        · exact .refl s
      obtain ⟨hrest, hmem⟩ := ih (s := if restore then restoreGroup g s else s) fun g' hg' => by
        rw [hfirst.maxItems]
        exact hg g' (List.mem_cons_of_mem _ hg')
      exact ⟨hfirst.trans hrest, fun g' hg' => List.mem_cons_of_mem _ (hmem g' hg')⟩
    · exact ⟨.refl s, fun _ h => h⟩

end Saves

/-! ## Sequences of operations -/

/-- A store and the groups saved from it. -/
structure Bindings where
  store : Store
  saves : Saves := {}

/-- The operations on variables and on saved groups. -/
inductive Operation where
  | set (name : VarName) (index v : Value)
  | assign (name : VarName) (position : Option Nat) (op : AssignOp) (v : Value)
  | assignIndex (name : VarName) (index : Value) (op : AssignOp) (v : Value)
  | putRaw (key : String) (position : Nat) (v : Value)
  | positionForWrite (key : String) (index : Value)
  /-- Ask for a variable to write to, and write nothing. -/
  | touch (key : String)
  | removeVar (key : String)
  | removeItem (key : String) (position : Nat)
  | copyArray (dest src : String) (start : Number) (count : Option Number)
  | clear
  | allocate
  | localize (key : String)
  | release (mark : Nat) (restore : Bool)
  | restoreAll

namespace Bindings

/-- The empty store with the given limits, and no group. -/
def new (maxVariables maxItems : Nat) : Bindings := { store := { maxVariables, maxItems } }

/-- What an operation leaves, whether it succeeds or not. -/
def apply (b : Bindings) : Operation → Bindings
  | .set name index v => { b with store := (b.store.set name index v).2 }
  | .assign name position op v => { b with store := (b.store.assign name position op v).2 }
  | .assignIndex name index op v => { b with store := (b.store.assignIndex name index op v).2 }
  | .putRaw key position v => { b with store := (b.store.putRaw key position v).2 }
  | .positionForWrite key index => { b with store := (b.store.positionForWrite key index).2 }
  | .touch key => { b with store := (b.store.update key id).2 }
  | .removeVar key => { b with store := b.store.removeVar key }
  | .removeItem key position => { b with store := b.store.removeItem key position }
  | .copyArray dest src start count => { b with store := (b.store.copyArray dest src start count).2 }
  | .clear => { b with store := b.store.clear }
  | .allocate => { b with saves := b.saves.allocate }
  | .localize key =>
    let (saves, store) := b.saves.localize b.store key
    { store, saves }
  | .release mark restore =>
    let (saves, store) := b.saves.release mark restore b.store
    { store, saves }
  | .restoreAll =>
    let (saves, store) := b.saves.restoreAll b.store
    { store, saves }

/-- What a sequence of operations leaves. -/
def run (b : Bindings) (ops : List Operation) : Bindings := ops.foldl apply b

/-- Every variable is well formed, in the store and in the groups. -/
structure WellFormed (limit : Nat) (b : Bindings) : Prop where
  maxItems : b.store.maxItems = limit
  store : b.store.WellFormed
  saves : ∀ g ∈ b.saves.groups, g.WellFormed limit

variable {limit : Nat} {b : Bindings}

/-- A change of the store alone. -/
theorem WellFormed.store_change (h : b.WellFormed limit) {s : Store} (hs : b.store.Preserves s) :
    WellFormed limit { b with store := s } where
  maxItems := hs.maxItems.trans h.maxItems
  store := hs.2 h.store
  saves := h.saves

/-- A variable is moved from the store into a group as it is. -/
theorem WellFormed.localize (h : b.WellFormed limit) (key : String) :
    WellFormed limit
      { store := (b.saves.localize b.store key).2, saves := (b.saves.localize b.store key).1 } := by
  unfold Saves.localize
  split
  · exact h
  · next g gs hgroups =>
    split
    · exact h
    · have hremove := b.store.preserves_removeVar key
      refine ⟨hremove.maxItems.trans h.maxItems, hremove.2 h.store, fun g' hg' => ?_⟩
      have hold := h.saves
      rw [hgroups] at hold
      rcases List.mem_cons.mp hg' with rfl | hm
      · intro entry he
        rcases List.mem_cons.mp he with rfl | hm
        · exact h.maxItems ▸ h.store key
        · exact hold g List.mem_cons_self entry hm
      · exact hold g' (List.mem_cons_of_mem _ hm)

/-- Closing groups puts back what they saved, and leaves the groups below. -/
theorem WellFormed.release (h : b.WellFormed limit) (mark : Nat) (restore : Bool) :
    WellFormed limit
      { store := (b.saves.release mark restore b.store).2
        saves := (b.saves.release mark restore b.store).1 } := by
  have hgroups : ∀ g ∈ b.saves.groups, g.WellFormed b.store.maxItems := by
    rw [h.maxItems]
    exact h.saves
  obtain ⟨hstore, hmem⟩ := Saves.preserves_closeAbove mark restore hgroups
  exact ⟨hstore.maxItems.trans h.maxItems, hstore.2 h.store, fun g hg => h.saves g (hmem g hg)⟩

/-- Every operation keeps all variables well formed. -/
theorem apply_wellFormed (h : b.WellFormed limit) (op : Operation) :
    (b.apply op).WellFormed limit := by
  cases op with
  | set name index v => exact h.store_change (b.store.preserves_assignIndex _ _ _ _)
  | assign name position op v => exact h.store_change (b.store.preserves_assign _ _ _ _)
  | assignIndex name index op v => exact h.store_change (b.store.preserves_assignIndex _ _ _ _)
  | putRaw key position v => exact h.store_change (b.store.preserves_putRaw _ _ _)
  | positionForWrite key index => exact h.store_change (b.store.preserves_positionForWrite _ _)
  | touch key => exact h.store_change (Store.preserves_update fun hs => hs key)
  | removeVar key => exact h.store_change (b.store.preserves_removeVar key)
  | removeItem key position => exact h.store_change (b.store.preserves_removeItem key position)
  | copyArray dest src start count => exact h.store_change (b.store.preserves_copyArray _ _ _ _)
  | clear => exact h.store_change b.store.preserves_clear
  | allocate =>
    refine ⟨h.maxItems, h.store, fun g hg => ?_⟩
    rcases List.mem_cons.mp hg with rfl | hm
    · exact nofun
    · exact h.saves g hm
  | localize key => exact h.localize key
  | release mark restore => exact h.release mark restore
  | restoreAll => exact h.release 0 true

theorem new_wellFormed (maxVariables maxItems : Nat) : (new maxVariables maxItems).WellFormed maxItems where
  maxItems := rfl
  store _ := Variable.wellFormed_empty maxItems
  saves := nofun

/-- A sequence of operations keeps all variables well formed. -/
theorem WellFormed.run (h : b.WellFormed limit) (ops : List Operation) :
    (b.run ops).WellFormed limit := by
  induction ops generalizing b with
  | nil => exact h
  | cons op ops ih => exact ih (apply_wellFormed h op)

/-- **Variables stay well formed.** Whatever operations are made on an empty store, whether they
succeed or not: every variable in the store and every variable saved in a group has its keys in
strictly ascending order, each leads to an item of its own, and there are no more items than the
limit. -/
theorem run_wellFormed (maxVariables maxItems : Nat) (ops : List Operation) :
    ((new maxVariables maxItems).run ops).WellFormed maxItems :=
  (new_wellFormed maxVariables maxItems).run ops

end Bindings

end QuestScript
