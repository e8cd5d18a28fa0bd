import QuestScript.Variable.Scope

/-!
# Saved groups

What the operations on saved bindings do to the groups, and what closing a group does to the
variables.

* `Saves.Grows`: the innermost group has got further entries, each with a key of its own, and no
  other group has changed. Saving a variable is such a step.
* `Saves.release_cons`: closing one group puts its entries back and leaves the others.
* `Saves.var_restoreGroup_of_mem`: a variable that is put back is what was saved.
-/

namespace QuestScript

/-! ## Variables of a store -/

theorem Store.var_removeVar (s : Store) (key key' : String) :
    (s.removeVar key).var key' = if key = key' then {} else s.var key' := by
  unfold var removeVar
  dsimp only
  rw [Std.TreeMap.getElem?_erase]
  simp only [Std.compare_eq_iff_eq]
  split
  · rfl
  · rfl

/-- A variable that holds nothing is the empty one. -/
theorem Variable.eq_of_isEmpty {v : Variable} (h : v.isEmpty = true) : v = {} := by
  obtain ⟨values, keys⟩ := v
  simp only [isEmpty, Bool.and_eq_true, Array.isEmpty_iff, List.isEmpty_iff] at h
  rw [h.1, h.2]

theorem Store.var_restore (s : Store) (key key' : String) (v : Variable) :
    (s.restore key v).var key' = if key = key' then v else s.var key' := by
  unfold restore
  split
  · next h => rw [var_removeVar, Variable.eq_of_isEmpty h]
  · unfold var
    dsimp only
    rw [Std.TreeMap.getElem?_insert]
    simp only [Std.compare_eq_iff_eq]
    split
    · rfl
    · rfl

/-! ## Groups that grow -/

/-- A group after further variables have been saved in it, each one that it did not hold. -/
inductive SaveGroup.Grows (g : SaveGroup) : SaveGroup → Prop
  | refl : Grows g g
  | save {g' : SaveGroup} {key : String} (v : Variable) (h : g'.any (·.1 == key) = false) :
      Grows g g' → Grows g ((key, v) :: g')

/-- What a group holds stays in it. -/
theorem SaveGroup.Grows.mem {g g' : SaveGroup} (h : g.Grows g') {entry : String × Variable}
    (he : entry ∈ g) : entry ∈ g' := by
  induction h with
  | refl => exact he
  | save v _ _ ih => exact List.mem_cons_of_mem _ ih

theorem SaveGroup.Grows.trans {g₁ g₂ g₃ : SaveGroup} (h₁ : g₁.Grows g₂) (h₂ : g₂.Grows g₃) :
    g₁.Grows g₃ := by
  induction h₂ with
  | refl => exact h₁
  | save v h _ ih => exact .save v h ih

/-- The innermost group may have grown, and all others are the same. -/
inductive Saves.Grows : Saves → Saves → Prop
  | none : Grows ⟨[]⟩ ⟨[]⟩
  | inner {g g' : SaveGroup} (gs : List SaveGroup) : g.Grows g' → Grows ⟨g :: gs⟩ ⟨g' :: gs⟩

namespace Saves

theorem Grows.refl (s : Saves) : s.Grows s := by
  obtain ⟨groups⟩ := s
  cases groups with
  | nil => exact .none
  | cons g gs => exact .inner gs .refl

theorem Grows.trans {s₁ s₂ s₃ : Saves} (h₁ : s₁.Grows s₂) (h₂ : s₂.Grows s₃) : s₁.Grows s₃ := by
  cases h₁ with
  | none => exact h₂
  | inner gs h₁ =>
    cases h₂ with
    | inner _ h₂ => exact .inner gs (h₁.trans h₂)

theorem Grows.depth {s s' : Saves} (h : s.Grows s') : s'.depth = s.depth := by
  cases h with
  | none => rfl
  | inner gs h => rfl

/-- Above an open group, only that group can have grown. -/
theorem Grows.of_allocate {s s' : Saves} (h : s.allocate.Grows s') :
    ∃ g, s' = ⟨g :: s.groups⟩ ∧ SaveGroup.Grows [] g := by
  cases h with
  | inner gs h => exact ⟨_, rfl, h⟩

/-! ## Opening, saving and closing -/

theorem grows_localize (s : Saves) (store : Store) (key : String) :
    s.Grows (s.localize store key).1 := by
  obtain ⟨groups⟩ := s
  cases groups with
  | nil => exact .none
  | cons g gs =>
    unfold localize
    dsimp only
    split
    · exact .refl _
    · next h => exact .inner gs (.save _ (Bool.eq_false_iff.mpr h) .refl)

theorem length_closeAbove (mark : Nat) (restore : Bool) (groups : List SaveGroup) (store : Store) :
    (closeAbove mark restore groups store).1.length = min groups.length mark := by
  induction groups generalizing store with
  | nil => simp [closeAbove]
  | cons g gs ih =>
    unfold closeAbove
    split
    · next h =>
      rw [ih]
      simp only [List.length_cons] at h ⊢
      omega
    · next h =>
      simp only [List.length_cons] at h ⊢
      omega

theorem depth_release (s : Saves) (mark : Nat) (restore : Bool) (store : Store) :
    (s.release mark restore store).1.depth = min s.depth mark :=
  length_closeAbove mark restore s.groups store

/-- Nothing is closed at a mark that is not below the depth. -/
theorem closeAbove_of_length_le {mark : Nat} {groups : List SaveGroup} (h : groups.length ≤ mark)
    (restore : Bool) (store : Store) : closeAbove mark restore groups store = (groups, store) := by
  cases groups with
  | nil => rfl
  | cons g gs => rw [closeAbove, if_neg (Nat.not_lt.mpr h)]

/-- Closing one group. -/
theorem release_cons (g : SaveGroup) (gs : List SaveGroup) (restore : Bool) (store : Store) :
    (⟨g :: gs⟩ : Saves).release gs.length restore store
      = (⟨gs⟩, if restore then restoreGroup g store else store) := by
  unfold release closeAbove
  rw [if_pos (by simp), closeAbove_of_length_le (Nat.le_refl _)]

/-! ## Putting variables back -/

/-- Whether the innermost group holds a variable. -/
def holds (s : Saves) (key : String) : Bool :=
  match s.groups with
  | [] => false
  | g :: _ => g.any (·.1 == key)

/-- A variable that the innermost group does not hold is moved into it. -/
theorem localize_of_not_holds {g : SaveGroup} {gs : List SaveGroup} {key : String} (store : Store)
    (h : (⟨g :: gs⟩ : Saves).holds key = false) :
    (⟨g :: gs⟩ : Saves).localize store key
      = (⟨((key, store.var key) :: g) :: gs⟩, store.removeVar key) := by
  unfold localize
  dsimp only
  rw [if_neg (by rw [show g.any _ = false from h]; exact Bool.false_ne_true)]

theorem var_restoreGroup_of_not_mem {g : SaveGroup} {key : String}
    (h : ∀ v, (key, v) ∉ g) (store : Store) : (restoreGroup g store).var key = store.var key := by
  induction g generalizing store with
  | nil => rfl
  | cons entry g ih =>
    obtain ⟨k, w⟩ := entry
    have hk : k ≠ key := by
      rintro rfl
      exact h w List.mem_cons_self
    show (restoreGroup g (store.restore k w)).var key = store.var key
    rw [ih (fun v hv => h v (List.mem_cons_of_mem _ hv)), Store.var_restore, if_neg hk]

/-- **Putting a group back gives every variable in it what was saved.** The keys of a group that
started empty are different, so no later entry overwrites an earlier one. -/
theorem var_restoreGroup_of_mem {g : SaveGroup} (hg : SaveGroup.Grows [] g) {key : String}
    {v : Variable} (h : (key, v) ∈ g) (store : Store) : (restoreGroup g store).var key = v := by
  induction hg generalizing store with
  | refl => cases h
  | @save g' k w hk _ ih =>
    rcases List.mem_cons.mp h with he | hm
    · cases he
      have hnot : ∀ u, (key, u) ∉ g' := by
        intro u hu
        have := List.any_eq_false.mp hk (key, u) hu
        simp at this
      show (restoreGroup g' (store.restore key v)).var key = v
      rw [var_restoreGroup_of_not_mem hnot, Store.var_restore, if_pos rfl]
    · exact ih hm _

end Saves

end QuestScript
