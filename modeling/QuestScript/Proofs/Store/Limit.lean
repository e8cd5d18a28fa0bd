import Mathlib.Data.Finset.Card
import QuestScript.Proofs.Store

/-!
# The number of variables

A write looks for room before it creates a variable, so writes alone never take a store past its limit
(`Updates.limited`). A variable that is put back from a closed group is not counted anywhere while it is
away, and comes back without a look at the limit. Then there may be too many variables: those that stay,
because no closed group has a variable for their key, and those that come back
(`keys_restoreGroup`). `Bindings.Fits` says that these are no more than allowed.

The limit is kept in every state of a sequence of operations just if all of them fit
(`limit_kept_iff`).
-/

namespace QuestScript

namespace Store

variable {s s' s'' : Store}

/-! ## Keys -/

/-- The keys that the store has a variable for, be it one that holds nothing. -/
def keys (s : Store) : Finset String := s.vars.keys.toFinset

theorem mem_keys {key : String} : key ∈ s.keys ↔ key ∈ s.vars := by simp [keys]

/-- Variables are counted by their keys. -/
theorem card_keys (s : Store) : s.keys.card = s.vars.size := by
  rw [keys, List.toFinset_card_of_nodup Std.TreeMap.nodup_keys, Std.TreeMap.length_keys]

/-- Variables that hold nothing take room as well, so those that can be listed are fewer. -/
theorem count_le_size (s : Store) : s.count ≤ s.vars.size := by
  rw [count, names, List.length_map, ← Std.TreeMap.length_toList]
  exact List.length_filter_le _ _

/-! ## Writes -/

/-- A store after a number of updates, each of which looks for room. -/
inductive Updates (s : Store) : Store → Prop
  | refl : Updates s s
  | update {s' : Store} (key : String) (f : Variable → Variable) :
      Updates s s' → Updates s (s'.update key f).2

theorem updates_update (s : Store) (key : String) (f : Variable → Variable) :
    s.Updates (s.update key f).2 := .update key f .refl

/-- Updates after updates are updates. -/
theorem Updates.trans (h₁ : s.Updates s') (h₂ : s'.Updates s'') : s.Updates s'' := by
  induction h₂ with
  | refl => exact h₁
  | update key f _ ih => exact .update key f ih

theorem updates_putRaw (s : Store) (key : String) (position : Nat) (v : Value) :
    s.Updates (s.putRaw key position v).2 := by
  unfold putRaw
  split
  · exact .refl
  · exact s.updates_update key _

/-- A key that is new is entered by an update of the variable. -/
theorem updates_positionForWrite (s : Store) (key : String) (index : Value) :
    s.Updates (s.positionForWrite key index).2 := by
  rcases s.positionForWrite_cases key index with ⟨r, heq⟩ | ⟨-, -, heq⟩
  · rw [heq]
    exact .refl
  · rw [heq]
    exact s.updates_update key _

/-- A value is stored by one update. -/
theorem updates_storeAt (s : Store) (name : VarName) (position : Option Nat) (v : Value) :
    s.Updates (s.storeAt name position v).2 := by
  cases position with
  | none => exact .refl
  | some p => exact s.updates_putRaw name.key p v

/-- An assignment stores one value, after it has read the item that is there. -/
theorem updates_assign (s : Store) (name : VarName) (position : Option Nat) (op : AssignOp) (v : Value) :
    s.Updates (s.assign name position op v).2 := by
  unfold assign
  split
  · exact .refl
  · exact s.updates_storeAt name position _

theorem updates_assignIndex (s : Store) (name : VarName) (index : Value) (op : AssignOp) (v : Value) :
    s.Updates (s.assignIndex name index op v).2 := by
  have hposition := s.updates_positionForWrite name.key index
  unfold assignIndex
  split
  · exact .refl
  · split
    · next heq => rw [heq] at hposition; exact hposition
    · next heq => rw [heq] at hposition; exact hposition.trans (updates_storeAt _ _ _ _)

/-- A copy is one update of the variable it goes to. -/
theorem updates_copyArray (s : Store) (dest src : String) (start : Number) (count : Option Number) :
    s.Updates (s.copyArray dest src start count).2 := by
  unfold copyArray
  split
  · exact .refl
  · exact s.updates_update dest _

/-! ## Stores within the limit -/

/-- A change of the store that keeps its limits, and keeps it within the limit if it was. -/
def Limited (s s' : Store) : Prop :=
  s'.limits = s.limits ∧ (s.vars.size ≤ s.maxVariables → s'.vars.size ≤ s.maxVariables)

theorem Limited.refl (s : Store) : s.Limited s := ⟨rfl, id⟩

/-- The limit itself never changes. -/
theorem Limited.maxVariables (h : s.Limited s') : s'.maxVariables = s.maxVariables :=
  congrArg Prod.fst h.1

theorem Limited.trans (h₁ : s.Limited s') (h₂ : s'.Limited s'') : s.Limited s'' := by
  refine ⟨h₂.1.trans h₁.1, fun h => ?_⟩
  have := h₂.2
  rw [h₁.maxVariables] at this
  exact this (h₁.2 h)

/-- What does not add a variable keeps the limit. -/
theorem limited_of_size_le (hl : s'.limits = s.limits) (h : s'.vars.size ≤ s.vars.size) : s.Limited s' :=
  ⟨hl, fun hs => Nat.le_trans h hs⟩

/-- Room for a variable is made only where there is some, and so the limit holds after it. -/
theorem limited_makeRoom (s : Store) (key : String) : s.Limited (s.makeRoom key).2 := by
  by_cases hc : s.vars.contains key = true
  · simp only [makeRoom, if_pos hc]
    exact .refl s
  · -- room is looked for in the store itself or in the pruned one, which is no larger
    have hsmaller : s.Limited (if s.vars.size < s.maxVariables then s else s.prune) := by
      split
      · exact .refl s
      · exact limited_of_size_le rfl Std.TreeMap.size_filter_le_size
    simp only [makeRoom, if_neg hc]
    generalize (if s.vars.size < s.maxVariables then s else s.prune) = s₁ at hsmaller
    split
    · next hroom =>
      refine hsmaller.trans ⟨rfl, fun _ => ?_⟩
      exact Nat.le_trans Std.TreeMap.size_insert_le hroom
    · exact hsmaller

/-- An update finds room or creates nothing. -/
theorem limited_update (s : Store) (key : String) (f : Variable → Variable) :
    s.Limited (s.update key f).2 := by
  have hroom := s.limited_makeRoom key
  unfold update
  split
  · next s₁ heq =>
    rw [heq] at hroom
    exact hroom.trans (limited_of_size_le rfl (Nat.le_of_eq Std.TreeMap.size_modify))
  · next s₁ heq =>
    rw [heq] at hroom
    exact hroom

/-- Writes keep a store within its limit. -/
theorem Updates.limited (h : s.Updates s') : s.Limited s' := by
  induction h with
  | refl => exact .refl s
  | update key f _ ih => exact ih.trans (limited_update _ key f)

theorem limited_removeVar (s : Store) (key : String) : s.Limited (s.removeVar key) :=
  limited_of_size_le rfl Std.TreeMap.size_erase_le

theorem limited_removeItem (s : Store) (key : String) (position : Nat) :
    s.Limited (s.removeItem key position) :=
  limited_of_size_le rfl (Nat.le_of_eq Std.TreeMap.size_modify)

/-! ## Variables that come back -/

/-- A variable that comes back gets its key again, unless it holds nothing. -/
theorem keys_restore (s : Store) (key : String) (v : Variable) :
    (s.restore key v).keys = if v.isEmpty then s.keys.erase key else insert key s.keys := by
  unfold restore
  split
  · ext k
    simp [mem_keys, removeVar, Std.TreeMap.mem_erase, eq_comm (a := k)]
  · ext k
    simp [mem_keys, Std.TreeMap.mem_insert, eq_comm (a := k)]

end Store

namespace SaveGroup

/-- The keys that a group has a variable for. -/
def keys (g : SaveGroup) : Finset String := (g.map Prod.fst).toFinset

/-- The keys of the variables that come back with a group. Of several with one key the last one counts,
and one that holds nothing does not come back. -/
def returning : SaveGroup → Finset String
  | [] => ∅
  | (key, v) :: g => if v.isEmpty ∨ key ∈ keys g then returning g else insert key (returning g)

theorem keys_cons (key : String) (v : Variable) (g : SaveGroup) :
    keys ((key, v) :: g) = insert key (keys g) := by simp [keys]

theorem returning_cons (key : String) (v : Variable) (g : SaveGroup) :
    returning ((key, v) :: g)
      = if v.isEmpty ∨ key ∈ keys g then returning g else insert key (returning g) := rfl

/-- Only variables that were saved come back. -/
theorem returning_subset_keys (g : SaveGroup) : returning g ⊆ keys g := by
  induction g with
  | nil => simp [returning]
  | cons entry g ih =>
    obtain ⟨key, v⟩ := entry
    rw [keys_cons, returning_cons]
    split
    · exact ih.trans (Finset.subset_insert _ _)
    · exact Finset.insert_subset_insert _ ih

end SaveGroup

namespace Saves

/-- **Those variables are there after a group is put back** that stay, as the group has none for their
key, and those that come back. -/
theorem keys_restoreGroup (g : SaveGroup) (s : Store) :
    (restoreGroup g s).keys = s.keys \ SaveGroup.keys g ∪ SaveGroup.returning g := by
  induction g generalizing s with
  | nil => simp [restoreGroup, SaveGroup.keys, SaveGroup.returning]
  | cons entry g ih =>
    obtain ⟨key, v⟩ := entry
    show (restoreGroup g (s.restore key v)).keys = _
    rw [ih, Store.keys_restore, SaveGroup.keys_cons, SaveGroup.returning_cons]
    ext k
    by_cases hempty : v.isEmpty = true
    · by_cases hk : k = key <;> simp [hempty, hk]
    · by_cases hlater : key ∈ SaveGroup.keys g
      · by_cases hk : k = key <;> simp [hempty, hlater, hk]
      · by_cases hk : k = key <;> simp [hempty, hlater, hk]

/-- The two parts that `Bindings.Fits` counts: keys that no closed group has, and variables that come
back. -/
theorem size_restoreGroup (g : SaveGroup) (s : Store) :
    (restoreGroup g s).vars.size
      = (s.keys \ SaveGroup.keys g).card + (SaveGroup.returning g).card := by
  rw [← Store.card_keys, keys_restoreGroup]
  refine Finset.card_union_of_disjoint ?_
  exact Finset.disjoint_of_subset_right (SaveGroup.returning_subset_keys g) Finset.sdiff_disjoint

/-- The variables saved in the groups above a mark, in the order in which they are put back. -/
def above (s : Saves) (mark : Nat) : SaveGroup := (s.groups.take (s.depth - mark)).flatten

/-- Closing groups puts back their variables in one row, the innermost group first. -/
theorem closeAbove_restore (mark : Nat) (groups : List SaveGroup) (s : Store) :
    (closeAbove mark true groups s).2
      = restoreGroup (groups.take (groups.length - mark)).flatten s := by
  induction groups generalizing s with
  | nil => simp [closeAbove, restoreGroup]
  | cons g gs ih =>
    unfold closeAbove
    split
    · next h =>
      have hlength : (g :: gs).length - mark = gs.length - mark + 1 := by
        simp only [List.length_cons] at h ⊢
        omega
      rw [ih, hlength, List.take_succ_cons, List.flatten_cons]
      simp [restoreGroup, List.foldl_append]
    · next h =>
      have hlength : (g :: gs).length - mark = 0 := by omega
      rw [hlength]
      rfl

/-- Groups that are dropped give nothing back. -/
theorem closeAbove_drop (mark : Nat) (groups : List SaveGroup) (s : Store) :
    (closeAbove mark false groups s).2 = s := by
  induction groups with
  | nil => rfl
  | cons g gs ih =>
    unfold closeAbove
    split
    · exact ih
    · rfl

/-- A variable that is saved leaves the store, which makes it no larger. -/
theorem limited_localize (saves : Saves) (s : Store) (key : String) :
    s.Limited (saves.localize s key).2 := by
  unfold localize
  split
  · exact .refl s
  · split
    · exact .refl s
    · exact s.limited_removeVar key

end Saves

/-! ## Sequences of operations -/

namespace Bindings

/-- Closing the groups above a mark leaves no more variables than allowed: those that stay and those
that come back. -/
def Roomy (b : Bindings) (mark : Nat) : Prop :=
  (b.store.keys \ SaveGroup.keys (b.saves.above mark)).card
    + (SaveGroup.returning (b.saves.above mark)).card ≤ b.store.maxVariables

/-- An operation puts back no more variables than there is room for. -/
def Fits (b : Bindings) : Operation → Prop
  | .release mark true => b.Roomy mark
  | .restoreAll => b.Roomy 0
  | _ => True

/-- All operations of a sequence fit when their turn comes. -/
def AllFit (b : Bindings) : List Operation → Prop
  | [] => True
  | op :: ops => b.Fits op ∧ (b.apply op).AllFit ops

variable {b : Bindings}

/-- Exactly the groups with room for what they give back leave the store within its limit. -/
theorem size_release_restore (b : Bindings) (mark : Nat) :
    (b.saves.release mark true b.store).2.vars.size ≤ b.store.maxVariables ↔ b.Roomy mark := by
  show (Saves.closeAbove mark true b.saves.groups b.store).2.vars.size ≤ _ ↔ _
  rw [Saves.closeAbove_restore, Saves.size_restoreGroup]
  rfl

theorem maxVariables_release (b : Bindings) (mark : Nat) (restore : Bool) :
    (b.saves.release mark restore b.store).2.maxVariables = b.store.maxVariables :=
  congrArg Prod.fst (Saves.limits_closeAbove mark restore b.saves.groups b.store)

/-- An operation keeps a store within its limit just if it fits. -/
theorem size_apply_iff (h : b.store.vars.size ≤ b.store.maxVariables) (op : Operation) :
    (b.apply op).store.maxVariables = b.store.maxVariables ∧
      ((b.apply op).store.vars.size ≤ b.store.maxVariables ↔ b.Fits op) := by
  -- all operations but those that put variables back fit and keep the limit
  have hlimited {s : Store} (hs : b.store.Limited s) :
      s.maxVariables = b.store.maxVariables ∧ (s.vars.size ≤ b.store.maxVariables ↔ True) :=
    ⟨hs.maxVariables, iff_true_intro (hs.2 h)⟩
  cases op with
  | set name index v => exact hlimited (b.store.updates_assignIndex _ _ _ _).limited
  | assign name position op v => exact hlimited (b.store.updates_assign _ _ _ _).limited
  | assignIndex name index op v => exact hlimited (b.store.updates_assignIndex _ _ _ _).limited
  | putRaw key position v => exact hlimited (b.store.updates_putRaw _ _ _).limited
  | positionForWrite key index => exact hlimited (b.store.updates_positionForWrite _ _).limited
  | touch key => exact hlimited (b.store.limited_update key id)
  | removeVar key => exact hlimited (b.store.limited_removeVar key)
  | removeItem key position => exact hlimited (b.store.limited_removeItem key position)
  | copyArray dest src start count => exact hlimited (b.store.updates_copyArray _ _ _ _).limited
  | clear => exact hlimited (Store.limited_of_size_le rfl (Nat.zero_le _))
  | allocate => exact hlimited (.refl b.store)
  | localize key => exact hlimited (b.saves.limited_localize b.store key)
  | release mark restore =>
    cases restore with
    | true => exact ⟨b.maxVariables_release mark true, b.size_release_restore mark⟩
    | false =>
      refine hlimited ?_
      show b.store.Limited (Saves.closeAbove mark false b.saves.groups b.store).2
      rw [Saves.closeAbove_drop]
      exact .refl b.store
  | restoreAll => exact ⟨b.maxVariables_release 0 true, b.size_release_restore 0⟩

/-- The limit is kept after every part of a sequence just if all operations fit. -/
theorem allFit_iff {ops : List Operation} (h : b.store.vars.size ≤ b.store.maxVariables) :
    b.AllFit ops ↔ ∀ done, done <+: ops → (b.run done).store.vars.size ≤ b.store.maxVariables := by
  induction ops generalizing b with
  | nil =>
    refine ⟨fun _ done hdone => ?_, fun _ => trivial⟩
    rw [List.prefix_nil.mp hdone]
    exact h
  | cons op ops ih =>
    obtain ⟨hmax, hiff⟩ := size_apply_iff h op
    constructor
    · rintro ⟨hfits, hrest⟩ done hdone
      have happlied := hiff.mpr hfits
      cases done with
      | nil => exact h
      | cons op' done =>
        obtain ⟨rfl, hlater⟩ := List.cons_prefix_cons.mp hdone
        have hkept := (ih (by rw [hmax]; exact happlied)).mp hrest done hlater
        rw [hmax] at hkept
        exact hkept
    · intro hall
      have happlied : (b.apply op).store.vars.size ≤ b.store.maxVariables :=
        hall [op] ⟨ops, rfl⟩
      refine ⟨hiff.mp happlied, (ih (by rw [hmax]; exact happlied)).mpr fun done hdone => ?_⟩
      rw [hmax]
      exact hall (op :: done) (List.cons_prefix_cons.mpr ⟨rfl, hdone⟩)

/-- **The limit of variables is kept just as long as what is put back fits.** Along every sequence of
operations on an empty store, there are at no time more variables than allowed, counting those that hold
nothing, if and only if no closing of groups puts back more variables than there is room for. -/
theorem limit_kept_iff (maxVariables maxItems : Nat) (ops : List Operation) :
    (new maxVariables maxItems).AllFit ops ↔
      ∀ done, done <+: ops →
        let s := ((new maxVariables maxItems).run done).store
        s.count ≤ s.vars.size ∧ s.vars.size ≤ maxVariables := by
  have hempty : (new maxVariables maxItems).store.vars.size ≤ maxVariables := Nat.zero_le _
  rw [allFit_iff hempty]
  constructor
  · exact fun hall done hdone => ⟨Store.count_le_size _, hall done hdone⟩
  · exact fun hall done hdone => (hall done hdone).2

/-- A variable is created while another one is saved; when that one comes back, there are two where one
is allowed. -/
theorem limit_not_kept :
    let b := (new 1 1024).run
      [.set ⟨"X", .number⟩ (.number 0) (.number 1), .allocate, .localize "X",
        .set ⟨"Y", .number⟩ (.number 0) (.number 2), .release 0 true]
    b.store.maxVariables = 1 ∧ b.store.count = 2 := by
  decide +kernel

end Bindings

end QuestScript
