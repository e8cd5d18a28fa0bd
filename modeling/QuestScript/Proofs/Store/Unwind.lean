import QuestScript.Proofs.Store.Limit

/-!
# Unwinding to the outermost binding

One name may be saved by several open groups, each time with other contents, and may be absent, empty or
rewritten in between. When the groups above a mark are closed, what counts in the end is what the lowest of
them saved, and that is what the variable was when that group was first asked for it.

Groups are numbered from the outermost one, which is number zero. What a group holds is said without the
groups themselves, by looking back at the operations that were made:

* `Bindings.Asked`: at some point the group was the innermost one and was asked to save the key, and it has
  not been closed since;
* `Bindings.Holds`: the group was asked for the key, or it had the key at the start;
* `Bindings.Saved`: what it saved is the variable as it was when the group did not yet hold the key.

One operation adds at most one variable to one group and closes some others (`saved?_apply`). By induction on
the operations the groups hold what the look back says (`saved?_run`), and the main statement follows from
what closing them does to a variable (`unwound_release`).
-/

namespace QuestScript

namespace SaveGroup

/-- What the group saved first under a key. -/
def saved? (g : SaveGroup) (key : String) : Option Variable := g.reverse.lookup key

/-- Of several variables with one key the one that was saved first counts. -/
theorem saved?_cons (g : SaveGroup) (k key : String) (v : Variable) :
    saved? ((k, v) :: g) key = (saved? g key).or (if key = k then some v else none) := by
  unfold saved?
  rw [List.reverse_cons, List.lookup_append, List.lookup_cons, List.lookup_nil]
  by_cases h : key = k
  · rw [if_pos h, beq_iff_eq.mpr h]
  · rw [if_neg h, beq_false_of_ne h]

theorem isSome_saved? (g : SaveGroup) (key : String) :
    (saved? g key).isSome = g.any (·.1 == key) := by
  induction g with
  | nil => rfl
  | cons entry g ih =>
    obtain ⟨k, v⟩ := entry
    rw [saved?_cons, Option.isSome_or, ih, List.any_cons, Bool.or_comm]
    by_cases h : key = k
    · simp [h]
    · simp [h, Ne.symm h]

end SaveGroup

namespace Saves

variable {s : Saves} {groups : List SaveGroup} {d mark : Nat} {key : String}

/-- What a group has saved comes back, and everything else stays. -/
theorem var_restoreGroup (g : SaveGroup) (store : Store) (key : String) :
    (restoreGroup g store).var key = (SaveGroup.saved? g key).getD (store.var key) := by
  induction g generalizing store with
  | nil => rfl
  | cons entry g ih =>
    obtain ⟨k, v⟩ := entry
    show (restoreGroup g (store.restore k v)).var key = _
    rw [ih, Store.var_restore, SaveGroup.saved?_cons]
    cases SaveGroup.saved? g key with
    | some w => rfl
    | none =>
      by_cases h : key = k
      · simp [h]
      · simp [h, Ne.symm h]

/-! ## Groups by number -/

/-- What the group with a number saved first under a key, the outermost group being number zero. -/
def savedBy? : List SaveGroup → Nat → String → Option Variable
  | [], _, _ => none
  | g :: gs, d, key => if d = gs.length then SaveGroup.saved? g key else savedBy? gs d key

/-- What the group with a number has saved under a key. -/
def saved? (s : Saves) (d : Nat) (key : String) : Option Variable := savedBy? s.groups d key

theorem savedBy?_of_length_le (h : groups.length ≤ d) (key : String) :
    savedBy? groups d key = none := by
  induction groups with
  | nil => rfl
  | cons g gs ih =>
    rw [List.length_cons] at h
    unfold savedBy?
    rw [if_neg (by omega), ih (by omega)]

/-- Only groups that are open have saved something. -/
theorem lt_depth_of_saved? {v : Variable} (h : s.saved? d key = some v) : d < s.depth := by
  refine Nat.not_le.mp fun hle => ?_
  rw [saved?, savedBy?_of_length_le hle] at h
  cases h

/-- Closing groups leaves those below the mark as they are. -/
theorem savedBy?_closeAbove (mark : Nat) (restore : Bool) (groups : List SaveGroup) (store : Store)
    (d : Nat) (key : String) :
    savedBy? (closeAbove mark restore groups store).1 d key
      = if d < mark then savedBy? groups d key else none := by
  induction groups generalizing store with
  | nil => simp [closeAbove, savedBy?]
  | cons g gs ih =>
    unfold closeAbove
    split
    · next h =>
      rw [List.length_cons] at h
      rw [ih]
      split
      · next hd => rw [savedBy?, if_neg (by omega)]
      · rfl
    · next h =>
      split
      · rfl
      · next hd => exact savedBy?_of_length_le (Nat.le_trans (Nat.not_lt.mp h) (Nat.not_lt.mp hd)) key

/-- The groups above a mark go, whether they are put back or not. -/
theorem groups_closeAbove (mark : Nat) (restore : Bool) (groups : List SaveGroup) (store : Store) :
    (closeAbove mark restore groups store).1 = groups.drop (groups.length - mark) := by
  induction groups generalizing store with
  | nil => rw [List.drop_nil, closeAbove]
  | cons g gs ih =>
    unfold closeAbove
    split
    · next h =>
      rw [List.length_cons] at h
      rw [ih, List.length_cons, Nat.succ_sub (by omega), List.drop_succ_cons]
    · next h =>
      rw [Nat.sub_eq_zero_of_le (Nat.not_lt.mp h), List.drop_zero]

theorem saved?_release (s : Saves) (mark : Nat) (restore : Bool) (store : Store) (d : Nat) (key : String) :
    (s.release mark restore store).1.saved? d key = if d < mark then s.saved? d key else none :=
  savedBy?_closeAbove mark restore s.groups store d key

theorem saved?_allocate (s : Saves) (d : Nat) (key : String) :
    s.allocate.saved? d key = s.saved? d key := by
  show savedBy? ([] :: s.groups) d key = _
  unfold savedBy?
  split
  · next h => exact (savedBy?_of_length_le (Nat.le_of_eq h.symm) key).symm
  · rfl

/-- A request adds a variable to the innermost group, behind what the group saved for the key before. -/
theorem saved?_localize (s : Saves) (store : Store) (k : String) (d : Nat) (key : String) :
    (s.localize store k).1.saved? d key
      = (s.saved? d key).or (if key = k ∧ s.depth = d + 1 then some (store.var k) else none) := by
  obtain ⟨groups⟩ := s
  cases groups with
  | nil => simp [localize, saved?, savedBy?, depth]
  | cons g gs =>
    have hdepth : (⟨g :: gs⟩ : Saves).depth = d + 1 ↔ d = gs.length := by
      simp [depth, eq_comm]
    unfold localize
    dsimp only
    split
    · next hheld =>
      by_cases h : key = k ∧ d = gs.length
      · -- the group has the key, so what it saved first stays
        obtain ⟨rfl, rfl⟩ := h
        rw [← SaveGroup.isSome_saved?] at hheld
        simp [saved?, savedBy?, Option.or_of_isSome hheld]
      · rw [if_neg (by rwa [hdepth]), Option.or_none]
    · by_cases h : d = gs.length
      · simp [saved?, savedBy?, SaveGroup.saved?_cons, h, depth]
      · simp [saved?, savedBy?, h, hdepth]

theorem depth_localize (s : Saves) (store : Store) (k : String) :
    (s.localize store k).1.depth = s.depth := (s.grows_localize store k).depth

/-! ## What closing groups does to a variable -/

/-- A variable that no closed group has saved stays. -/
theorem var_closeAbove_of_none (store : Store)
    (h : ∀ d, mark ≤ d → savedBy? groups d key = none) :
    (closeAbove mark true groups store).2.var key = store.var key := by
  induction groups generalizing store with
  | nil => rfl
  | cons g gs ih =>
    unfold closeAbove
    split
    · next hopen =>
      rw [List.length_cons] at hopen
      have hfirst : SaveGroup.saved? g key = none := by
        have := h gs.length (by omega)
        rwa [savedBy?, if_pos rfl] at this
      rw [if_pos rfl, ih, var_restoreGroup, hfirst, Option.getD_none]
      intro d hd
      have := h d hd
      unfold savedBy? at this
      split at this
      · next heq => exact savedBy?_of_length_le (Nat.le_of_eq heq.symm) key
      · exact this
    · rfl

/-- A variable is what the lowest of the closed groups that have it saved. -/
theorem var_closeAbove_of_lowest (store : Store) {v : Variable} (hmark : mark ≤ d)
    (hsaved : savedBy? groups d key = some v)
    (hlowest : ∀ d', mark ≤ d' → d' < d → savedBy? groups d' key = none) :
    (closeAbove mark true groups store).2.var key = v := by
  induction groups generalizing store with
  | nil => cases hsaved
  | cons g gs ih =>
    have hd : d < (g :: gs).length := lt_depth_of_saved? (s := ⟨g :: gs⟩) hsaved
    rw [List.length_cons] at hd
    have hbelow : ∀ d', mark ≤ d' → d' < d → savedBy? gs d' key = none := by
      intro d' hmark' hlt
      have := hlowest d' hmark' hlt
      rwa [savedBy?, if_neg (by omega)] at this
    unfold closeAbove
    rw [if_pos (by rw [List.length_cons]; omega), if_pos rfl]
    rw [savedBy?] at hsaved
    split at hsaved
    · next heq =>
      -- the innermost group has it, and none of the others above the mark
      rw [var_closeAbove_of_none, var_restoreGroup, hsaved, Option.getD_some]
      intro d' hmark'
      rcases Nat.lt_or_ge d' d with hlt | hge
      · exact hbelow d' hmark' hlt
      · exact savedBy?_of_length_le (by omega) key
    · exact ih _ hsaved hbelow

end Saves

namespace Bindings

variable {b : Bindings} {d : Nat} {key : String} {ops : List Operation} {op : Operation}

/-! ## What one operation does to the groups -/

/-- A group holds what it held, unless it has been closed, and the innermost one may have been asked for a
variable. -/
theorem saved?_apply (b : Bindings) (op : Operation) (d : Nat) (key : String) (v : Variable) :
    (b.apply op).saves.saved? d key = some v ↔
      (b.saves.saved? d key = some v ∨
        b.saves.saved? d key = none ∧ op = .localize key ∧ b.saves.depth = d + 1 ∧
          b.store.var key = v) ∧
      d < (b.apply op).saves.depth := by
  have hopen : b.saves.saved? d key = some v → d < b.saves.depth := Saves.lt_depth_of_saved?
  have hrelease (mark : Nat) : (if d < mark then b.saves.saved? d key else none) = some v ↔
      b.saves.saved? d key = some v ∧ d < b.saves.depth ∧ d < mark := by
    split
    · next hd => exact ⟨fun h => ⟨h, hopen h, hd⟩, And.left⟩
    · next hd => exact ⟨nofun, fun h => absurd h.2.2 hd⟩
  cases op with
  -- writes and removals do not touch the groups
  | set | assign | assignIndex | putRaw | positionForWrite | touch | removeVar | removeItem | copyArray
  | clear => simpa [apply] using hopen
  | allocate =>
    have hdepth : b.saves.allocate.depth = b.saves.depth + 1 := rfl
    simp only [apply, Saves.saved?_allocate, hdepth, reduceCtorEq, false_and, and_false, or_false]
    exact ⟨fun h => ⟨h, Nat.lt_succ_of_lt (hopen h)⟩, And.left⟩
  | localize k =>
    simp only [apply, Saves.saved?_localize, Saves.depth_localize, Operation.localize.injEq]
    cases hsaved : b.saves.saved? d key with
    | some w =>
      rw [hsaved] at hopen
      simpa using hopen
    | none =>
      rw [Option.none_or]
      constructor
      · intro h
        split at h
        · next hasked =>
          obtain ⟨rfl, hd⟩ := hasked
          exact ⟨.inr ⟨rfl, rfl, hd, Option.some.inj h⟩, by omega⟩
        · cases h
      · rintro ⟨h | ⟨-, rfl, hd, rfl⟩, -⟩
        · cases h
        · rw [if_pos ⟨rfl, hd⟩]
  | release mark restore =>
    simp only [apply, Saves.saved?_release, Saves.depth_release, reduceCtorEq, false_and, and_false,
      or_false, lt_min_iff]
    exact hrelease mark
  | restoreAll =>
    simp only [apply, Saves.restoreAll, Saves.saved?_release, Saves.depth_release, reduceCtorEq, false_and,
      and_false, or_false, lt_min_iff]
    exact hrelease 0

/-- An operation adds to what a group holds only by localizing in it, and takes all by closing it. -/
theorem isSome_saved?_apply (b : Bindings) (op : Operation) (d : Nat) (key : String) :
    ((b.apply op).saves.saved? d key).isSome = true ↔
      ((b.saves.saved? d key).isSome = true ∨ op = .localize key ∧ b.saves.depth = d + 1) ∧
      d < (b.apply op).saves.depth := by
  simp only [Option.isSome_iff_exists, saved?_apply]
  constructor
  · rintro ⟨v, hv | ⟨-, hop, hdepth, -⟩, hlast⟩
    · exact ⟨.inl ⟨v, hv⟩, hlast⟩
    · exact ⟨.inr ⟨hop, hdepth⟩, hlast⟩
  · rintro ⟨⟨v, hv⟩ | ⟨hop, hdepth⟩, hlast⟩
    · exact ⟨v, .inl hv, hlast⟩
    · cases hsaved : b.saves.saved? d key with
      | some v => exact ⟨v, .inl rfl, hlast⟩
      | none => exact ⟨_, .inr ⟨rfl, hop, hdepth, rfl⟩, hlast⟩

/-! ## Looking back -/

theorem run_concat (b : Bindings) (ops : List Operation) (op : Operation) :
    b.run (ops ++ [op]) = (b.run ops).apply op := by
  rw [run, List.foldl_append]
  rfl

theorem run_append (b : Bindings) (ops ops' : List Operation) :
    b.run (ops ++ ops') = (b.run ops).run ops' := List.foldl_append

/-- The group with a number is open before the operations, between them and after them. -/
def StaysOpen (b : Bindings) (d : Nat) (ops : List Operation) : Prop :=
  ∀ done, done <+: ops → d < (b.run done).saves.depth

/-- After the operations `before` a group was the innermost one and was asked to save a key, and it stays
open from then on. -/
def Asked (b : Bindings) (d : Nat) (key : String) (ops before : List Operation) : Prop :=
  ∃ after, ops = before ++ .localize key :: after ∧ (b.run before).saves.depth = d + 1 ∧
    (b.run before).StaysOpen d (.localize key :: after)

/-- A group holds a key: it had it at the start and stays open, or it has been asked for it. -/
def Holds (b : Bindings) (d : Nat) (key : String) (ops : List Operation) : Prop :=
  ((b.saves.saved? d key).isSome = true ∧ b.StaysOpen d ops) ∨ ∃ before, b.Asked d key ops before

/-- What a group saved for a key: what it had at the start, or what the variable was when the group was
asked for it and did not hold it. -/
def Saved (b : Bindings) (d : Nat) (key : String) (ops : List Operation) (v : Variable) : Prop :=
  (b.saves.saved? d key = some v ∧ b.StaysOpen d ops) ∨
    ∃ before, b.Asked d key ops before ∧ ¬b.Holds d key before ∧ (b.run before).store.var key = v

theorem staysOpen_nil : b.StaysOpen d [] ↔ d < b.saves.depth := by
  constructor
  · exact fun h => h [] List.prefix_rfl
  · intro h done hdone
    rw [List.prefix_nil.mp hdone]
    exact h

/-- A group stays open if it does so until the last operation and after it. -/
theorem staysOpen_concat :
    b.StaysOpen d (ops ++ [op]) ↔ b.StaysOpen d ops ∧ d < ((b.run ops).apply op).saves.depth := by
  simp only [StaysOpen, List.prefix_concat_iff, or_imp, forall_and, forall_eq, run_concat]
  exact and_comm

/-- A group that is open after a further operation has been asked for a key just if it had been or is
now. -/
theorem asked_concat {before : List Operation} :
    b.Asked d key (ops ++ [op]) before ↔
      (b.Asked d key ops before ∨
        before = ops ∧ op = .localize key ∧ (b.run ops).saves.depth = d + 1) ∧
      d < ((b.run ops).apply op).saves.depth := by
  constructor
  · rintro ⟨after, heq, hdepth, hopen⟩
    rcases List.eq_nil_or_concat after with rfl | ⟨after, last, rfl⟩
    · obtain ⟨rfl, hop⟩ := List.append_inj' heq rfl
      cases hop
      exact ⟨.inr ⟨rfl, rfl, hdepth⟩, hopen [.localize key] List.prefix_rfl⟩
    · rw [List.concat_eq_append] at heq hopen
      rw [← List.cons_append, ← List.append_assoc] at heq
      obtain ⟨rfl, hop⟩ := List.append_inj' heq rfl
      cases hop
      rw [← List.cons_append, staysOpen_concat] at hopen
      rw [run_append]
      exact ⟨.inl ⟨after, rfl, hdepth, hopen.1⟩, hopen.2⟩
  · rintro ⟨⟨after, rfl, hdepth, hopen⟩ | ⟨rfl, rfl, hdepth⟩, hlast⟩
    · rw [run_append] at hlast
      refine ⟨after ++ [op], by simp, hdepth, ?_⟩
      rw [← List.cons_append]
      exact staysOpen_concat.mpr ⟨hopen, hlast⟩
    · refine ⟨[], rfl, hdepth, ?_⟩
      exact staysOpen_concat.mpr ⟨staysOpen_nil.mpr (hdepth ▸ Nat.lt_succ_self d), hlast⟩

/-- The last operation may localize the key, or close the group. -/
theorem holds_concat :
    b.Holds d key (ops ++ [op]) ↔
      (b.Holds d key ops ∨ op = .localize key ∧ (b.run ops).saves.depth = d + 1) ∧
      d < ((b.run ops).apply op).saves.depth := by
  constructor
  · rintro (⟨hstart, hopen⟩ | ⟨before, hasked⟩)
    · obtain ⟨hopen, hlast⟩ := staysOpen_concat.mp hopen
      exact ⟨.inl (.inl ⟨hstart, hopen⟩), hlast⟩
    · obtain ⟨hasked | ⟨-, hnow⟩, hlast⟩ := asked_concat.mp hasked
      · exact ⟨.inl (.inr ⟨before, hasked⟩), hlast⟩
      · exact ⟨.inr hnow, hlast⟩
  · rintro ⟨(⟨hstart, hopen⟩ | ⟨before, hasked⟩) | hnow, hlast⟩
    · exact .inl ⟨hstart, staysOpen_concat.mpr ⟨hopen, hlast⟩⟩
    · exact .inr ⟨before, asked_concat.mpr ⟨.inl hasked, hlast⟩⟩
    · exact .inr ⟨ops, asked_concat.mpr ⟨.inr ⟨rfl, hnow⟩, hlast⟩⟩

/-- What is saved first is what counts. -/
theorem saved_concat {v : Variable} :
    b.Saved d key (ops ++ [op]) v ↔
      (b.Saved d key ops v ∨
        ¬b.Holds d key ops ∧ op = .localize key ∧ (b.run ops).saves.depth = d + 1 ∧
          (b.run ops).store.var key = v) ∧
      d < ((b.run ops).apply op).saves.depth := by
  constructor
  · rintro (⟨hstart, hopen⟩ | ⟨before, hasked, hfirst, hvar⟩)
    · obtain ⟨hopen, hlast⟩ := staysOpen_concat.mp hopen
      exact ⟨.inl (.inl ⟨hstart, hopen⟩), hlast⟩
    · obtain ⟨hasked | ⟨rfl, hop, hdepth⟩, hlast⟩ := asked_concat.mp hasked
      · exact ⟨.inl (.inr ⟨before, hasked, hfirst, hvar⟩), hlast⟩
      · exact ⟨.inr ⟨hfirst, hop, hdepth, hvar⟩, hlast⟩
  · rintro ⟨(⟨hstart, hopen⟩ | ⟨before, hasked, hfirst⟩) | ⟨hfirst, hop, hdepth, hvar⟩, hlast⟩
    · exact .inl ⟨hstart, staysOpen_concat.mpr ⟨hopen, hlast⟩⟩
    · exact .inr ⟨before, asked_concat.mpr ⟨.inl hasked, hlast⟩, hfirst⟩
    · exact .inr ⟨ops, asked_concat.mpr ⟨.inr ⟨rfl, hop, hdepth⟩, hlast⟩, hfirst, hvar⟩

/-- **The groups hold what the look back says**, by induction on the operations, the last one first. -/
theorem saved?_run (b : Bindings) (ops : List Operation) (d : Nat) (key : String) :
    (((b.run ops).saves.saved? d key).isSome = true ↔ b.Holds d key ops) ∧
      ∀ v, (b.run ops).saves.saved? d key = some v ↔ b.Saved d key ops v := by
  induction ops using List.reverseRecOn with
  | nil =>
    have hnone : ∀ before, ¬b.Asked d key [] before := fun before ⟨after, heq, _⟩ => by simp at heq
    have hopen : ∀ v, b.saves.saved? d key = some v → d < b.saves.depth :=
      fun _ => Saves.lt_depth_of_saved?
    have hstart : (b.saves.saved? d key).isSome = true → d < b.saves.depth := fun h =>
      let ⟨v, hv⟩ := Option.isSome_iff_exists.mp h
      hopen v hv
    simp only [run, List.foldl_nil, Holds, Saved, staysOpen_nil, hnone, exists_false, or_false, false_and]
    exact ⟨⟨fun h => ⟨h, hstart h⟩, And.left⟩, fun v => ⟨fun h => ⟨h, hopen v h⟩, And.left⟩⟩
  | append_singleton ops op ih =>
    obtain ⟨hholds, hsaved⟩ := ih
    have hnone : (b.run ops).saves.saved? d key = none ↔ ¬b.Holds d key ops := by
      rw [← hholds, Option.not_isSome_iff_eq_none]
    refine ⟨?_, fun v => ?_⟩
    · rw [run_concat, isSome_saved?_apply, holds_concat, hholds]
    · rw [run_concat, saved?_apply, saved_concat, hsaved, hnone]

/-! ## Closing groups -/

/-- Operations have been followed by the closing of all groups from number `mark` on. Every key that one of
them holds has got back what the lowest of those that hold it saved, all other keys are as they were, and
the groups below the mark are left. -/
structure Unwound (b : Bindings) (ops : List Operation) (mark : Nat) (b' : Bindings) : Prop where
  back : ∀ d key v, mark ≤ d → b.Saved d key ops v →
    (∀ d', mark ≤ d' → d' < d → ¬b.Holds d' key ops) → b'.store.var key = v
  other : ∀ key, (∀ d, mark ≤ d → ¬b.Holds d key ops) →
    b'.store.var key = (b.run ops).store.var key
  groups : b'.saves.groups = (b.run ops).saves.groups.drop ((b.run ops).saves.depth - mark)

/-- Groups are closed from the innermost one on, so the lowest one that holds a key has the last word. -/
theorem unwound_release (b : Bindings) (ops : List Operation) (mark : Nat) :
    b.Unwound ops mark ((b.run ops).apply (.release mark true)) := by
  have hnone {d : Nat} {key : String} (h : ¬b.Holds d key ops) :
      Saves.savedBy? (b.run ops).saves.groups d key = none := by
    rw [← (b.saved?_run ops d key).1, Option.not_isSome_iff_eq_none] at h
    exact h
  refine ⟨fun d key v hmark hsaved hlowest => ?_, fun key hkey => ?_, ?_⟩
  · exact Saves.var_closeAbove_of_lowest _ hmark (((b.saved?_run ops d key).2 v).mpr hsaved)
      fun d' hd' hlt => hnone (hlowest d' hd' hlt)
  · exact Saves.var_closeAbove_of_none _ fun d hd => hnone (hkey d hd)
  · exact Saves.groups_closeAbove mark true _ _

/-- **Closing groups unwinds to the outermost binding.** Along every sequence of operations, from every
store and every groups: closing the groups above a mark gives every key that one of them holds the
variable that the lowest of these saved, as it was when that group was first asked for it, and leaves all
others; putting everything back does so with all groups; groups that are dropped change no variable; and
nothing is closed at a mark that is not below the depth. -/
theorem outermost_restored (b : Bindings) (ops : List Operation) :
    let b' := b.run ops
    (∀ mark, b.Unwound ops mark (b'.apply (.release mark true))) ∧
    b.Unwound ops 0 (b'.apply .restoreAll) ∧
    (∀ mark, b'.apply (.release mark false)
      = { b' with saves := ⟨b'.saves.groups.drop (b'.saves.depth - mark)⟩ }) ∧
    ∀ mark restore, b'.saves.depth ≤ mark → b'.apply (.release mark restore) = b' := by
  intro b'
  refine ⟨b.unwound_release ops, b.unwound_release ops 0, fun mark => ?_, fun mark restore h => ?_⟩
  · show Bindings.mk (Saves.closeAbove mark false b'.saves.groups b'.store).2
      ⟨(Saves.closeAbove mark false b'.saves.groups b'.store).1⟩ = _
    rw [Saves.closeAbove_drop, Saves.groups_closeAbove]
    rfl
  · show Bindings.mk (Saves.closeAbove mark restore b'.saves.groups b'.store).2
      ⟨(Saves.closeAbove mark restore b'.saves.groups b'.store).1⟩ = _
    rw [Saves.closeAbove_of_length_le h]

/-- A name is saved by two groups, the second time with other contents; putting everything back restores
the contents from before the first one, and closing a group that is not open does nothing. -/
theorem outermost_restored_sample :
    let b := new 4 16
    let assign (n : Number) : Operation := .set ⟨"X", .number⟩ (.number 0) (.number n)
    let ops := [assign 1, .allocate, .localize "X", assign 2, .allocate, .localize "X", assign 3]
    ((b.run ops).apply .restoreAll).store.var "X" = (b.run [assign 1]).store.var "X" ∧
      (b.run ops).apply (.release 2 true) = b.run ops := by
  intro b assign ops
  have hsaved : b.Saved 0 "X" ops ((b.run [assign 1]).store.var "X") :=
    ((b.saved?_run ops 0 "X").2 _).mp (by decide +kernel)
  obtain ⟨-, hall, -, hclosed⟩ := outermost_restored b ops
  refine ⟨hall.back 0 "X" _ (Nat.zero_le 0) hsaved fun d _ hd => absurd hd (Nat.not_lt_zero d), ?_⟩
  exact hclosed 2 true (by decide +kernel)

end Bindings

end QuestScript
