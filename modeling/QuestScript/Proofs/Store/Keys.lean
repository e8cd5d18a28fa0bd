import QuestScript.Proofs.Bisection
import QuestScript.Proofs.Store

/-!
# Keys are found by halving

The keys of a variable stay in ascending order. So a key need not be looked for from the front: a
search by halving ends at it (`searchKey?`), or else at the place where it has to stand, and there it
is put (`searchOrAppend`).

In a variable with its keys in order the two do what `keyPosition?` and `appendKey` do. As no operation
leaves a variable with its keys out of order, they do so in all variables that there ever are
(`run_keysSearched`).
-/

namespace QuestScript

namespace Variable

variable {limit : Nat} {v : Variable} {key : String} {keys : List (String × Nat)}

/-! ## Access by halving -/

/-- How an entry compares with a key. -/
def compareKey (key : String) (entry : String × Nat) : Ordering := compare entry.1 key

/-- The position a key leads to. -/
def searchKey? (v : Variable) (key : String) : Option Nat :=
  (Bisection.find? (compareKey key) v.keys).map (·.2)

/-- The position a key leads to, and the variable with this key. A key that is not there is put where
the search for it ends, and gets an empty item. -/
def searchOrAppend (v : Variable) (key : String) : Nat × Variable :=
  match Bisection.search (compareKey key) v.keys with
  | .hit i => (v.keys[i].2, v)
  | .gap i => (v.size, { values := v.values.push {}, keys := v.keys.insertIdx i (key, v.size) })

/-! ## Keys in ascending order -/

/-- A key is there once at most, so its lookup gives the position of any entry with it. -/
theorem lookup_eq_some_iff_mem (h : keys.Pairwise fun a b => a.1 < b.1) {p : Nat} :
    keys.lookup key = some p ↔ (key, p) ∈ keys := by
  induction keys with
  | nil => simp
  | cons entry keys ih =>
    obtain ⟨hfirst, hrest⟩ := List.pairwise_cons.mp h
    rw [List.lookup_cons, List.mem_cons]
    cases hk : key == entry.1 with
    | true =>
      obtain rfl := eq_of_beq hk
      have hnew : (entry.1, p) ∉ keys := fun hm => (hfirst _ hm).ne rfl
      simp [Prod.ext_iff, hnew, eq_comm]
    | false =>
      have hne : (key, p) ≠ entry := fun he => ne_of_beq_false hk (he ▸ rfl)
      simp [ih hrest, hne]

theorem splits_compareKey (h : keys.Pairwise fun a b => a.1 < b.1) (key : String) :
    Bisection.Splits (compareKey key) keys :=
  Bisection.splits_compare h key

/-- A key that is greater than some keys goes behind them. -/
theorem insertKey_append {before behind : List (String × Nat)} (position : Nat)
    (hbefore : ∀ entry ∈ before, entry.1 < key) (hbehind : ∀ entry ∈ behind, key < entry.1) :
    insertKey key position (before ++ behind) = before ++ (key, position) :: behind := by
  induction before with
  | nil =>
    cases behind with
    | nil => rfl
    | cons entry behind => exact if_pos (hbehind entry List.mem_cons_self)
  | cons entry before ih =>
    obtain ⟨hfirst, hrest⟩ := List.forall_mem_cons.mp hbefore
    rw [List.cons_append, insertKey, if_neg hfirst.asymm, ih hrest]
    rfl

theorem searchKey?_eq_keyPosition? (h : v.WellFormed limit) (key : String) :
    v.searchKey? key = v.keyPosition? key := by
  refine Option.ext fun p => ?_
  rw [keyPosition?, lookup_eq_some_iff_mem h.ascending, searchKey?, Option.map_eq_some_iff]
  have hfind {entry : String × Nat} := Bisection.find?_eq_some_iff (x := entry)
    (splits_compareKey h.ascending key)
  constructor
  · rintro ⟨entry, hentry, rfl⟩
    obtain ⟨hmem, hkey⟩ := hfind.mp hentry
    obtain rfl : entry.1 = key := compare_eq_iff_eq.mp hkey
    exact hmem
  · exact fun hmem => ⟨(key, p), hfind.mpr ⟨hmem, compare_eq_iff_eq.mpr rfl⟩, rfl⟩

/-- A key that is there is found, and another one is appended. -/
theorem searchOrAppend_eq (h : v.WellFormed limit) (key : String) :
    v.searchOrAppend key = match v.keyPosition? key with
      | some p => (p, v)
      | none => (v.size, v.appendKey key) := by
  have hposition := searchKey?_eq_keyPosition? h key
  unfold searchKey? Bisection.find? at hposition
  unfold searchOrAppend
  split
  · next i hi =>
    rw [hi] at hposition
    rw [← hposition]
    rfl
  · next i hi =>
    rw [hi] at hposition
    rw [← hposition]
    obtain ⟨before, behind, hkeys, hinsert, hbefore, hbehind⟩ :=
      Bisection.exists_gap (splits_compareKey h.ascending key) hi (key, v.size)
    have hplace : v.keys.insertIdx i (key, v.size) = insertKey key v.size v.keys := by
      rw [hinsert]
      conv_rhs => rw [hkeys]
      exact (insertKey_append v.size (fun r hr => compare_lt_iff_lt.mp (hbefore r hr))
        fun r hr => compare_gt_iff_gt.mp (hbehind r hr)).symm
    rw [hplace]
    rfl

end Variable

/-! ## In every variable -/

/-- In a variable, a search by halving gives what the keys say, for reading and for writing. -/
structure Variable.KeysSearched (v : Variable) : Prop where
  read : ∀ key, v.searchKey? key = v.keyPosition? key
  write : ∀ key, v.searchOrAppend key = match v.keyPosition? key with
    | some p => (p, v)
    | none => (v.size, v.appendKey key)

theorem Variable.WellFormed.keysSearched {limit : Nat} {v : Variable} (h : v.WellFormed limit) :
    v.KeysSearched :=
  ⟨searchKey?_eq_keyPosition? h, searchOrAppend_eq h⟩

/-- **Keys are found by halving.** Whatever operations are made on an empty store, whether they succeed
or not: in every variable in the store and in every variable saved in a group, a search by halving
leads where the keys lead, and puts a key that is not there where it has to stand. -/
theorem Bindings.run_keysSearched (maxVariables maxItems : Nat) (ops : List Operation) :
    let b := (new maxVariables maxItems).run ops
    (∀ key, (b.store.var key).KeysSearched) ∧
      ∀ g ∈ b.saves.groups, ∀ entry ∈ g, entry.2.KeysSearched := by
  intro b
  have h := (new_wellFormed maxVariables maxItems).run ops
  exact ⟨fun key => (h.store key).keysSearched, fun g hg entry he => (h.saves g hg entry he).keysSearched⟩

end QuestScript
