import QuestScript.Proofs.Store

/-!
# Keys after reshaping

The items of a variable and the keys that lead to them are moved apart from each other: a removal erases
one item and rebases the list of keys, a copy cuts a range out of the items and filters the keys. An
off-by-one in either makes a key lead to its neighbour's item.

Main statement: no key is led astray (`keyed_reads_survive`). What a variable is after a removal and what
a copy of a range is are `Variable.Removed` and `Variable.Copied`; both speak of what is read at positions
and through keys, and of nothing else.

Both operations keep some entries of the list of keys and move their positions, so one fact about lookups
carries both (`lookup_rebased`). It needs the keys to be all different, which is why the variable has to be
well formed.
-/

namespace QuestScript

namespace Variable

variable {limit : Nat} {v : Variable}

/-! ## Rebasing the keys -/

/-- Among different keys, dropping and moving entries does to each lookup what it does to the entry. -/
theorem lookup_rebased {keys : List (String × Nat)} (hkeys : keys.Pairwise fun a b => a.1 < b.1)
    (keep : Nat → Bool) (move : Nat → Nat) (key : String) :
    ((keys.filter fun entry => keep entry.2).map fun entry => (entry.1, move entry.2)).lookup key
      = ((keys.lookup key).filter keep).map move := by
  induction keys with
  | nil => rfl
  | cons entry keys ih =>
    obtain ⟨k, p⟩ := entry
    obtain ⟨hfirst, hrest⟩ := List.pairwise_cons.mp hkeys
    rw [List.filter_cons, List.lookup_cons]
    cases hk : key == k with
    | false =>
      split
      · rw [List.map_cons, List.lookup_cons, hk]
        exact ih hrest
      · exact ih hrest
    | true =>
      -- the key is not there a second time
      have hnone : keys.lookup key = none := by
        refine List.lookup_eq_none_iff.mpr fun e he => ?_
        rw [eq_of_beq hk]
        exact bne_iff_ne.mpr (String.ne_of_lt (hfirst e he))
      split
      · next hp =>
        rw [List.map_cons, List.lookup_cons, hk, Option.filter_some, if_pos hp]
        rfl
      · next hp =>
        rw [ih hrest, hnone, Option.filter_some, if_neg hp]
        rfl

/-- The item a key leads to. -/
def slotOf? (v : Variable) (key : String) : Option Slot :=
  (v.keyPosition? key).bind fun p => v.values[p]?

/-! ## Removing an item -/

/-- A variable without the item at a position: the keys of the item are gone, every other key that was
there leads to the item it led to, and each later item stands one position lower. -/
structure Removed (v : Variable) (p : Nat) (v' : Variable) : Prop where
  gone : ∀ key, v.keyPosition? key = some p → v'.keyPosition? key = none
  kept : ∀ key, v.keyPosition? key ≠ some p →
    (v'.keyPosition? key).isSome = (v.keyPosition? key).isSome ∧ v'.slotOf? key = v.slotOf? key
  items : ∀ q, v'.values[q]? = v.values[if q < p then q else q + 1]?

theorem keyPosition?_remove (h : v.WellFormed limit) {p : Nat} (hp : p < v.size) (key : String) :
    (v.remove p).keyPosition? key = ((v.keyPosition? key).filter (· != p)).map (shifted p) := by
  replace hp : p < v.values.size := hp
  unfold remove
  rw [if_pos hp]
  exact lookup_rebased h.ascending (· != p) (shifted p) key

theorem getElem?_remove {p : Nat} (hp : p < v.size) (q : Nat) :
    (v.remove p).values[q]? = v.values[if q < p then q else q + 1]? := by
  replace hp : p < v.values.size := hp
  unfold remove
  rw [if_pos hp]
  dsimp only
  rw [Array.eraseIdxIfInBounds_eq, dif_pos hp, Array.getElem?_eraseIdx]
  split
  · rfl
  · rfl

/-- The item that stood at `r` is found where it has been shifted to. -/
theorem unshifted {p r : Nat} (h : r ≠ p) :
    (if shifted p r < p then shifted p r else shifted p r + 1) = r := by
  unfold shifted
  split
  · split
    · omega
    · omega
  · split
    · rfl
    · omega

theorem removed_remove (h : v.WellFormed limit) {p : Nat} (hp : p < v.size) :
    v.Removed p (v.remove p) where
  gone key hkey := by
    rw [keyPosition?_remove h hp, hkey, Option.filter_some, bne_self_eq_false]
    rfl
  kept key hkey := by
    cases hr : v.keyPosition? key with
    | none => simp [slotOf?, keyPosition?_remove h hp, hr]
    | some r =>
      have hne : r ≠ p := fun heq => hkey (hr.trans (congrArg some heq))
      have hposition : (v.remove p).keyPosition? key = some (shifted p r) := by
        rw [keyPosition?_remove h hp, hr, Option.filter_some, if_pos (bne_iff_ne.mpr hne)]
        rfl
      refine ⟨by rw [hposition]; rfl, ?_⟩
      rw [slotOf?, slotOf?, hposition, hr, Option.bind_some, Option.bind_some,
        getElem?_remove hp, unshifted hne]
  items := getElem?_remove hp

/-! ## Copying a range -/

/-- A copy of the items from `first` up to `stop`: it has as many items, and the keys that led to one of
them, each of which leads to a copy of what it led to. -/
structure Copied (v : Variable) (first stop : Nat) (v' : Variable) : Prop where
  size : v'.size = stop - first
  items : ∀ q < stop - first, v'.values[q]? = v.values[first + q]?
  keys : ∀ key, (v'.keyPosition? key).isSome = true ↔
    ∃ r, v.keyPosition? key = some r ∧ first ≤ r ∧ r < stop
  kept : ∀ key, (v'.keyPosition? key).isSome = true → v'.slotOf? key = v.slotOf? key

/-- Nothing is a copy of an empty range. -/
theorem copied_empty {first stop : Nat} (h : stop ≤ first) : v.Copied first stop {} where
  size := (Nat.sub_eq_zero_of_le h).symm
  items q hq := by omega
  keys key := by
    refine iff_of_false Bool.false_ne_true ?_
    rintro ⟨r, -, hfirst, hstop⟩
    omega
  kept key hkey := nomatch hkey

/-- The items from `first` up to `stop`, with the keys that lead to them. -/
def range (v : Variable) (first stop : Nat) : Variable where
  values := v.values.extract first stop
  keys := (v.keys.filter fun (_, p) => first ≤ p && p < stop).map fun (k, p) => (k, p - first)

theorem keyPosition?_range (h : v.WellFormed limit) (first stop : Nat) (key : String) :
    (v.range first stop).keyPosition? key
      = ((v.keyPosition? key).filter fun p => first ≤ p && p < stop).map (· - first) :=
  lookup_rebased h.ascending (fun p => first ≤ p && p < stop) (· - first) key

theorem copied_range (h : v.WellFormed limit) {first stop : Nat} (hstop : stop ≤ v.values.size) :
    v.Copied first stop (v.range first stop) := by
  have hitems : ∀ q < stop - first, (v.range first stop).values[q]? = v.values[first + q]? := by
    intro q hq
    rw [range, Array.getElem?_extract, Nat.min_eq_left hstop, if_pos hq]
  have hcopied : ∀ key r, v.keyPosition? key = some r → first ≤ r → r < stop →
      (v.range first stop).keyPosition? key = some (r - first) := by
    intro key r hr hfirst hlast
    rw [keyPosition?_range h, hr, Option.filter_some, if_pos (by simp [hfirst, hlast])]
    rfl
  have hkeys : ∀ key, ((v.range first stop).keyPosition? key).isSome = true ↔
      ∃ r, v.keyPosition? key = some r ∧ first ≤ r ∧ r < stop := by
    refine fun key => ⟨fun hkey => ?_, fun ⟨r, hr, hfirst, hlast⟩ => ?_⟩
    · rw [keyPosition?_range h, Option.isSome_map] at hkey
      obtain ⟨r, hr⟩ := Option.isSome_iff_exists.mp hkey
      obtain ⟨hr, hin⟩ := Option.filter_eq_some_iff.mp hr
      exact ⟨r, hr, by simpa using hin⟩
    · rw [hcopied key r hr hfirst hlast]
      rfl
  refine ⟨?_, hitems, hkeys, fun key hkey => ?_⟩
  · rw [Variable.size, range, Array.size_extract, Nat.min_eq_left hstop]
  · obtain ⟨r, hr, hfirst, hlast⟩ := (hkeys key).mp hkey
    rw [slotOf?, slotOf?, hcopied key r hr hfirst hlast, hr, Option.bind_some, Option.bind_some,
      hitems _ (by omega), Nat.add_sub_cancel' hfirst]

/-- A slice is the copy of a range that ends with the variable at the latest. -/
theorem copied_slice (h : v.WellFormed limit) (start count : Nat) :
    v.Copied start (min v.size (start + count)) (v.slice start count) := by
  unfold slice
  split
  · next hempty =>
    refine copied_empty ?_
    rw [Bool.or_eq_true, decide_eq_true_eq, beq_iff_eq] at hempty
    rcases hempty with hend | hzero
    · exact Nat.le_trans (Nat.min_le_left _ _) hend
    · rw [hzero]
      exact Nat.min_le_right _ _
  · exact copied_range h (Nat.min_le_left _ _)

end Variable

/-! ## Reshaping in a store -/

namespace Store

/-- Removing an item of a variable changes no other variable. -/
theorem var_removeItem (s : Store) (key : String) (position : Nat) (key' : String) :
    (s.removeItem key position).var key'
      = if key = key' then (s.var key).remove position else s.var key' := by
  rw [removeItem, var_modify]
  by_cases hk : key = key'
  · subst hk
    cases hc : s.vars.contains key with
    | true => rw [if_pos ⟨rfl, rfl⟩, if_pos rfl]
    | false =>
      rw [if_neg (by simp), if_pos rfl, var_of_not_contains hc]
      rfl
  · rw [if_neg (fun h => hk h.1), if_neg hk]

/-- A copy that succeeds replaces one variable by a part of another and changes nothing else. -/
theorem var_copyArray {s s' : Store} {dest src : String} {start : Number} {count : Option Number}
    (hne : dest ≠ src) (h : s.copyArray dest src start count = (.ok (), s')) (key : String) :
    s'.var key = if dest = key
      then (s.var src).slice start.count ((count.map Number.count).getD (s.size src))
      else s.var key := by
  unfold copyArray at h
  rw [if_neg (by simpa using hne)] at h
  dsimp only at h
  exact (update_eq_ok h).2 key

/-- **No key is led astray by reshaping.** Any item of a well-formed variable can be removed: the keys that
led to it are gone, all others lead to what they led to, and the items after it move down by one; a store
does so with one variable and keeps the others. When a part of the variable is copied to another one, with
a negative start or count read as zero and as many items as the variable has if there is no count, the
other one has the items of that part, cut at the end of the variable, and exactly the keys that lead into
it, each to the same contents. All other variables are as before. -/
theorem keyed_reads_survive {limit : Nat} {v : Variable} (hv : v.WellFormed limit) :
    (∀ p < v.size, v.Removed p (v.remove p)) ∧
    (∀ (s : Store) (src : String), s.var src = v →
      (∀ p key, (s.removeItem src p).var key = if src = key then v.remove p else s.var key) ∧
      ∀ (s' : Store) (dest : String) (start : Number) (count : Option Number), dest ≠ src →
        s.copyArray dest src start count = (.ok (), s') →
        v.Copied start.count (min v.size (start.count + (count.map Number.count).getD v.size))
          (s'.var dest) ∧
        ∀ key, key ≠ dest → s'.var key = s.var key) := by
  refine ⟨fun p hp => Variable.removed_remove hv hp, fun s src hsrc => ⟨fun p key => ?_, ?_⟩⟩
  · rw [var_removeItem, hsrc]
  · intro s' dest start count hne h
    have hvar := var_copyArray hne h
    rw [size, hsrc] at hvar
    refine ⟨?_, fun key hkey => ?_⟩
    · rw [hvar, if_pos rfl]
      exact Variable.copied_slice hv start.count _
    · rw [hvar, if_neg (Ne.symm hkey)]

/-- Of three items with keys the middle one is removed, and the last two are copied. -/
theorem keyed_reads_sample :
    let v : Variable := ⟨#[⟨1, "", []⟩, ⟨2, "", []⟩, ⟨3, "", []⟩], [("A", 2), ("B", 0), ("C", 1)]⟩
    let s : Store := Store.restore { maxVariables := 2, maxItems := 3 } "X" v
    let copied := s.copyArray "Y" "X" 1 none
    (v.remove 1).slotOf? "A" = v.slotOf? "A" ∧ (v.remove 1).keyPosition? "C" = none ∧
      copied.1 = .ok () ∧ (copied.2.var "Y").slotOf? "C" = v.slotOf? "C" ∧
      copied.2.var "X" = s.var "X" := by
  intro v s copied
  have hv : v.WellFormed 3 :=
    ⟨by decide +kernel, by decide +kernel, by decide +kernel, by decide +kernel⟩
  have hsrc : s.var "X" = v := by with_unfolding_all rfl
  have hok : copied.1 = .ok () := by with_unfolding_all rfl
  obtain ⟨hremove, hstore⟩ := keyed_reads_survive hv
  have hremoved := hremove 1 (by decide)
  obtain ⟨hcopied, hothers⟩ :=
    (hstore s "X" hsrc).2 copied.2 "Y" 1 none (by decide) (Prod.ext hok rfl)
  refine ⟨(hremoved.kept "A" (by decide)).2, hremoved.gone "C" (by decide), hok, ?_, ?_⟩
  · exact hcopied.kept "C" ((hcopied.keys "C").mpr ⟨1, by decide, by decide, by decide⟩)
  · exact hothers "X" (by decide)

end Store

end QuestScript
