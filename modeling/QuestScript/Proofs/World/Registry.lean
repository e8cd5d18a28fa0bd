import Mathlib.Data.List.Dedup
import Mathlib.Data.List.Induction
import QuestScript.World
import QuestScript.Proofs.Bisection

/-!
# The registry is a dictionary

Whatever locations are added, and in whatever order, the entries stay in ascending order of their
keys. So the search for a key is right (`splits_compareKey`), and to add a location is to put it
between the entries with smaller keys and those with greater ones (`exists_insert`); an entry with the
same key goes. From there on the search and the places in the list play no part any more: what the
entries are says `mem_insert`, and what is found `find?_add`.
-/

namespace QuestScript.World

variable {key : String} {location : Location} {locations : List (String × Location)} {w : World}

/-! ## Searching the entries -/

theorem compareKey_eq_iff {entry : String × Location} : compareKey key entry = .eq ↔ entry.1 = key :=
  compare_eq_iff_eq

theorem splits_compareKey (h : locations.Pairwise fun a b => a.1 < b.1) (key : String) :
    Bisection.Splits (compareKey key) locations :=
  Bisection.splits_compare h key

/-- What is found stands under the key of the name. -/
theorem find?_eq_some_iff (h : w.locations.Pairwise fun a b => a.1 < b.1) {name : String} :
    w.find? name = some location ↔ (Location.key name, location) ∈ w.locations := by
  unfold find?
  rw [Option.map_eq_some_iff]
  constructor
  · rintro ⟨entry, hentry, rfl⟩
    obtain ⟨hmem, hkey⟩ := (Bisection.find?_eq_some_iff (splits_compareKey h _)).mp hentry
    rwa [← compareKey_eq_iff.mp hkey]
  · intro hmem
    exact ⟨_, (Bisection.find?_eq_some_iff (splits_compareKey h _)).mpr ⟨hmem, compareKey_eq_iff.mpr rfl⟩,
      rfl⟩

/-! ## Putting a location in its place -/

/-- A location is put behind the entries with smaller keys and in front of those with greater ones,
in place of the one with the same key, if there is one. -/
theorem exists_insert (h : locations.Pairwise fun a b => a.1 < b.1) (key : String)
    (location : Location) :
    ∃ before same behind, locations = before ++ same ++ behind ∧
      insert key location locations = before ++ (key, location) :: behind ∧
      (∀ r ∈ before, r.1 < key) ∧ (∀ r ∈ same, r.1 = key) ∧ ∀ r ∈ behind, key < r.1 := by
  unfold insert
  split
  · next i hi =>
    have hkey : locations[i].1 = key := compareKey_eq_iff.mp (Bisection.order_of_search_eq_hit hi)
    have hlocations : locations
        = locations.take i ++ [locations[i]] ++ locations.drop (i + 1) := by simp
    refine ⟨locations.take i, [locations[i]], locations.drop (i + 1), hlocations, ?_, ?_, by simpa, ?_⟩
    · rw [List.set_eq_take_append_cons_drop, if_pos i.isLt, hkey]
    · rw [hlocations, List.append_assoc, List.pairwise_append] at h
      intro r hr
      exact hkey ▸ h.2.2 r hr locations[i] (List.mem_append_left _ (List.mem_singleton_self _))
    · rw [hlocations, List.append_assoc, List.singleton_append, List.pairwise_append,
        List.pairwise_cons] at h
      intro r hr
      exact hkey ▸ h.2.1.1 r hr
  · next i hi =>
    obtain ⟨before, behind, hlocations, hinsert, hbefore, hbehind⟩ :=
      Bisection.exists_gap (splits_compareKey h key) hi (key, location)
    refine ⟨before, [], behind, by simpa using hlocations, hinsert, ?_, by simp, ?_⟩
    · exact fun r hr => compare_lt_iff_lt.mp (hbefore r hr)
    · exact fun r hr => compare_gt_iff_gt.mp (hbehind r hr)

/-- The registry stays in order. -/
theorem insert_pairwise (h : locations.Pairwise fun a b => a.1 < b.1) :
    (insert key location locations).Pairwise fun a b => a.1 < b.1 := by
  obtain ⟨before, same, behind, hlocations, hinsert, hbefore, -, hbehind⟩ := exists_insert h key location
  rw [hlocations, List.append_assoc] at h
  obtain ⟨hb, hrest, hcross⟩ := List.pairwise_append.mp h
  have hcross' : ∀ r ∈ before, ∀ r' ∈ behind, r.1 < r'.1 :=
    fun r hr r' hr' => hcross r hr r' (List.mem_append_right _ hr')
  rw [hinsert, List.pairwise_append, List.pairwise_cons]
  refine ⟨hb, ⟨hbehind, (List.pairwise_append.mp hrest).2.1⟩, fun r hr r' hr' => ?_⟩
  rcases List.mem_cons.mp hr' with rfl | hr'
  · exact hbefore r hr
  · exact hcross' r hr r' hr'

/-- Afterwards the entries are the new one and those with other keys. -/
theorem mem_insert (h : locations.Pairwise fun a b => a.1 < b.1) {r : String × Location} :
    r ∈ insert key location locations ↔ r = (key, location) ∨ (r.1 ≠ key ∧ r ∈ locations) := by
  obtain ⟨before, same, behind, hlocations, hinsert, hbefore, hsame, hbehind⟩ :=
    exists_insert h key location
  rw [hinsert, hlocations, List.mem_append, List.mem_cons, List.mem_append, List.mem_append]
  constructor
  · rintro (hr | hr | hr)
    · exact .inr ⟨(hbefore r hr).ne, .inl (.inl hr)⟩
    · exact .inl hr
    · exact .inr ⟨(hbehind r hr).ne', .inr hr⟩
  · rintro (hr | ⟨hne, (hr | hr) | hr⟩)
    · exact .inr (.inl hr)
    · exact .inl hr
    · exact absurd (hsame r hr) hne
    · exact .inr (.inr hr)

/-- A location with a new key leaves the others as they are. -/
theorem insert_perm (h : locations.Pairwise fun a b => a.1 < b.1) (hnew : ∀ r ∈ locations, r.1 ≠ key) :
    (insert key location locations).Perm ((key, location) :: locations) := by
  obtain ⟨before, same, behind, hlocations, hinsert, -, hsame, -⟩ := exists_insert h key location
  have hnil : same = [] := by
    refine List.eq_nil_iff_forall_not_mem.mpr fun r hr => hnew r ?_ (hsame r hr)
    simp [hlocations, hr]
  rw [hinsert, hlocations, hnil, List.append_nil]
  exact List.perm_middle

/-- A location is found under its name, and all others as before. -/
theorem find?_add (h : w.locations.Pairwise fun a b => a.1 < b.1) (name : String) :
    (w.add location).find? name
      = if Location.key location.name = Location.key name then some location else w.find? name := by
  have hadd : (w.add location).locations.Pairwise fun a b => a.1 < b.1 := insert_pairwise h
  have hmem {l : Location} : (Location.key name, l) ∈ (w.add location).locations ↔
      (Location.key name, l) = (Location.key location.name, location) ∨
        (Location.key name ≠ Location.key location.name ∧ (Location.key name, l) ∈ w.locations) :=
    mem_insert h
  refine Option.ext fun l => ?_
  rw [find?_eq_some_iff hadd, hmem]
  split
  · next hkey => simp [hkey, eq_comm]
  · next hkey => simp [Ne.symm hkey, find?_eq_some_iff h]

/-! ## Locations added in turn -/

/-- The world in which some locations have been added in turn. -/
def ofLocations (added : List Location) : World := added.foldl add {}

theorem ofLocations_concat (added : List Location) (location : Location) :
    ofLocations (added ++ [location]) = (ofLocations added).add location :=
  List.foldl_concat ..

/-- The registry holds the locations that have been added, of several with one key the last one. -/
structure Registers (added : List Location) (w : World) : Prop where
  ascending : w.locations.Pairwise fun a b => a.1 < b.1
  keyed : ∀ r ∈ w.locations, r.1 = Location.key r.2.name
  keys : ∀ key, key ∈ w.locations.map (·.1) ↔ key ∈ added.map (Location.key ·.name)
  find?_eq : ∀ name, w.find? name
    = added.reverse.find? fun l => Location.key l.name == Location.key name
  first : w.first = added.head?.map (·.name)

/-- One more location. -/
theorem Registers.add {added : List Location} (h : Registers added w) (location : Location) :
    Registers (added ++ [location]) (w.add location) where
  ascending := insert_pairwise h.ascending
  keyed := by
    intro r hr
    rcases (mem_insert h.ascending).mp hr with rfl | ⟨-, hr⟩
    · rfl
    · exact h.keyed r hr
  keys := by
    intro key
    have hkeys := h.keys key
    simp only [List.mem_map] at hkeys
    simp only [World.add, List.map_append, List.mem_append, List.mem_map, ← hkeys,
      mem_insert h.ascending, List.mem_singleton]
    constructor
    · rintro ⟨r, rfl | ⟨-, hr⟩, rfl⟩
      · exact .inr ⟨location, rfl, rfl⟩
      · exact .inl ⟨r, hr, rfl⟩
    · rintro (⟨r, hr, rfl⟩ | ⟨-, rfl, rfl⟩)
      · by_cases hsame : r.1 = Location.key location.name
        · exact ⟨_, .inl rfl, hsame.symm⟩
        · exact ⟨r, .inr ⟨hsame, hr⟩, rfl⟩
      · exact ⟨_, .inl rfl, rfl⟩
  find?_eq := by
    intro name
    rw [find?_add h.ascending, h.find?_eq, List.reverse_concat, List.find?_cons]
    by_cases hkey : Location.key location.name = Location.key name
    · rw [if_pos hkey, beq_iff_eq.mpr hkey]
    · rw [if_neg hkey, beq_eq_false_iff_ne.mpr hkey]
  first := by
    cases added <;> simp [World.add, h.first]

theorem registers_ofLocations (added : List Location) : Registers added (ofLocations added) := by
  induction added using List.reverseRecOn with
  | nil => exact ⟨.nil, nofun, fun _ => .rfl, fun _ => rfl, rfl⟩
  | append_singleton added location ih =>
    rw [ofLocations_concat]
    exact ih.add location

/-- There are as many entries as different keys. -/
theorem Registers.size_eq {added : List Location} (h : Registers added w) :
    w.size = (added.map (Location.key ·.name)).dedup.length := by
  have hnodup : (w.locations.map (·.1)).Nodup :=
    List.pairwise_map.mpr (h.ascending.imp fun hlt => hlt.ne)
  have hperm : (w.locations.map (·.1)).Perm (added.map (Location.key ·.name)).dedup := by
    refine (List.perm_ext_iff_of_nodup hnodup (List.nodup_dedup _)).mpr fun key => ?_
    rw [h.keys, List.mem_dedup]
  simpa [size] using hperm.length_eq

/-- The first location can always be found, by the name it was added with. -/
theorem Registers.isSome_find?_first {added : List Location} (h : Registers added w) :
    ∀ name ∈ w.first, (w.find? name).isSome := by
  intro name hname
  rw [h.first] at hname
  obtain ⟨location, hhead, rfl⟩ := Option.map_eq_some_iff.mp hname
  rw [h.find?_eq, List.find?_isSome]
  exact ⟨location, List.mem_reverse.mpr (List.mem_of_mem_head? hhead), by simp⟩

/-- **A registry is a dictionary of names in any case and between any blanks.** Whatever locations are
added, the entries are in strictly ascending order of their keys, each under the key of its name; a
name gives the location that was added last under its key, or none if there was none; there are as
many entries as different keys; and the first name is that of the first location added, which is
always found. -/
theorem registry_is_dictionary (added : List Location) :
    let w := ofLocations added
    (w.locations.Pairwise fun a b => a.1 < b.1) ∧
      (∀ r ∈ w.locations, r.1 = Location.key r.2.name) ∧
      (∀ name, w.find? name
        = added.reverse.find? fun l => Location.key l.name == Location.key name) ∧
      w.size = (added.map (Location.key ·.name)).dedup.length ∧
      w.first = added.head?.map (·.name) ∧
      ∀ name ∈ w.first, (w.find? name).isSome := by
  intro w
  have h := registers_ofLocations added
  exact ⟨h.ascending, h.keyed, h.find?_eq, h.size_eq, h.first, h.isSome_find?_first⟩

end QuestScript.World
