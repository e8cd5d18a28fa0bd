import Mathlib.Data.List.Rotate
import QuestScript.Pattern.Cache

/-!
# The ring of patterns

Asking for a text adds its pattern to the ring if none is kept for it and it compiles (`Cache.adds`).
Nothing else changes the ring: neither a pattern that is kept nor a text that is no pattern.

The ring is described by the texts added so far, its history. Turned so that the place of the next
pattern comes first, it has the latest of them in their order (`Ring`). While it is being filled, the next
place is behind its end and there is nothing to turn. Once it is full, the text written over is the one
that is the oldest.
-/

namespace QuestScript.Pattern.Cache

variable {c : Cache} {source : String} {history : List String} {p : Pattern}

/-! ## Asking for one text after the other -/

/-- The texts whose patterns are kept, place by place. -/
def sources (c : Cache) : List String := c.entries.toList.map (·.1)

/-- Whether asking for a text adds a pattern: none is kept for it, and it compiles. -/
def adds (c : Cache) (source : String) : Bool :=
  (c.lookup? source).isNone && (Pattern.compile source).isOk

/-- What asking for one text after the other gives, and the cache in the end. -/
def getAll (c : Cache) : List String → List (Except Error Pattern) × Cache
  | [] => ([], c)
  | source :: rest =>
    let (answer, c) := c.get source
    let (answers, c) := getAll c rest
    (answer :: answers, c)

/-- The texts that add a pattern when they are asked for one after the other, the oldest first. -/
def added (c : Cache) : List String → List String
  | [] => []
  | source :: rest =>
    let later := added (c.get source).2 rest
    if c.adds source then source :: later else later

/-- Every answer is what the compiler gives, whatever is in the cache. -/
theorem getAll_fst (c : Cache) (asked : List String) :
    (c.getAll asked).1 = asked.map Pattern.compile := by
  induction asked generalizing c with
  | nil => rfl
  | cons source rest ih =>
    show (c.get source).1 :: ((c.get source).2.getAll rest).1 = _
    rw [get_fst, ih, List.map_cons]

/-! ## What asking once does -/

/-- A text is found just if it is one of the sources. -/
theorem lookup?_eq_none_iff : c.lookup? source = none ↔ source ∉ c.sources := by
  unfold lookup? sources
  rw [Option.map_eq_none_iff, Array.find?_eq_none, List.mem_map]
  constructor
  · rintro h ⟨entry, hmem, rfl⟩
    simpa using h entry (Array.mem_def.mpr hmem)
  · intro h entry hmem hkey
    exact h ⟨entry, Array.mem_def.mp hmem, by simpa using hkey⟩

theorem not_mem_of_adds (h : c.adds source = true) : source ∉ c.sources := by
  rw [adds, Bool.and_eq_true, Option.isNone_iff_eq_none] at h
  exact lookup?_eq_none_iff.mp h.1

/-- A text that compiles and is new is put into the ring. -/
theorem get_of_adds (h : c.adds source = true) :
    ∃ p hp, (c.get source).2 = c.insert source p hp := by
  rw [adds, Bool.and_eq_true, Option.isNone_iff_eq_none] at h
  unfold get
  rw [h.1]
  dsimp only
  split
  · next p hp => exact ⟨p, hp, rfl⟩
  · next e he => simp [he, Except.isOk, Except.toBool] at h

/-- A pattern that is kept and a text that does not compile leave the ring as it is. -/
theorem get_of_not_adds (h : c.adds source = false) : (c.get source).2 = c := by
  unfold get
  split
  · rfl
  · next hnone =>
    split
    · next p hp => simp [adds, hnone, hp, Except.isOk, Except.toBool] at h
    · rfl

/-- While there is room the new text comes at the end. -/
theorem sources_insert_of_lt (h : c.entries.size < capacity) (hp : Pattern.compile source = .ok p) :
    (c.insert source p hp).sources = c.sources ++ [source] := by
  simp [sources, insert, h]

/-- Later it takes the place of the oldest one. -/
theorem sources_insert_of_le (h : capacity ≤ c.entries.size) (hp : Pattern.compile source = .ok p) :
    (c.insert source p hp).sources = c.sources.set c.next source := by
  simp [sources, insert, Nat.not_lt.mpr h, List.map_set]

/-! ## The latest texts -/

/-- The latest texts of a history, as many as the ring has places. -/
def latest (history : List String) : List String := history.drop (history.length - capacity)

theorem length_latest (history : List String) :
    (latest history).length = min history.length capacity := by
  rw [latest, List.length_drop]
  omega

/-- As long as the history is short all of it is kept. -/
theorem latest_append_of_lt (h : history.length < capacity) (source : String) :
    latest (history ++ [source]) = latest history ++ [source] := by
  have hold : history.length - capacity = 0 := by omega
  have hnew : (history ++ [source]).length - capacity = 0 := by simp; omega
  rw [latest, latest, hold, hnew, List.drop_zero, List.drop_zero]

/-- A history that fills the ring loses the oldest of its latest texts to the next one. -/
theorem latest_append_of_le (h : capacity ≤ history.length) (source : String) :
    latest (history ++ [source]) = (latest history).tail ++ [source] := by
  have hnew : (history ++ [source]).length - capacity = history.length - capacity + 1 := by
    simp; omega
  rw [latest, latest, hnew, List.tail_drop, List.drop_append_of_le_length]
  unfold capacity at *
  omega

/-- Writing at a place and turning the list to behind it puts what is written at the end, for what was in
front. -/
theorem rotate_set_succ {α : Type} {xs : List α} {n : Nat} (h : n < xs.length) (x : α) :
    (xs.set n x).rotate (n + 1) = (xs.rotate n).tail ++ [x] := by
  obtain ⟨before, y, behind, rfl, rfl⟩ :
      ∃ before y behind, xs = before ++ y :: behind ∧ before.length = n :=
    ⟨xs.take n, xs[n], xs.drop (n + 1), by simp, by simp; omega⟩
  calc ((before ++ y :: behind).set before.length x).rotate (before.length + 1)
      = ((before ++ [x]) ++ behind).rotate (before ++ [x]).length := by simp
    _ = behind ++ (before ++ [x]) := List.rotate_append_length_eq _ _
    _ = ((before ++ y :: behind).rotate before.length).tail ++ [x] := by
        rw [List.rotate_append_length_eq]
        simp

/-! ## The ring after a history -/

/-- The ring after the texts of a history were added, the oldest first. -/
structure Ring (c : Cache) (history : List String) : Prop where
  next : c.next = history.length % capacity
  /-- Turned so that the next place comes first, the ring has the latest texts in their order. -/
  order : c.sources.rotate c.next = latest history
  nodup : (latest history).Nodup

theorem Ring.length_sources (h : Ring c history) : c.sources.length = min history.length capacity := by
  rw [← length_latest, ← h.order, List.length_rotate]

/-- The ring is as full as its history is long, up to its capacity. -/
theorem Ring.size_entries (h : Ring c history) : c.entries.size = min history.length capacity := by
  simpa [sources] using h.length_sources

theorem Ring.empty : Ring {} [] := ⟨rfl, rfl, List.nodup_nil⟩

/-- Read from the oldest entry on, the ring has the latest texts in their order. -/
theorem Ring.order_insert (h : Ring c history) (hp : Pattern.compile source = .ok p) :
    (c.insert source p hp).sources.rotate (c.insert source p hp).next = latest (history ++ [source]) := by
  have hsize := h.size_entries
  have hlen := h.length_sources
  have hnext := h.next
  have horder := h.order
  show (c.insert source p hp).sources.rotate ((c.next + 1) % capacity) = _
  by_cases hfull : history.length < capacity
  · -- neither before nor after is anything turned
    have hplace : c.next = c.sources.length := by
      rw [hlen, hnext, Nat.mod_eq_of_lt hfull, Nat.min_eq_left (Nat.le_of_lt hfull)]
    have hturn : (c.sources ++ [source]).rotate ((c.next + 1) % capacity) = c.sources ++ [source] := by
      have hlength : (c.sources ++ [source]).length = c.next + 1 := by simp [hplace]
      by_cases hlast : c.next + 1 < capacity
      · rw [Nat.mod_eq_of_lt hlast, ← hlength, List.rotate_length]
      · rw [show c.next + 1 = capacity by omega, Nat.mod_self, List.rotate_zero]
    rw [sources_insert_of_lt (by omega), hturn, latest_append_of_lt hfull, ← horder, hplace,
      List.rotate_length]
  · -- the text written over is the oldest one, and comes first before
    rw [Nat.not_lt] at hfull
    have hsources : (c.sources.set c.next source).length = capacity := by
      rw [List.length_set, hlen, Nat.min_eq_right hfull]
    have hlt : c.next < c.sources.length := by
      rw [hnext, hlen, Nat.min_eq_right hfull]
      exact Nat.mod_lt _ (by decide)
    rw [sources_insert_of_le (by omega), latest_append_of_le hfull, ← horder, ← rotate_set_succ hlt,
      ← hsources, List.rotate_mod]

/-- By the two cases of an insertion, at the end or over the oldest entry. -/
theorem Ring.insert (h : Ring c history) (hnew : source ∉ c.sources)
    (hp : Pattern.compile source = .ok p) : Ring (c.insert source p hp) (history ++ [source]) where
  next := by
    show (c.next + 1) % capacity = (history ++ [source]).length % capacity
    rw [h.next, Nat.mod_add_mod, List.length_append, List.length_singleton]
  order := h.order_insert hp
  nodup := by
    have hfresh : source ∉ latest history := by rwa [← h.order, List.mem_rotate]
    by_cases hfull : history.length < capacity
    · rw [latest_append_of_lt hfull, List.nodup_append_comm]
      exact List.nodup_cons.mpr ⟨hfresh, h.nodup⟩
    · rw [latest_append_of_le (Nat.not_lt.mp hfull), List.nodup_append_comm]
      exact List.nodup_cons.mpr ⟨fun hmem => hfresh (List.mem_of_mem_tail hmem), h.nodup.tail⟩

/-- Asking once adds the text to the history or leaves the ring as it is. -/
theorem Ring.get (h : Ring c history) (source : String) :
    Ring (c.get source).2 (if c.adds source then history ++ [source] else history) := by
  cases hadds : c.adds source with
  | true =>
    obtain ⟨p, hp, hget⟩ := get_of_adds hadds
    rw [hget, if_pos rfl]
    exact h.insert (not_mem_of_adds hadds) hp
  | false =>
    rw [get_of_not_adds hadds]
    exact h

/-- After any run the history has grown by the texts added. -/
theorem Ring.getAll (h : Ring c history) (asked : List String) :
    Ring (c.getAll asked).2 (history ++ c.added asked) := by
  induction asked generalizing c history with
  | nil =>
    rw [added, List.append_nil]
    exact h
  | cons source rest ih =>
    have hrest := ih (h.get source)
    show Ring ((c.get source).2.getAll rest).2 _
    rw [added]
    split
    · next hadds => rwa [hadds, if_pos rfl, List.append_assoc] at hrest
    · next hadds => rwa [if_neg hadds] at hrest

/-- **A cache is transparent and keeps the latest ten.** Whatever is asked for one text after the other,
each answer is what compiling the text gives. No text is kept twice, and the texts kept are the last ten
of those that were not kept when they were asked for and compiled, or all of them if there are fewer. -/
theorem transparent_and_latest (asked : List String) :
    let empty : Cache := {}
    let c := (empty.getAll asked).2
    let added := empty.added asked
    (empty.getAll asked).1 = asked.map Pattern.compile ∧
      c.sources.Nodup ∧
      c.sources.length = min 10 added.length ∧
      c.sources.Perm (added.drop (added.length - 10)) := by
  intro empty c added
  have hring : Ring c added := Ring.empty.getAll asked
  refine ⟨getAll_fst empty asked, ?_, ?_, ?_⟩
  · rw [← List.nodup_rotate, hring.order]
    exact hring.nodup
  · rw [hring.length_sources, Nat.min_comm]
    rfl
  · calc c.sources.Perm (c.sources.rotate c.next) := (List.rotate_perm _ _).symm
      _ = latest added := hring.order

end QuestScript.Pattern.Cache
