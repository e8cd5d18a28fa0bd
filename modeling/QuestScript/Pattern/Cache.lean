import QuestScript.Pattern

/-!
# The cache of patterns

Compiling a pattern is the dear part of using it, so the last ten compiled are kept in a ring. A
pattern that does not compile leaves the ring as it is.

A cache carries the proof that it keeps nothing but compiled patterns under their own text, so
`get_fst` holds of every cache: what it gives is what compiling gives.
-/

namespace QuestScript.Pattern

/-- The patterns compiled last, by their text, and the place of the next one. -/
structure Cache where
  entries : Array (String × Pattern) := #[]
  next : Nat := 0
  /-- Every pattern is kept under the text it is compiled from. -/
  sound : ∀ entry ∈ entries, Pattern.compile entry.1 = .ok entry.2 := by simp

namespace Cache

/-- Number of patterns kept. -/
def capacity : Nat := 10

/-- The pattern kept for a text. -/
def lookup? (c : Cache) (source : String) : Option Pattern :=
  (c.entries.find? (·.1 == source)).map (·.2)

/-- Keep a pattern, in the place of the oldest one once the ring is full. -/
def insert (c : Cache) (source : String) (p : Pattern) (h : Pattern.compile source = .ok p) :
    Cache where
  entries :=
    if c.entries.size < capacity then c.entries.push (source, p)
    else c.entries.setIfInBounds c.next (source, p)
  next := (c.next + 1) % capacity
  sound entry he := by
    split at he
    · rcases Array.mem_push.mp he with hold | rfl
      · exact c.sound entry hold
      · exact h
    · rcases Array.mem_or_eq_of_mem_setIfInBounds he with hold | rfl
      · exact c.sound entry hold
      · exact h

/-- The pattern for a text, compiled if it is not kept. -/
def get (c : Cache) (source : String) : Except Error Pattern × Cache :=
  match c.lookup? source with
  | some p => (.ok p, c)
  | none =>
    match h : Pattern.compile source with
    | .ok p => (.ok p, c.insert source p h)
    | .error e => (.error e, c)

theorem compile_of_lookup? {c : Cache} {source : String} {p : Pattern}
    (h : c.lookup? source = some p) : Pattern.compile source = .ok p := by
  obtain ⟨entry, hfind, rfl⟩ := Option.map_eq_some_iff.mp h
  have hkey : entry.1 = source := by simpa using Array.find?_some hfind
  rw [← hkey]
  exact c.sound entry (Array.mem_of_find?_eq_some hfind)

/-- **A cache gives what compiling gives**, whatever it keeps. -/
theorem get_fst (c : Cache) (source : String) : (c.get source).1 = Pattern.compile source := by
  unfold get
  split
  · next h => exact (compile_of_lookup? h).symm
  · split
    · next h => exact h.symm
    · next h => exact h.symm

end Cache

end QuestScript.Pattern
