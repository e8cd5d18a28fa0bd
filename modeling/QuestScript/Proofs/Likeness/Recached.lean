import QuestScript.Proofs.Likeness.Block

/-!
# Machines with different caches

Which expressions a machine has kept compiled cannot be told from what it does: two machines that differ
in nothing else do the same and differ in nothing else afterwards.
-/

namespace QuestScript

/-- The same machine, but for the expressions it has kept. -/
def Machine.Recached (m m' : Machine) : Prop := ∃ cache, m' = { m with expressions := cache }

namespace Machine.Recached

variable {m m' m'' : Machine}

/-- The cache of a machine is one of those that it may have. -/
theorem refl (m : Machine) : m.Recached m := ⟨m.expressions, rfl⟩

theorem symm (h : m.Recached m') : m'.Recached m := by
  obtain ⟨cache, rfl⟩ := h
  exact ⟨m.expressions, rfl⟩

theorem trans (h : m.Recached m') (h' : m'.Recached m'') : m.Recached m'' := by
  obtain ⟨cache, rfl⟩ := h
  obtain ⟨cache', rfl⟩ := h'
  exact ⟨cache', rfl⟩

end Machine.Recached

/-- Machines that differ in the expressions they have kept, before and after every step. -/
def recached : Likeness where
  ok m m' := m.Recached m'
  err _ m m' := m.Recached m'
  agrees := by
    rintro m _ ⟨cache, rfl⟩
    exact { Machine.Agrees.refl m with }
  agrees_err := by
    rintro _ m _ ⟨cache, rfl⟩
    exact { Machine.Agrees.refl m with }
  moves := by
    rintro m₁ _ m₂ _ ⟨cache, rfl⟩ ⟨cache', rfl⟩
    exact Iff.rfl
  fail _ h := h
  bindings := by
    rintro m _ saves vars ⟨cache, rfl⟩
    exact ⟨cache, rfl⟩
  bindings_err := by
    rintro _ m _ saves vars ⟨cache, rfl⟩
    exact ⟨cache, rfl⟩
  screen := by
    rintro m _ f _ ⟨cache, rfl⟩
    exact ⟨cache, rfl⟩
  host := by
    rintro m _ host _ ⟨cache, rfl⟩
    exact ⟨cache, rfl⟩
  rng := by
    rintro m _ rng ⟨cache, rfl⟩
    exact ⟨cache, rfl⟩
  expressions := by
    rintro m _ f ⟨cache, rfl⟩
    exact ⟨f cache, rfl⟩
  patterns := by
    rintro m _ f ⟨cache, rfl⟩
    exact ⟨cache, rfl⟩
  site := by
    rintro m _ site ⟨cache, rfl⟩
    exact ⟨cache, rfl⟩
  back := by
    rintro m₁ _ m₂ _ ⟨cache, rfl⟩ ⟨cache', rfl⟩
    exact ⟨cache', rfl⟩
  back_err := by
    rintro _ m₁ _ m₂ _ ⟨cache, rfl⟩ ⟨cache', rfl⟩
    exact ⟨cache', rfl⟩
  mark := by
    rintro e m _ ⟨cache, rfl⟩
    refine ⟨cache, ?_⟩
    unfold Machine.markError
    split
    · rfl
    · rfl
  enter := by
    rintro m _ _ ⟨cache, rfl⟩
    exact ⟨cache, rfl⟩
  exit := by
    rintro m _ ⟨cache, rfl⟩
    exact ⟨cache, rfl⟩
  exit_err := by
    rintro _ m _ ⟨cache, rfl⟩
    exact ⟨cache, rfl⟩
  move := by
    rintro m _ ⟨cache, rfl⟩
    exact ⟨cache, rfl⟩

namespace Run

variable {source : List Char}

/-- Compiling gives what the compiler gives, and only the cache has changed after it. -/
theorem compiled_ok {code : Code} (h : compile source = .ok code) (m : Machine) :
    ∃ m', compiled source m = .done code m' ∧ m.Recached m' := by
  have hfst := m.expressions.get_fst (String.ofList source)
  rw [String.toList_ofList, h] at hfst
  unfold compiled
  generalize m.expressions.get (String.ofList source) = r at hfst ⊢
  obtain ⟨r, cache⟩ := r
  obtain rfl : r = .ok code := hfst
  exact ⟨_, rfl, cache, rfl⟩

/-- The same for a text that does not compile. It is looked for in the cache as well. -/
theorem compiled_error {e : SourceError} (h : compile source = .error e) (m : Machine) :
    ∃ m', compiled source m = .failed e.error m' ∧ m.Recached m' := by
  have hfst := m.expressions.get_fst (String.ofList source)
  rw [String.toList_ofList, h] at hfst
  unfold compiled
  generalize m.expressions.get (String.ofList source) = r at hfst ⊢
  obtain ⟨r, cache⟩ := r
  obtain rfl : r = .error e := hfst
  exact ⟨_, rfl, cache, rfl⟩

end Run

end QuestScript
