import QuestScript.Proofs.Screen.Law

/-!
# Tidy screens

Every operation on the screen keeps the lists of actions and objects within their limits, the actions
different, and the images of objects worth showing. So the screen of an engine is tidy whatever it has
been asked (`serveAll_tidy`).
-/

namespace QuestScript

namespace Screen

/-- The lists of a screen are within their limits, no two actions have one name, and no object has an
empty image. -/
structure Tidy (s : Screen) : Prop where
  actionRoom : s.actions.length ≤ maxActions
  distinct : s.actions.Pairwise fun a b => Text.sameName a.description b.description = false
  objectRoom : s.objects.length ≤ maxObjects
  images : ∀ o ∈ s.objects, o.image ≠ some ""

variable {s s' : Screen}

theorem tidy_empty : ({} : Screen).Tidy := ⟨by decide, .nil, by decide, nofun⟩

/-- Only the two lists matter. -/
theorem Tidy.congr (h : s.Tidy) (hactions : s'.actions = s.actions) (hobjects : s'.objects = s.objects) :
    s'.Tidy where
  actionRoom := hactions ▸ h.actionRoom
  distinct := hactions ▸ h.distinct
  objectRoom := hobjects ▸ h.objectRoom
  images := hobjects ▸ h.images

/-- Actions and objects may go. -/
theorem Tidy.sublist (h : s.Tidy) (hactions : s'.actions.Sublist s.actions)
    (hobjects : s'.objects.Sublist s.objects) : s'.Tidy where
  actionRoom := Nat.le_trans hactions.length_le h.actionRoom
  distinct := h.distinct.sublist hactions
  objectRoom := Nat.le_trans hobjects.length_le h.objectRoom
  images o ho := h.images o (hobjects.subset ho)

theorem Tidy.addAction {a : Action} (h : s.Tidy) (hadd : s.addAction a = .ok s') : s'.Tidy := by
  rcases addAction_eq_ok hadd with rfl | ⟨hnew, hroom, rfl⟩
  · exact h
  · have hother : ∀ b ∈ s.actions, Text.sameName b.description a.description = false := by
      rw [actionIndex?, List.findIdx?_eq_none_iff] at hnew
      exact hnew
    refine ⟨?_, ?_, h.objectRoom, h.images⟩
    · simp only [List.length_append, List.length_singleton]
      omega
    · rw [List.pairwise_append]
      exact ⟨h.distinct, List.pairwise_singleton _ _, by simpa using hother⟩

theorem Tidy.addObject {o : Object} {position : Option Nat} (h : s.Tidy) (himage : o.image ≠ some "")
    (hadd : s.addObject o position = .ok (some s')) : s'.Tidy := by
  obtain ⟨place, hle, hroom, rfl⟩ := addObject_eq_some hadd
  refine ⟨h.actionRoom, h.distinct, ?_, ?_⟩
  · rw [List.length_insertIdx_of_le_length hle]
    omega
  · intro o' ho'
    rcases (List.mem_insertIdx hle).mp ho' with rfl | ho'
    · exact himage
    · exact h.images o' ho'

theorem Tidy.clearActions (h : s.Tidy) : s.clearActions.Tidy := by
  unfold Screen.clearActions
  dsimp only
  split
  · exact h.congr rfl rfl
  · exact h.sublist (List.nil_sublist _) (List.Sublist.refl _)

theorem Tidy.ite {p : Prop} [Decidable p] (h : s.Tidy) (h' : s'.Tidy) :
    (if p then s else s').Tidy := by
  split
  · exact h
  · exact h'

/-- **Every operation keeps a screen tidy.** -/
theorem Change.tidy (hc : s.Change s') (h : s.Tidy) : s'.Tidy := by
  cases hc with
  | appendMain text => exact .ite h (h.congr rfl rfl)
  | setMain text => exact h.congr rfl rfl
  | clearMain => exact .ite h (h.congr rfl rfl)
  | appendStat text => exact .ite h (h.congr rfl rfl)
  | clearStat => exact .ite h (h.congr rfl rfl)
  | addAction hadd => exact h.addAction hadd
  | removeAction description =>
    rcases s.removeAction_cases description with heq | ⟨index, -, heq⟩
    · rw [heq]
      exact h
    · rw [heq]
      exact h.sublist (List.eraseIdx_sublist _ _) (List.Sublist.refl _)
  | clearActions => exact h.clearActions
  | addObject himage hadd => exact h.addObject himage hadd
  | removeObject index =>
    rcases s.removeObject_cases index with heq | ⟨-, heq⟩
    · rw [heq]
      exact h
    · rw [heq]
      exact h.sublist (List.Sublist.refl _) (List.eraseIdx_sublist _ _)
  | takeObjects => exact h.sublist (List.Sublist.refl _) (List.nil_sublist _)
  | unselectObject => exact h.congr rfl rfl
  | clearInput => exact h.congr rfl rfl

/-- Tidy screens stay tidy. -/
def tidiness : Law where
  Holds s s' := s.Tidy → s'.Tidy
  refl _ h := h
  trans h₁ h₂ h := h₂ (h₁ h)
  change hc h := hc.tidy h
  location _ _ h := h.congr rfl rfl
  input _ _ h := h.congr rfl rfl
  selectAction _ h := h.congr rfl rfl
  selectObject _ h := h.congr rfl rfl

end Screen

namespace Engine

variable {e : Engine}

theorem serve_tidy (hsite : e.machine.errorSite = none) (h : e.machine.screen.Tidy) (r : Request) :
    (e.serve r).2.machine.screen.Tidy := by
  by_cases hr : r = .takeChanges
  · subst hr
    exact h.congr rfl rfl
  · exact serve_law Screen.tidiness hsite hr h

/-- **The screen of an engine is always tidy.** -/
theorem serveAll_tidy {config : Config} (hs : e.Settled config) (h : e.machine.screen.Tidy)
    (rs : List Request) : (e.serveAll rs).machine.screen.Tidy := by
  induction rs generalizing e with
  | nil => exact h
  | cons r rs ih => exact ih (serve_settled hs r) (serve_tidy hs.noSite h r)

end Engine

end QuestScript
