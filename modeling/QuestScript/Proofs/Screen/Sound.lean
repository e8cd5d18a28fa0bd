import Mathlib.Logic.Relation
import QuestScript.Proofs.Screen.Tidy

/-!
# Sound screens

A selection is an index into a list that statements change at any place, in the midst of the code of an
action or of a hook. A screen is sound if it is tidy and each selection leads to an item. Items are added
and removed with the selection looked after (`Change.sound`), so the screen of an engine is always sound,
and so is every screen that its code meets on the way (`steps_sound`).
-/

namespace QuestScript

namespace Screen

/-- The lists of a screen are within their limits, no two actions have one name, and what is selected
is there. -/
structure Sound (s : Screen) : Prop extends Tidy s where
  action : ∀ index ∈ s.selectedAction, index < s.actions.length
  object : ∀ index ∈ s.selectedObject, index < s.objects.length

variable {s s' : Screen}

theorem sound_empty : ({} : Screen).Sound := ⟨tidy_empty, nofun, nofun⟩

/-- Only the two lists and the selections matter. -/
theorem Sound.congr (h : s.Sound) (hactions : s'.actions = s.actions) (hobjects : s'.objects = s.objects)
    (haction : s'.selectedAction = s.selectedAction) (hobject : s'.selectedObject = s.selectedObject) :
    s'.Sound where
  toTidy := h.toTidy.congr hactions hobjects
  action := by
    rw [hactions, haction]
    exact h.action
  object := by
    rw [hobjects, hobject]
    exact h.object

theorem Sound.ite {p : Prop} [Decidable p] (h : s.Sound) (h' : s'.Sound) :
    (if p then s else s').Sound := by
  split
  · exact h
  · exact h'

/-! ## Selections -/

/-- A selection that stays is before the place of the change. -/
theorem lt_of_mem_unselectFrom {place index : Nat} {selected : Option Nat}
    (h : index ∈ unselectFrom place selected) : index < place := by
  unfold unselectFrom at h
  split at h
  · cases h
  · next hany =>
    cases h
    simpa using hany

theorem Sound.addAction {a : Action} (h : s.Sound) (hadd : s.addAction a = .ok s') : s'.Sound := by
  have htidy := h.toTidy.addAction hadd
  rcases addAction_eq_ok hadd with rfl | ⟨-, -, rfl⟩
  · exact h
  · refine ⟨htidy, fun index hindex => ?_, h.object⟩
    have := h.action index hindex
    simp only [List.length_append, List.length_singleton]
    omega

theorem Sound.removeAction (h : s.Sound) (description : String) : (s.removeAction description).Sound := by
  have htidy := (Change.removeAction description).tidy h.toTidy
  rcases s.removeAction_cases description with heq | ⟨place, hlt, heq⟩
  · rw [heq]
    exact h
  · rw [heq] at htidy ⊢
    refine ⟨htidy, fun index hindex => ?_, h.object⟩
    have := lt_of_mem_unselectFrom hindex
    rw [List.length_eraseIdx_of_lt hlt]
    omega

theorem Sound.clearActions (h : s.Sound) : s.clearActions.Sound where
  toTidy := h.toTidy.clearActions
  action := nofun
  object := by
    unfold Screen.clearActions
    dsimp only
    split
    · exact h.object
    · exact h.object

theorem Sound.addObject {o : Object} {position : Option Nat} (h : s.Sound) (himage : o.image ≠ some "")
    (hadd : s.addObject o position = .ok (some s')) : s'.Sound := by
  have htidy := h.toTidy.addObject himage hadd
  obtain ⟨place, hle, -, rfl⟩ := addObject_eq_some hadd
  refine ⟨htidy, h.action, fun index hindex => ?_⟩
  have := lt_of_mem_unselectFrom hindex
  rw [List.length_insertIdx_of_le_length hle]
  omega

theorem Sound.removeObject (h : s.Sound) (place : Nat) : (s.removeObject place).2.Sound := by
  have htidy := (Change.removeObject place).tidy h.toTidy
  rcases s.removeObject_cases place with heq | ⟨hlt, heq⟩
  · rw [heq]
    exact h
  · rw [heq] at htidy ⊢
    refine ⟨htidy, h.action, fun index hindex => ?_⟩
    have := lt_of_mem_unselectFrom hindex
    rw [List.length_eraseIdx_of_lt hlt]
    omega

/-- **Every operation keeps a screen sound.** -/
theorem Change.sound (hc : s.Change s') (h : s.Sound) : s'.Sound := by
  have htidy := hc.tidy h.toTidy
  cases hc with
  | appendMain text => exact .ite h (h.congr rfl rfl rfl rfl)
  | setMain text => exact h.congr rfl rfl rfl rfl
  | clearMain => exact .ite h (h.congr rfl rfl rfl rfl)
  | appendStat text => exact .ite h (h.congr rfl rfl rfl rfl)
  | clearStat => exact .ite h (h.congr rfl rfl rfl rfl)
  | addAction hadd => exact h.addAction hadd
  | removeAction description => exact h.removeAction description
  | clearActions => exact h.clearActions
  | addObject himage hadd => exact h.addObject himage hadd
  | removeObject index => exact h.removeObject index
  | takeObjects => exact ⟨htidy, h.action, nofun⟩
  | unselectObject => exact ⟨htidy, h.action, nofun⟩
  | clearInput => exact h.congr rfl rfl rfl rfl

/-- Sound screens stay sound. -/
def soundness : Law where
  Holds s s' := s.Sound → s'.Sound
  refl _ h := h
  trans h₁ h₂ h := h₂ (h₁ h)
  change hc h := hc.sound h
  location _ _ h := h.congr rfl rfl rfl rfl
  input _ _ h := h.congr rfl rfl rfl rfl
  selectAction hlt h := ⟨h.toTidy.congr rfl rfl, fun _ hindex => by cases hindex; exact hlt, h.object⟩
  selectObject hlt h := ⟨h.toTidy.congr rfl rfl, h.action, fun _ hindex => by cases hindex; exact hlt⟩

/-! ## Steps -/

/-- A step from one screen to the next, whatever the engine or the machine is otherwise. Besides whole
requests and statements, these are the parts of them between which other code may run: hooks follow an
operation, the code of an action its selection, and that of a location the change to it. -/
inductive Step : Screen → Screen → Prop
  | request {e : Engine} (h : e.machine.errorSite = none) (r : Engine.Request) :
      Step e.machine.screen (e.serve r).2.machine.screen
  | statements {n : Nat} {line : Line} {start stop : Nat} {m m' : Machine} {flow : Flow}
      (h : (Calls.ofFuel n).statements line start stop m = .done flow m') : Step m.screen m'.screen
  | failing {n : Nat} {line : Line} {start stop : Nat} {m m' : Machine} {error : Error}
      (h : (Calls.ofFuel n).statements line start stop m = .failed error m') : Step m.screen m'.screen
  | operation {s s' : Screen} (h : s.Change s') : Step s s'
  | selection (x : Engine.Entry) (s : Screen) : Step s (x.prepare s)
  | departure (target : String) (m : Machine) : Step m.screen (Machine.leave target m).screen

/-- Every step keeps a screen sound. -/
theorem Step.sound (hs : s.Step s') (h : s.Sound) : s'.Sound := by
  have hobey (n : Nat) := Calls.ofFuel_obey soundness.discipline n
  cases hs with
  | request hsite r =>
    by_cases hr : r = .takeChanges
    · subst hr
      exact h.congr rfl rfl rfl rfl
    · exact Engine.serve_law soundness hsite hr h
  | @statements n line start stop m _ _ hrun =>
    have hm := (hobey n).statements line start stop m
    rw [hrun] at hm
    exact hm h
  | @failing n line start stop m _ _ hrun =>
    have hm := (hobey n).statements line start stop m
    rw [hrun] at hm
    exact hm h
  | operation hc => exact hc.sound h
  | selection x s => exact soundness.prepare x s h
  | departure target m => exact soundness.leave target m h

theorem sound_of_steps (hs : Relation.ReflTransGen Step s s') (h : s.Sound) : s'.Sound := by
  induction hs with
  | refl => exact h
  | tail _ hstep ih => exact hstep.sound ih

end Screen

namespace Engine

/-- The requests that an engine serves are steps of its screen. -/
theorem steps_serveAll {config : Config} {e : Engine} (hs : e.Settled config) (rs : List Request) :
    Relation.ReflTransGen Screen.Step e.machine.screen (e.serveAll rs).machine.screen := by
  induction rs generalizing e with
  | nil => exact .refl
  | cons r rs ih => exact .head (.request hs.noSite r) (ih (serve_settled hs r))

/-- **Screens are sound at all times.** Whatever a new engine has been asked, and whatever requests and
statements lead on from there: there are no more actions and objects than allowed, no two actions have
one name, and the selected action and the selected object, if any, are there. -/
theorem steps_sound (config : Config) (host : Host) (rs : List Request) {s : Screen}
    (h : Relation.ReflTransGen Screen.Step ((new config host).serveAll rs).machine.screen s) :
    s.actions.length ≤ 50 ∧ s.objects.length ≤ 1000 ∧
      (s.actions.Pairwise fun a b =>
        Text.upper a.description.toList ≠ Text.upper b.description.toList) ∧
      (∀ index ∈ s.selectedAction, index < s.actions.length) ∧
      ∀ index ∈ s.selectedObject, index < s.objects.length := by
  have hsteps := (steps_serveAll (new_settled config host) rs).trans h
  have hsound := Screen.sound_of_steps hsteps Screen.sound_empty
  refine ⟨hsound.actionRoom, hsound.objectRoom, ?_, hsound.action, hsound.object⟩
  exact hsound.distinct.imp fun hne => by simpa [Text.sameName] using hne

/-- An action and an object are selected; then the action goes. -/
theorem steps_sound_sample :
    let e := (new {} {}).serveAll
      [.entry (.run "ADDOBJ 'key' & ACT 'Open': P 1"), .entry (.select 0), .entry (.act 0)]
    let s := e.machine.screen.removeAction "OPEN"
    (e.machine.screen.selectedAction = some 0 ∧ e.machine.screen.selectedObject = some 0) ∧
      s.actions.length ≤ 50 ∧ s.objects.length ≤ 1000 ∧
      (s.actions.Pairwise fun a b =>
        Text.upper a.description.toList ≠ Text.upper b.description.toList) ∧
      (∀ index ∈ s.selectedAction, index < s.actions.length) ∧
      ∀ index ∈ s.selectedObject, index < s.objects.length := by
  intro e s
  exact ⟨by decide +kernel, steps_sound {} {} _ (.single (.operation (.removeAction "OPEN")))⟩

end Engine

end QuestScript
