import QuestScript.Proofs.Screen.Law

/-!
# Flags miss no change

A host shows a panel anew when its flag is raised, and it asks for each flag on its own. Between two
times it asks for one, whatever else it does, the flag is raised by every operation that changes the
panel and lowered by none. This is a law of the screen (`Screen.flagging`), which a request for another
flag keeps as well. So if a panel is not what it was, its flag is up.
-/

namespace QuestScript

namespace Screen

/-- A panel shows the same on two screens: the same text, or the same items in the same order. -/
def Same (p : Panel) (s s' : Screen) : Prop :=
  match p with
  | .main => s'.mainText = s.mainText
  | .stat => s'.statText = s.statText
  | .actions => s'.actions = s.actions
  | .objects => s'.objects = s.objects

instance (p : Panel) (s s' : Screen) : Decidable (s.Same p s') :=
  match p with
  | .main => inferInstanceAs (Decidable (s'.mainText = s.mainText))
  | .stat => inferInstanceAs (Decidable (s'.statText = s.statText))
  | .actions => inferInstanceAs (Decidable (s'.actions = s.actions))
  | .objects => inferInstanceAs (Decidable (s'.objects = s.objects))

/-- The flag of a panel is raised in the end, or neither the panel nor its flag has changed. -/
def Flagged (p : Panel) (s s' : Screen) : Prop :=
  s'.changes.flag p = true ∨ s.Same p s' ∧ s'.changes.flag p = s.changes.flag p

variable {p : Panel} {s s' s₁ s₂ s₃ : Screen}

theorem Same.trans (h₁ : s₁.Same p s₂) (h₂ : s₂.Same p s₃) : s₁.Same p s₃ := by
  cases p with
  | main => exact Eq.trans h₂ h₁
  | stat => exact Eq.trans h₂ h₁
  | actions => exact Eq.trans h₂ h₁
  | objects => exact Eq.trans h₂ h₁

theorem flagged_refl (p : Panel) (s : Screen) : s.Flagged p s := by
  cases p <;> simp [Flagged, Same]

/-- A flag that is up stays up, so it is enough that one of two changes raises it. -/
theorem Flagged.trans (h₁ : s₁.Flagged p s₂) (h₂ : s₂.Flagged p s₃) : s₁.Flagged p s₃ := by
  rcases h₂ with hup | ⟨hsame₂, hflag₂⟩
  · exact .inl hup
  · rcases h₁ with hup | ⟨hsame₁, hflag₁⟩
    · exact .inl (hflag₂.trans hup)
    · exact .inr ⟨hsame₁.trans hsame₂, hflag₂.trans hflag₁⟩

theorem Flagged.ite {c : Prop} [Decidable c] {t : Screen} (h : s.Flagged p s') (h' : s.Flagged p t) :
    s.Flagged p (if c then s' else t) := by
  split
  · exact h
  · exact h'

/-! ## Operations -/

theorem flagged_main (p : Panel) (s : Screen) (text : String) :
    s.Flagged p { s with mainText := text, changes.main := true } := by
  cases p <;> simp [Flagged, Same, Changes.flag]

theorem flagged_stat (p : Panel) (s : Screen) (text : String) :
    s.Flagged p { s with statText := text, changes.stat := true } := by
  cases p <;> simp [Flagged, Same, Changes.flag]

theorem flagged_actions (p : Panel) (s : Screen) (selected : Option Nat) (actions : List Action) :
    s.Flagged p { s with selectedAction := selected, actions, changes.actions := true } := by
  cases p <;> simp [Flagged, Same, Changes.flag]

theorem flagged_objects (p : Panel) (s : Screen) (selected : Option Nat) (objects : List Object) :
    s.Flagged p { s with selectedObject := selected, objects, changes.objects := true } := by
  cases p <;> simp [Flagged, Same, Changes.flag]

/-- What is selected, where the player is and what is typed are on no panel. -/
theorem flagged_aside (p : Panel) (s : Screen) (action object : Option Nat) (input : String)
    (location : Option String) :
    s.Flagged p { s with
      selectedAction := action, selectedObject := object, userInput := input
      currentLocation := location } := by
  cases p <;> simp [Flagged, Same]

/-- An action that is there already changes nothing, and a new one raises the flag. -/
theorem flagged_addAction {a : Action} (h : s.addAction a = .ok s') : s.Flagged p s' := by
  rcases addAction_eq_ok h with rfl | ⟨-, -, rfl⟩
  · exact flagged_refl p _
  · exact flagged_actions p s s.selectedAction _

/-- The flag is raised if there is an action to remove. -/
theorem flagged_removeAction (p : Panel) (s : Screen) (description : String) :
    s.Flagged p (s.removeAction description) := by
  rcases s.removeAction_cases description with heq | ⟨index, -, heq⟩
  · rw [heq]
    exact flagged_refl p s
  · rw [heq]
    exact flagged_actions p s _ _

/-- The flag is raised if there are actions to clear. -/
theorem flagged_clearActions (p : Panel) (s : Screen) : s.Flagged p s.clearActions := by
  unfold clearActions
  dsimp only
  split
  · exact flagged_aside p s none _ _ _
  · exact flagged_actions p s none []

/-- An object that is added raises the flag, at the end or in between. -/
theorem flagged_addObject {o : Object} {position : Option Nat}
    (h : s.addObject o position = .ok (some s')) : s.Flagged p s' := by
  obtain ⟨place, -, -, rfl⟩ := addObject_eq_some h
  exact flagged_objects p s _ _

/-- The same for an object that is removed. What is selected may move with it. -/
theorem flagged_removeObject (p : Panel) (s : Screen) (index : Nat) :
    s.Flagged p (s.removeObject index).2 := by
  rcases s.removeObject_cases index with heq | ⟨-, heq⟩
  · rw [heq]
    exact flagged_refl p s
  · rw [heq]
    exact flagged_objects p s _ _

/-- The flag is not raised when there was nothing to take. -/
theorem flagged_takeObjects (p : Panel) (s : Screen) : s.Flagged p s.takeObjects.2 := by
  unfold takeObjects
  cases hobjects : s.objects with
  | nil => cases p <;> simp [Flagged, Same, Changes.flag, hobjects]
  | cons o objects => cases p <;> simp [Flagged, Same, Changes.flag]

/-- **Every operation that changes a panel raises its flag**, and none lowers a flag. -/
theorem Change.flagged (hc : s.Change s') (p : Panel) : s.Flagged p s' := by
  cases hc with
  | appendMain text => exact .ite (flagged_refl p s) (flagged_main p s _)
  | setMain text => exact flagged_main p s text
  | clearMain => exact .ite (flagged_refl p s) (flagged_main p s _)
  | appendStat text => exact .ite (flagged_refl p s) (flagged_stat p s _)
  | clearStat => exact .ite (flagged_refl p s) (flagged_stat p s _)
  | addAction h => exact flagged_addAction h
  | removeAction description => exact flagged_removeAction p s description
  | clearActions => exact flagged_clearActions p s
  | addObject _ h => exact flagged_addObject h
  | removeObject index => exact flagged_removeObject p s index
  | takeObjects => exact flagged_takeObjects p s
  | unselectObject => exact flagged_aside p s _ none _ _
  | clearInput => exact flagged_aside p s _ _ "" _

/-- No change of a panel goes without its flag. -/
def flagging (p : Panel) : Law where
  Holds s s' := s.Flagged p s'
  refl := flagged_refl p
  trans := Flagged.trans
  change hc := hc.flagged p
  location s name := flagged_aside p s _ _ _ name
  input s text := flagged_aside p s _ _ text _
  selectAction {s index} _ := flagged_aside p s (some index) _ _ _
  selectObject {s index} _ := flagged_aside p s _ (some index) _ _

end Screen

namespace Engine

/-! ## Hosts that ask for flags -/

/-- What a host does with an engine: it makes a request, or asks for the flag of one panel. -/
inductive Visit where
  | request (r : Request)
  | ask (p : Panel)

/-- Whether the flag of a panel is read, and so cleared. -/
def Visit.Reads (p : Panel) : Visit → Prop
  | .request r => r = .takeChanges
  | .ask q => q = p

/-- The engine after a visit. -/
def visit (e : Engine) : Visit → Engine
  | .request r => (e.serve r).2
  | .ask p => (e.takeChange p).2

/-- The engine after a sequence of visits. -/
def visitAll (e : Engine) (vs : List Visit) : Engine := vs.foldl visit e

variable {config : Config} {e : Engine} {p : Panel}

/-- An engine is settled after whatever a host asks of it. -/
theorem visit_settled (h : e.Settled config) (v : Visit) : (e.visit v).Settled config := by
  cases v with
  | request r => exact serve_settled h r
  | ask p => exact ⟨h.limits, h.config, h.atRest, h.noSite⟩

theorem visitAll_settled (h : e.Settled config) (vs : List Visit) : (e.visitAll vs).Settled config := by
  induction vs generalizing e with
  | nil => exact h
  | cons v vs ih => exact ih (visit_settled h v)

/-- To ask for one flag lowers that flag and no other. -/
theorem takeChange_flagged (e : Engine) {q : Panel} (h : q ≠ p) :
    e.machine.screen.Flagged p (e.takeChange q).2.machine.screen := by
  refine .inr ⟨?_, Changes.flag_lower_of_ne _ h⟩
  cases p <;> rfl

/-- A host that does not ask for the flag finds it up after a change. -/
theorem visit_flagged (h : e.machine.errorSite = none) {v : Visit} (hv : ¬v.Reads p) :
    e.machine.screen.Flagged p (e.visit v).machine.screen := by
  cases v with
  | request r => exact serve_law (Screen.flagging p) h hv
  | ask q => exact e.takeChange_flagged hv

/-- By induction on what the host does. -/
theorem visitAll_flagged (h : e.Settled config) {vs : List Visit} (hvs : ∀ v ∈ vs, ¬v.Reads p) :
    e.machine.screen.Flagged p (e.visitAll vs).machine.screen := by
  induction vs generalizing e with
  | nil => exact Screen.flagged_refl p _
  | cons v vs ih =>
    have hfirst := visit_flagged h.noSite (hvs v List.mem_cons_self)
    exact hfirst.trans (ih (visit_settled h v) fun w hw => hvs w (List.mem_cons_of_mem _ hw))

/-- **The flags miss no change.** A host asks for the flag of a panel, which clears it, then does whatever
it likes but ask for this flag, and then asks again. If the panel is not what it was the first time, the
second answer is that it has changed. -/
theorem takeChange_of_not_same (config : Config) (host : Host) (p : Panel) (before between : List Visit)
    (hbetween : ∀ v ∈ between, ¬v.Reads p) :
    let first := (new config host).visitAll before
    let asked := (first.takeChange p).2
    let second := asked.visitAll between
    (asked.takeChange p).1 = false ∧
      (¬first.machine.screen.Same p second.machine.screen → (second.takeChange p).1 = true) := by
  intro first asked second
  refine ⟨Changes.flag_lower_self _ p, fun hdiffers => ?_⟩
  have hasked : asked.Settled config :=
    visit_settled (visitAll_settled (new_settled config host) before) (.ask p)
  rcases visitAll_flagged hasked hbetween with hup | ⟨hsame, -⟩
  · exact hup
  · -- the first question changes nothing on the panel itself
    have hshown : first.machine.screen.Same p asked.machine.screen := by cases p <;> rfl
    exact absurd (hshown.trans hsame) hdiffers

/-- An object is gone, and another flag was asked for in between. -/
theorem takeChange_of_not_same_sample :
    let first := (new {} {}).visitAll [.request (.entry (.run "ADDOBJ 'key'"))]
    let asked := (first.takeChange .objects).2
    let second := asked.visitAll [.request (.entry (.run "DELOBJ 'KEY'")), .ask .main]
    ¬first.machine.screen.Same .objects second.machine.screen ∧
      (asked.takeChange .objects).1 = false ∧ (second.takeChange .objects).1 = true := by
  intro first asked second
  have hdiffers : ¬first.machine.screen.Same .objects second.machine.screen := by decide +kernel
  obtain ⟨hasked, hsecond⟩ := takeChange_of_not_same {} {} .objects
    [.request (.entry (.run "ADDOBJ 'key'"))]
    [.request (.entry (.run "DELOBJ 'KEY'")), .ask .main] (by simp [Visit.Reads])
  exact ⟨hdiffers, hasked, hsecond hdiffers⟩

end Engine

end QuestScript
