import QuestScript.Proofs.Requests

/-!
# Laws of the screen

A law relates the screen before a request to the screen after it. It is enough to know it of the
single operations: statements change the screen by nothing else, and what an entry or a change of
location does besides is to select an item and to note the location. `Engine.serve_law` draws the
conclusion for every request but the one that reads and clears the flags.
-/

namespace QuestScript

/-- A relation between two screens that all operations on the screen respect. -/
structure Screen.Law where
  Holds : Screen → Screen → Prop
  refl (s : Screen) : Holds s s
  trans {s₁ s₂ s₃ : Screen} : Holds s₁ s₂ → Holds s₂ s₃ → Holds s₁ s₃
  change {s s' : Screen} : s.Change s' → Holds s s'
  location (s : Screen) (name : Option String) : Holds s { s with currentLocation := name }
  input (s : Screen) (text : String) : Holds s { s with userInput := text }
  selectAction {s : Screen} {index : Nat} :
    index < s.actions.length → Holds s { s with selectedAction := some index }
  selectObject {s : Screen} {index : Nat} :
    index < s.objects.length → Holds s { s with selectedObject := some index }

namespace Screen.Law

variable (L : Law)

/-- A reset is made of operations that the law knows. -/
theorem reset (s : Screen) : L.Holds s s.reset := by
  have hpanels := L.trans (L.change .clearMain) (L.change (s := s.clearMain) .clearStat)
  have hactions := L.trans hpanels (L.change .clearActions)
  have hobjects := L.trans hactions (L.change .takeObjects)
  exact L.trans (L.trans hobjects (L.input _ "")) (L.location _ none)

/-- So is what a change of location does to the screen. -/
theorem leave (target : String) (m : Machine) : L.Holds m.screen (Machine.leave target m).screen := by
  have hclear : L.Holds m.screen m.screen.clearActions := L.change .clearActions
  unfold Machine.leave
  dsimp only
  split
  · exact L.trans hclear (L.location _ _)
  · exact L.trans (L.trans hclear (L.change .clearStat)) (L.location _ _)

/-- And what an entry does before it runs anything. -/
theorem prepare (x : Engine.Entry) (s : Screen) : L.Holds s (x.prepare s) := by
  cases x with
  | act index =>
    unfold Engine.Entry.prepare
    dsimp only
    split
    · next h => exact L.selectAction h
    · exact L.refl s
  | select index =>
    unfold Engine.Entry.prepare
    dsimp only
    split
    · exact L.refl s
    · next h => exact L.selectObject (Nat.lt_of_not_le h)
  | _ => exact L.refl s

/-- The discipline of runs that keep a law, however they end. -/
def discipline : Discipline where
  ok m m' := L.Holds m.screen m'.screen
  err m m' := L.Holds m.screen m'.screen
  ok_refl m := L.refl m.screen
  ok_trans := L.trans
  err_refl m := L.refl m.screen
  err_trans := L.trans
  vars {m} _ _ := L.refl m.screen
  screen := L.change
  host m _ := L.refl m.screen
  rng m _ := L.refl m.screen
  expressions m _ := L.refl m.screen
  patterns m _ := L.refl m.screen
  site m _ := L.refl m.screen
  err_site _ h := h
  err_mark _ h := h
  localize m _ := L.refl m.screen
  group_ok h := h
  group_err h := h
  call_ok h := h
  call_err h := h
  leave_err {m _} target h := L.trans (L.leave target m) h

end Screen.Law

namespace Engine

variable {e : Engine} (L : Screen.Law)

/-- What is run in an entry keeps the law as a discipline. -/
theorem enter_law {α : Type} {x : Run α} (hx : x.Obeys L.discipline) (e : Engine) :
    L.Holds e.machine.screen (e.enter x).2.machine.screen := by
  have hm := hx { e.machine with errorSite := none }
  unfold enter
  cases hr : x { e.machine with errorSite := none } with
  | done a m =>
    rw [hr] at hm
    exact hm
  | outOfFuel => exact L.refl _
  | failed error m =>
    rw [hr] at hm
    dsimp only
    split
    · exact hm
    · exact hm

theorem set_screen (e : Engine) (name : String) (index v : Value) :
    (e.set name index v).2.machine.screen = e.machine.screen := by
  unfold set
  split
  · rfl
  · split
    · rfl
    · rfl

/-- **Every request keeps every law**, unless it clears the flags. -/
theorem serve_law (h : e.machine.errorSite = none) {r : Request} (hr : r ≠ .takeChanges) :
    L.Holds e.machine.screen (e.serve r).2.machine.screen := by
  cases r with
  | entry x =>
    rw [serve_entry h]
    have hbody := x.body_obeys L.leave (Calls.ofFuel_obey L.discipline fuel)
    exact L.trans (L.prepare x e.machine.screen) (enter_law L hbody (e.prepared x))
  | set name index v =>
    show L.Holds e.machine.screen (e.set name index v).2.machine.screen
    rw [set_screen]
    exact L.refl _
  | setInput text => exact L.input _ text
  | takeChanges => exact absurd rfl hr
  | takeCalls => exact L.refl _
  | clearError => exact L.refl _
  | answers host => exact L.refl _
  | reset => exact L.reset _
  | load world => exact L.reset _

end Engine

end QuestScript
