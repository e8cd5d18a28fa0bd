import QuestScript.Line

/-!
# The screen

What the player sees: two panels of text, a list of actions and a list of objects, with a selected
one each. Actions are told apart by their description in upper case. Both lists are limited.

Every operation that changes what is shown raises the flag of its part; a host reads and clears the
flags.
-/

namespace QuestScript

/-- An action the player can choose. -/
structure Action where
  description : String
  image : Option String
  code : List Line
  /-- The location whose code added it. -/
  location : Option String
deriving DecidableEq, Repr

/-- An object the player carries. -/
structure Object where
  name : String
  image : Option String
deriving DecidableEq, Repr

/-- Which parts have changed since the flags were last cleared. -/
structure Changes where
  main : Bool := false
  stat : Bool := false
  actions : Bool := false
  objects : Bool := false
deriving DecidableEq, Repr

/-- The parts of the screen that have a flag each. -/
inductive Panel where
  | main
  | stat
  | actions
  | objects
deriving DecidableEq, Repr

namespace Changes

/-- The flag of a panel. -/
def flag (c : Changes) : Panel → Bool
  | .main => c.main
  | .stat => c.stat
  | .actions => c.actions
  | .objects => c.objects

/-- The flags with that of one panel cleared. -/
def lower (c : Changes) : Panel → Changes
  | .main => { c with main := false }
  | .stat => { c with stat := false }
  | .actions => { c with actions := false }
  | .objects => { c with objects := false }

theorem flag_lower_self (c : Changes) (p : Panel) : (c.lower p).flag p = false := by cases p <;> rfl

theorem flag_lower_of_ne (c : Changes) {p q : Panel} (h : q ≠ p) : (c.lower q).flag p = c.flag p := by
  revert h
  cases p <;> cases q <;> simp [lower, flag]

end Changes

/-- The state of the screen. -/
structure Screen where
  mainText : String := ""
  statText : String := ""
  userInput : String := ""
  actions : List Action := []
  objects : List Object := []
  selectedAction : Option Nat := none
  selectedObject : Option Nat := none
  currentLocation : Option String := none
  changes : Changes := {}
deriving DecidableEq, Repr

namespace Screen

/-- Most actions on the screen. -/
def maxActions : Nat := 50

/-- Most objects on the screen. -/
def maxObjects : Nat := 1000

/-! ## Texts -/

def appendMain (s : Screen) (text : String) : Screen :=
  if text.isEmpty then s
  else { s with mainText := s.mainText ++ text, changes.main := true }

def setMain (s : Screen) (text : String) : Screen :=
  { s with mainText := text, changes.main := true }

def clearMain (s : Screen) : Screen :=
  if s.mainText.isEmpty then s else { s with mainText := "", changes.main := true }

def appendStat (s : Screen) (text : String) : Screen :=
  if text.isEmpty then s
  else { s with statText := s.statText ++ text, changes.stat := true }

def clearStat (s : Screen) : Screen :=
  if s.statText.isEmpty then s else { s with statText := "", changes.stat := true }

/-! ## Actions -/

/-- Index of the action with a description, whatever its case. -/
def actionIndex? (s : Screen) (description : String) : Option Nat :=
  s.actions.findIdx? fun a => Text.sameName a.description description

/-- Add an action unless one with its description is there. -/
def addAction (s : Screen) (a : Action) : Except Error Screen :=
  if (s.actionIndex? a.description).isSome then .ok s
  else if maxActions ≤ s.actions.length then .error ⟨.actionsFull, none⟩
  else .ok { s with actions := s.actions ++ [a], changes.actions := true }

/-- A selection after the item at `index` goes or a new one comes there: it ends if it was at or
after that place. -/
def unselectFrom (index : Nat) (selected : Option Nat) : Option Nat :=
  if selected.any (index ≤ ·) then none else selected

/-- Remove the action with a description. -/
def removeAction (s : Screen) (description : String) : Screen :=
  match s.actionIndex? description with
  | none => s
  | some index =>
    { s with
      selectedAction := unselectFrom index s.selectedAction
      actions := s.actions.eraseIdx index
      changes.actions := true }

/-- An action is added at the end, unless it is there already. -/
theorem addAction_eq_ok {s s' : Screen} {a : Action} (h : s.addAction a = .ok s') :
    s' = s ∨ s.actionIndex? a.description = none ∧ s.actions.length < maxActions ∧
      s' = { s with actions := s.actions ++ [a], changes.actions := true } := by
  unfold addAction at h
  split at h
  · cases h
    exact .inl rfl
  · next hnew =>
    split at h
    · cases h
    · next hroom =>
      cases h
      exact .inr ⟨by simpa using hnew, Nat.lt_of_not_le hroom, rfl⟩

/-- An action that is removed was there. -/
theorem removeAction_cases (s : Screen) (description : String) :
    s.removeAction description = s ∨
      ∃ index, index < s.actions.length ∧ s.removeAction description =
        { s with
          selectedAction := unselectFrom index s.selectedAction
          actions := s.actions.eraseIdx index
          changes.actions := true } := by
  unfold removeAction
  split
  · exact .inl rfl
  · next index hindex =>
    exact .inr ⟨index, (List.findIdx?_eq_some_iff_findIdx_eq.mp hindex).1, rfl⟩

def clearActions (s : Screen) : Screen :=
  let s := if s.actions.isEmpty then s else { s with actions := [], changes.actions := true }
  { s with selectedAction := none }

/-- The name and image of an item as the arguments of the statement that adds it. -/
def itemArgs (name : String) (image : Option String) : String :=
  match image with
  | some i => Text.singleQuoted name ++ "," ++ Text.singleQuoted i
  | none => Text.singleQuoted name

/-- The code of an action after its header: on the same line if it is a single line that is not
empty, and otherwise a block. -/
def actionBody : List Line → String
  | [] => "\nEND"
  | [l] => if l.text.isEmpty then "\nEND" else String.ofList l.text
  | ls => "\n" ++ String.intercalate "\n" (ls.map fun l => String.ofList l.text) ++ "\nEND"

/-- The actions as statements that add them. -/
def actionsAsCode (s : Screen) : String :=
  String.join (s.actions.map fun a =>
    "ACT " ++ itemArgs a.description a.image ++ ":" ++ actionBody a.code ++ "\n")

/-! ## Objects -/

/-- Index of the first object with a name, whatever its case. -/
def objectIndex? (s : Screen) (name : String) : Option Nat :=
  s.objects.findIdx? fun o => Text.sameName o.name name

/-- Add an object at a position, or at the end; `none` when the position is past the end. -/
def addObject (s : Screen) (o : Object) (position : Option Nat) : Except Error (Option Screen) :=
  let position := position.getD s.objects.length
  if s.objects.length < position then .ok none
  else if maxObjects ≤ s.objects.length then .error ⟨.objectsFull, none⟩
  else
    .ok (some { s with
      selectedObject := unselectFrom position s.selectedObject
      objects := s.objects.insertIdx position o
      changes.objects := true })

/-- Remove the object at an index, if there is one. -/
def removeObject (s : Screen) (index : Nat) : Option Object × Screen :=
  match s.objects[index]? with
  | none => (none, s)
  | some o =>
    (some o, { s with
      selectedObject := unselectFrom index s.selectedObject
      objects := s.objects.eraseIdx index
      changes.objects := true })

/-- An object is added within the list or at its end. -/
theorem addObject_eq_some {s s' : Screen} {o : Object} {position : Option Nat}
    (h : s.addObject o position = .ok (some s')) :
    ∃ place, place ≤ s.objects.length ∧ s.objects.length < maxObjects ∧
      s' = { s with
        selectedObject := unselectFrom place s.selectedObject
        objects := s.objects.insertIdx place o
        changes.objects := true } := by
  unfold addObject at h
  dsimp only at h
  split at h
  · cases h
  · next hplace =>
    split at h
    · cases h
    · next hroom =>
      cases h
      exact ⟨_, Nat.le_of_not_lt hplace, Nat.lt_of_not_le hroom, rfl⟩

/-- An object that is removed was there. -/
theorem removeObject_cases (s : Screen) (index : Nat) :
    (s.removeObject index).2 = s ∨
      index < s.objects.length ∧ (s.removeObject index).2 =
        { s with
          selectedObject := unselectFrom index s.selectedObject
          objects := s.objects.eraseIdx index
          changes.objects := true } := by
  unfold removeObject
  split
  · exact .inl rfl
  · next o ho => exact .inr ⟨(List.getElem?_eq_some_iff.mp ho).1, rfl⟩

/-- Remove all objects. -/
def takeObjects (s : Screen) : List Object × Screen :=
  let changed := s.changes.objects || !s.objects.isEmpty
  (s.objects, { s with objects := [], selectedObject := none, changes.objects := changed })

/-- The objects as statements that add them. -/
def objectsAsCode (s : Screen) : String :=
  String.join (s.objects.map fun o => "ADDOBJ " ++ itemArgs o.name o.image ++ "\n")

/-! ## The whole screen -/

/-- Forget everything that is shown. -/
def reset (s : Screen) : Screen :=
  let s := s.clearMain.clearStat.clearActions.takeObjects.2
  { s with userInput := "", currentLocation := none }

/-- The screen with all flags cleared. -/
def clearChanges (s : Screen) : Screen := { s with changes := {} }

end Screen

end QuestScript
