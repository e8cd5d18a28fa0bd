import QuestScript.Machine.Statement
import QuestScript.Proofs.Likeness.Eval

/-!
# Statements go alike

One lemma for each function that runs an assignment or a statement. Here the changes of the screen
are made, none of which depends on the flags that are raised.
-/

namespace QuestScript.Machine

open Run

variable {L : Likeness} {c d : Calls}

/-! ## Assignments -/

/-- An index is evaluated by both sides, or it is there without evaluation. -/
theorem indexValue_alike (hc : c.Alike L d) (index : Option Target.Index) :
    Alike L (indexValue c index) (indexValue d index) := by
  cases index with
  | none => exact alike_pure _
  | some index =>
    cases index with
    | append => exact alike_pure _
    | value source => exact (hc.eval source).bind fun _ => alike_pure _
    | single source => exact (hc.eval source).bind fun _ => alike_pure _

/-- The item that is appended stands behind as many items on both sides. -/
theorem assignTarget_alike (hc : c.Alike L d) (target : List Char) (op : AssignOp) (v : Value) :
    Alike L (assignTarget c target op v) (assignTarget d target op v) := by
  refine (alike_ofExcept _).bind fun read => (indexValue_alike hc _).bind fun index => ?_
  cases index with
  | some index => exact alike_onVars _
  | none => exact alike_onVars _

theorem assignEach_alike (hc : c.Alike L d) (op : AssignOp) (v : Value)
    (targets : List (List Char)) : Alike L (assignEach c op v targets) (assignEach d op v targets) := by
  induction targets with
  | nil => exact alike_pure _
  | cons target rest ih => exact (assignTarget_alike hc target op v).bind fun _ => ih

theorem itemFor_alike (target : List Char) (v : Option Value) :
    Alike L (itemFor target v) (itemFor target v) := by
  cases v with
  | some v => exact alike_pure v
  | none => exact (alike_name _).bind fun _ => alike_pure _

/-- Along the targets and the items, as the assignment goes. -/
theorem assignItems_alike (hc : c.Alike L d) (op : AssignOp) (items : List Value)
    (targets : List (List Char)) :
    Alike L (assignItems c op items targets) (assignItems d op items targets) := by
  induction targets generalizing items with
  | nil =>
    simp only [assignItems]
    exact alike_pure _
  | cons target rest ih =>
    cases rest with
    | nil =>
      simp only [assignItems]
      exact (itemFor_alike _ _).bind fun _ => assignTarget_alike hc _ _ _
    | cons next rest =>
      simp only [assignItems]
      exact (itemFor_alike _ _).bind fun _ => (assignTarget_alike hc _ _ _).bind fun _ => ih _

/-- Which shape an assignment has depends on the targets and the value, which are given. -/
theorem assignAll_alike (hc : c.Alike L d) (targets : List (List Char)) (op : AssignOp)
    (v : Value) : Alike L (assignAll c targets op v) (assignAll d targets op v) := by
  unfold assignAll
  split
  · exact alike_failWith _
  · exact assignTarget_alike hc _ _ _
  · exact assignItems_alike hc _ _ _
  · exact assignEach_alike hc _ _ _

theorem checkScanned_alike (s : Statement) : Alike L (checkScanned s) (checkScanned s) := by
  unfold checkScanned
  split
  · exact alike_failWith _
  · exact alike_pure _

/-- The value is the same on both sides, and so is what it is assigned to. -/
theorem assign_alike (hc : c.Alike L d) (line : Line) (s : Statement) :
    Alike L (assign c line s) (assign d line s) := by
  refine (checkScanned_alike s).bind fun _ => alike_ite (alike_failWith _) ?_
  split
  · exact alike_failWith _
  · exact (hc.eval _).bind fun _ => (alike_ofExcept _).bind fun _ => assignAll_alike hc _ _ _

theorem localizeAll_alike (targets : List (List Char)) :
    Alike L (localizeAll targets) (localizeAll targets) := by
  induction targets with
  | nil => exact alike_pure _
  | cons target rest ih => exact (alike_name _).bind fun _ => (alike_localize _).bind fun _ => ih

theorem declared_alike (hc : c.Alike L d) (line : Line) (s : Statement) :
    Alike L (declared c line s) (declared d line s) := by
  refine (checkScanned_alike s).bind fun _ => alike_ite ?_ (alike_ite (alike_failWith _) ?_)
  · exact (alike_ofExcept _).bind fun _ => alike_pure _
  · exact (hc.eval _).bind fun _ => (alike_ofExcept _).bind fun _ => alike_pure _

/-- Both sides localize the same names and assign the same value. -/
theorem declare_alike (hc : c.Alike L d) (line : Line) (s : Statement) :
    Alike L (declare c line s) (declare d line s) := by
  refine (declared_alike hc line s).bind fun r => (localizeAll_alike _).bind fun _ => ?_
  split
  · exact assignAll_alike hc _ _ _
  · exact alike_pure _

/-! ## Hooks and changes of location -/

/-- The hooks are read from the variables one at a time. Each side has its own stamp for them. -/
theorem callHooks_alike (hc : c.Alike L d) (key : String) (args : List Value) {s s' : Nat}
    (hs : L.Stamps s s') (i count : Nat) :
    Alike L (callHooks c key args s i count) (callHooks d key args s' i count) := by
  induction count generalizing i with
  | zero => exact alike_pure _
  | succ count ih =>
    refine Alike.bind (alike_read fun ha => by rw [ha.vars]) fun target => ?_
    refine alike_ite (ih (i + 1)) ?_
    exact (callLocation_alike hc _ _ _).bind fun _ => (alike_checkMoves hs).bind fun _ => ih (i + 1)

/-- How many hooks there are is read once, before the first one runs. -/
theorem runHooks_alike (hc : c.Alike L d) (key : String) (args : List Value) :
    Alike L (runHooks c key args) (runHooks d key args) := by
  intro m m' h
  unfold runHooks
  rw [← (L.agrees h).vars]
  exact callHooks_alike hc key args ⟨m, m', h, rfl, rfl⟩ 0 _ m m' h

/-- Both sides leave for the same location, and its number of moves grows by one for both. -/
theorem goTo_alike (hc : c.Alike L d) (name : String) (args : List Value) (replace : Bool) :
    Alike L (goTo c name args replace) (goTo d name args replace) := by
  refine (findLocation_alike name).bind fun l => Alike.bind ?_ fun _ => ?_
  · exact fun m m' h => .done () (L.leave l.name h)
  · exact (callLocation_alike hc _ _ _).bind fun _ => runHooks_alike hc _ _

/-! ## Objects -/

/-- Whether there is room for the object is the same on both screens. -/
theorem addObject_alike (hc : c.Alike L d) (args : List Value) (position : Option Nat) :
    Alike L (addObject c args position) (addObject d args position) := by
  intro m m' h
  have hs := Screen.eq_of_clearChanges (L.agrees h).screen
  have hobjects : m'.screen.objects = m.screen.objects := by rw [hs]
  have hselected : m'.screen.selectedObject = m.screen.selectedObject := by rw [hs]
  let place := position.getD m.screen.objects.length
  let object : Object := ⟨textArg args 0, textArg? args 1⟩
  have hblind : Screen.Blind fun s =>
      { s with
        selectedObject := Screen.unselectFrom place m.screen.selectedObject
        objects := m.screen.objects.insertIdx place object
        changes.objects := true } := fun _ _ => rfl
  unfold addObject Screen.addObject
  rw [hobjects, hselected]
  by_cases hpast : m.screen.objects.length < place
  · simp only [place, if_pos hpast]
    exact .done () h
  · simp only [place, if_neg hpast]
    by_cases hfull : Screen.maxObjects ≤ m.screen.objects.length
    · simp only [if_pos hfull]
      exact .failed _ (L.fail _ h)
    · simp only [if_neg hfull]
      exact runHooks_alike hc _ _ _ _ (L.screen hblind h)

/-- The same object is taken from both screens, and the hook gets its name. -/
theorem removeObject_alike (hc : c.Alike L d) (index : Nat) :
    Alike L (removeObject c index) (removeObject d index) := by
  intro m m' h
  have hs := Screen.eq_of_clearChanges (L.agrees h).screen
  have hobject : (m'.screen.removeObject index).1 = (m.screen.removeObject index).1 := by
    rw [hs]
    unfold Screen.removeObject
    dsimp only
    cases m.screen.objects[index]? with
    | none => rfl
    | some o => rfl
  have hscreen := L.screen (Screen.blind_removeObject index) h
  unfold removeObject
  generalize m.screen.removeObject index = r at hobject hscreen
  generalize m'.screen.removeObject index = r' at hobject hscreen
  obtain ⟨o, screen⟩ := r
  obtain ⟨o', screen'⟩ := r'
  obtain rfl : o' = o := hobject
  cases o' with
  | none => exact .done () hscreen
  | some o => exact runHooks_alike hc _ _ _ _ hscreen

theorem afterRemoval_alike (hc : c.Alike L d) {s s' : Nat} (hs : L.Stamps s s')
    (objects : List Object) : Alike L (afterRemoval c s objects) (afterRemoval d s' objects) := by
  induction objects with
  | nil => exact alike_pure _
  | cons o rest ih =>
    exact (runHooks_alike hc _ _).bind fun _ => (alike_checkMoves hs).bind fun _ => ih

/-- All objects are taken before the hooks run, which then get the same names. -/
theorem removeObjects_alike (hc : c.Alike L d) : Alike L (removeObjects c) (removeObjects d) := by
  intro m m' h
  have hs := Screen.eq_of_clearChanges (L.agrees h).screen
  have hobjects : m'.screen.objects = m.screen.objects := by rw [hs]
  have hscreen := L.screen Screen.blind_takeObjects h
  have hafter : (afterRemoval c m.moves m.screen.objects
        { m with screen := m.screen.takeObjects.2 }).Alike L
      (afterRemoval d m'.moves m'.screen.objects { m' with screen := m'.screen.takeObjects.2 }) := by
    rw [hobjects]
    exact afterRemoval_alike hc ⟨m, m', h, rfl, rfl⟩ _ _ _ hscreen
  exact hafter

/-! ## Variables -/

/-- What is removed is found by the name and the index only. -/
theorem killVariable_alike (args : List Value) : Alike L (killVariable args) (killVariable args) := by
  cases args with
  | nil => exact alike_modifyVars Store.clear
  | cons v rest =>
    refine (alike_name _).bind fun name => ?_
    cases rest.head? with
    | none => exact alike_modifyVars (·.removeVar name.key)
    | some index =>
      intro m m' h
      unfold Run.modify
      dsimp only
      rw [← (L.agrees h).vars]
      cases m.vars.position? name.key index with
      | some position => exact .done () (L.vars _ h)
      | none => exact .done () h

theorem copyArray_alike (args : List Value) : Alike L (copyArray args) (copyArray args) :=
  (alike_name _).bind fun _ => (alike_name _).bind fun _ => alike_onVars _

/-! ## Menus -/

/-- Along the items. Both hosts are given the same calls. -/
theorem showItems_alike (count : Nat) (slots : List Slot) :
    Alike L (showItems count slots) (showItems count slots) := by
  induction slots generalizing count with
  | nil => exact alike_pure _
  | cons slot rest ih =>
    unfold showItems
    refine alike_ite (alike_pure _) (alike_ite (alike_failWith _) ?_)
    exact (alike_ofExcept _).bind fun _ => (alike_callHost _).bind fun _ =>
      (ih (count + 1)).bind fun _ => alike_pure _

theorem askMenu_alike : Alike L askMenu askMenu :=
  alike_askHost (fun host => host.menu.1) (fun host => host.menu.2) fun _ => rfl

/-- Both hosts choose alike, being the same host. -/
theorem showMenu_alike (hc : c.Alike L d) (args : List Value) :
    Alike L (showMenu c args) (showMenu d args) := by
  refine (alike_name _).bind fun name => Alike.bind (alike_read fun ha => by rw [ha.vars])
    fun slots => (showItems_alike 0 slots).bind fun locations => alike_ite (alike_pure _) ?_
  refine askMenu_alike.bind fun choice => ?_
  split
  · exact alike_pure _
  · split
    · exact alike_pure _
    · exact (callLocation_alike hc _ _ _).bind fun _ => alike_pure _

/-! ## All statements -/

theorem clearInput_alike : Alike L clearInput clearInput :=
  (alike_onScreen fun _ _ => rfl).bind fun _ => alike_callHost _

/-- The statements that print: two texts after one another. -/
theorem print_alike {f g : Screen → Screen} (hf : Screen.Blind f) (hg : Screen.Blind g) :
    Alike L (onScreen fun s => g (f s)) (onScreen fun s => g (f s)) := alike_onScreen (hg.comp hf)

/-- One case for each statement without a block, as for disciplines. -/
theorem act_alike (hc : c.Alike L d) (kind : StatementKind) (args : List Value) :
    Alike L (act c kind args) (act d kind args) := by
  cases kind
  case implicit => exact print_alike (Screen.blind_appendMain _) (Screen.blind_appendMain _)
  case mainLine => exact print_alike (Screen.blind_appendMain _) (Screen.blind_appendMain _)
  case mainNewLine => exact print_alike (Screen.blind_appendMain _) (Screen.blind_appendMain _)
  case mainPrint => exact alike_onScreen (Screen.blind_appendMain _)
  case statLine => exact print_alike (Screen.blind_appendStat _) (Screen.blind_appendStat _)
  case statNewLine => exact print_alike (Screen.blind_appendStat _) (Screen.blind_appendStat _)
  case statPrint => exact alike_onScreen (Screen.blind_appendStat _)
  case clearStat => exact alike_onScreen Screen.blind_clearStat
  case clearMain => exact alike_onScreen Screen.blind_clearMain
  case clearScreen =>
    have hblind := Screen.blind_clearActions.comp (Screen.blind_clearMain.comp Screen.blind_clearStat)
    exact (alike_onScreen hblind).bind fun _ => clearInput_alike
  case clearInput => exact clearInput_alike
  case clearActions => exact alike_onScreen Screen.blind_clearActions
  case deleteAction => exact alike_onScreen (Screen.blind_removeAction _)
  case addObject =>
    unfold act
    dsimp only
    split
    · exact addObject_alike hc args none
    · split
      · exact addObject_alike hc args _
      · exact alike_pure _
  case deleteObject =>
    intro m m' h
    have hs := Screen.eq_of_clearChanges (L.agrees h).screen
    have hindex : m'.screen.objectIndex? (textArg args 0) = m.screen.objectIndex? (textArg args 0) := by
      rw [hs]
      rfl
    unfold act
    dsimp only
    rw [hindex]
    split
    · exact removeObject_alike hc _ _ _ h
    · exact .done () h
  case killObject =>
    unfold act
    dsimp only
    split
    · exact removeObjects_alike hc
    · split
      · exact removeObject_alike hc _
      · exact alike_pure _
  case unselect =>
    have hblind : Screen.Blind fun s => { s with selectedObject := none } := fun _ _ => rfl
    exact alike_onScreen hblind
  case killVariable => exact killVariable_alike args
  case killAll => exact (alike_modifyVars Store.clear).bind fun _ => removeObjects_alike hc
  case copyArray => exact copyArray_alike args
  case wait => exact (alike_callHost _).bind fun _ => alike_callHost _
  case menu => exact showMenu_alike hc args
  case freeLibrary => exact alike_pure _
  case gosub => exact (callLocation_alike hc _ _ _).bind fun _ => alike_pure _
  case goto => exact (goTo_alike hc _ _ _).bind fun _ => alike_failWith _
  case xgoto => exact (goTo_alike hc _ _ _).bind fun _ => alike_failWith _
  case dynamic => exact (callCode_alike hc _ _).bind fun _ => alike_pure _
  -- the others call the host or are no statements of their own
  all_goals first
    | exact alike_callHost _
    | exact alike_failWith _

theorem runStatement_alike (hc : c.Alike L d) (kind : StatementKind) (args : List Value) :
    Alike L (runStatement c kind args) (runStatement d kind args) := by
  unfold runStatement
  split
  · exact alike_pure _
  · exact alike_pure _
  · exact (act_alike hc _ args).bind fun _ => alike_pure _

theorem evalArgs_alike (hc : c.Alike L d) (line : Line) (kind : StatementKind) (index : Nat)
    (spans : List Span) :
    Alike L (evalArgs c line kind index spans) (evalArgs d line kind index spans) := by
  induction spans generalizing index with
  | nil => exact alike_pure _
  | cons span rest ih =>
    exact (hc.eval _).bind fun _ => (alike_ofExcept _).bind fun _ =>
      (ih (index + 1)).bind fun _ => alike_pure _

theorem statementArgs_alike (hc : c.Alike L d) (line : Line) (s : Statement) :
    Alike L (statementArgs c line s) (statementArgs d line s) :=
  (checkScanned_alike s).bind fun _ => evalArgs_alike hc line s.kind 0 s.args

end QuestScript.Machine
