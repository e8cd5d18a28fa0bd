import QuestScript.Machine.Statement
import QuestScript.Proofs.Discipline.Eval

/-!
# Statements keep every discipline

One lemma for each function that runs an assignment or a statement. The one function that does not
keep a discipline by itself is `goTo`: it forgets the frames it is run in. What it leaves is bound
to the machine after that (`goTo_keeps`), and the statements that use it always fail, so that the
law for failing runs covers them.
-/

namespace QuestScript.Machine

open Run

variable {D : Discipline} {c : Calls}

/-! ## Assignments -/

/-- An index is evaluated, unless it is missing or empty. -/
theorem indexValue_obeys (hc : c.Obey D) (index : Option Target.Index) :
    (indexValue c index).Obeys D := by
  fun_cases indexValue
  · exact obeys_pure _
  · exact obeys_pure _
  · exact (hc.eval _).bind fun _ => obeys_pure _
  · exact (hc.eval _).bind fun _ => obeys_pure _

/-- The index of a target is evaluated before the one write that follows. -/
theorem assignTarget_obeys (hc : c.Obey D) (target : List Char) (op : AssignOp) (v : Value) :
    (assignTarget c target op v).Obeys D := by
  refine (obeys_ofExcept _).bind fun read => (indexValue_obeys hc _).bind fun index => ?_
  cases index with
  | some index => exact obeys_onVars fun _ => .assignIndex _ index op v
  | none => exact obeys_onVars fun _ => .assign _ _ op v

theorem assignEach_obeys (hc : c.Obey D) (op : AssignOp) (v : Value) (targets : List (List Char)) :
    (assignEach c op v targets).Obeys D := by
  induction targets with
  | nil => exact obeys_pure _
  | cons target rest ih => exact (assignTarget_obeys hc target op v).bind fun _ => ih

theorem itemFor_obeys (target : List Char) (v : Option Value) : (itemFor target v).Obeys D := by
  cases v with
  | some v => exact obeys_pure v
  | none => exact (obeys_name _).bind fun _ => obeys_pure _

/-- Along the targets: each takes an item, and the last one what is left. -/
theorem assignItems_obeys (hc : c.Obey D) (op : AssignOp) (items : List Value)
    (targets : List (List Char)) : (assignItems c op items targets).Obeys D := by
  fun_induction assignItems with
  | case1 => exact obeys_pure _
  | case2 items target => exact (itemFor_obeys _ _).bind fun _ => assignTarget_obeys hc _ _ _
  | case3 items target rest _ ih =>
    exact (itemFor_obeys _ _).bind fun _ => (assignTarget_obeys hc _ _ _).bind fun _ => ih

/-- The shapes of an assignment: no target, one, or several that share a tuple or a value. -/
theorem assignAll_obeys (hc : c.Obey D) (targets : List (List Char)) (op : AssignOp) (v : Value) :
    (assignAll c targets op v).Obeys D := by
  fun_cases assignAll
  · exact obeys_failWith _
  · exact assignTarget_obeys hc _ _ _
  · exact assignItems_obeys hc _ _ _
  · exact assignEach_obeys hc _ _ _

theorem checkScanned_obeys (s : Statement) : (checkScanned s).Obeys D := by
  unfold checkScanned
  split
  · exact obeys_failWith _
  · exact obeys_pure _

theorem assign_obeys (hc : c.Obey D) (line : Line) (s : Statement) : (assign c line s).Obeys D := by
  refine (checkScanned_obeys s).bind fun _ => ?_
  split
  · exact obeys_failWith _
  · split
    · exact obeys_failWith _
    · exact (hc.eval _).bind fun _ => (obeys_ofExcept _).bind fun _ => assignAll_obeys hc _ _ _

/-- Names are read and localized one by one, so a name that cannot be read leaves those before it local. -/
theorem localizeAll_obeys (targets : List (List Char)) : (localizeAll targets).Obeys D := by
  induction targets with
  | nil => exact obeys_pure _
  | cons target rest ih => exact (obeys_name _).bind fun _ => (obeys_localize _).bind fun _ => ih

theorem declared_obeys (hc : c.Obey D) (line : Line) (s : Statement) :
    (declared c line s).Obeys D := by
  refine (checkScanned_obeys s).bind fun _ => ?_
  split
  · exact (obeys_ofExcept _).bind fun _ => obeys_pure _
  · split
    · exact obeys_failWith _
    · exact (hc.eval _).bind fun _ => (obeys_ofExcept _).bind fun _ => obeys_pure _

/-- The value of a declaration is evaluated before its names are local, and is assigned after that. -/
theorem declare_obeys (hc : c.Obey D) (line : Line) (s : Statement) :
    (declare c line s).Obeys D := by
  refine (declared_obeys hc line s).bind fun d => (localizeAll_obeys _).bind fun _ => ?_
  split
  · exact assignAll_obeys hc _ _ _
  · exact obeys_pure _

/-! ## Hooks and changes of location -/

/-- By induction on the hooks that are left. After each of them the location must still be the same. -/
theorem callHooks_obeys (hc : c.Obey D) (key : String) (args : List Value) (stamp i count : Nat) :
    (callHooks c key args stamp i count).Obeys D := by
  induction count generalizing i with
  | zero => exact obeys_pure _
  | succ count ih =>
    refine (obeys_read _).bind fun target => ?_
    split
    · exact ih (i + 1)
    · exact (callLocation_obeys hc _ _ _).bind fun _ =>
        (obeys_checkMoves stamp).bind fun _ => ih (i + 1)

theorem runHooks_obeys (hc : c.Obey D) (key : String) (args : List Value) :
    (runHooks c key args).Obeys D := fun m => callHooks_obeys hc key args m.moves 0 _ m

/-- A change of location either fails at once, because there is no such location, or keeps the
discipline from the machine on that the old location leaves. -/
theorem goTo_keeps (hc : c.Obey D) (name : String) (args : List Value) (replace : Bool)
    (m : Machine) :
    (∃ e, goTo c name args replace m = .failed e m) ∨
      ∃ target, (goTo c name args replace m).Keeps D (leave target m) := by
  cases h : m.world.find? name with
  | none =>
    refine .inl ⟨missingLocation m.world name, ?_⟩
    show (findLocation name).andThen _ m = _
    simp only [findLocation, andThen, h]
  | some l =>
    refine .inr ⟨l.name, ?_⟩
    have hr : goTo c name args replace m
        = (do let _ ← callLocation c l.name args replace
              runHooks c "ONNEWLOC" args : Run Unit) (leave l.name m) := by
      show (findLocation name).andThen _ m = _
      simp only [findLocation, andThen, h]
      rfl
    rw [hr]
    exact ((callLocation_obeys hc _ _ _).bind fun _ => runHooks_obeys hc _ _) _

/-- A change of location after which the run fails. -/
theorem goTo_fail_obeys (hc : c.Obey D) (name : String) (args : List Value) (replace : Bool)
    (k : ErrorKind) :
    (do goTo c name args replace
        failWith k : Run Unit).Obeys D := by
  intro m
  show ((goTo c name args replace).andThen (fun _ => failWith k) m).Keeps D m
  rcases goTo_keeps hc name args replace m with ⟨e, h⟩ | ⟨target, h⟩
  · simp only [andThen, h]
    exact D.err_refl m
  · unfold andThen
    cases hr : goTo c name args replace m with
    | done a m' => rw [hr] at h; exact D.leave_err target (D.err_trans h (D.err_refl m'))
    | failed e m' => rw [hr] at h; exact D.leave_err target h
    | outOfFuel => trivial

/-! ## Objects -/

/-- An empty text is no argument. -/
theorem textArg?_ne_empty (args : List Value) (index : Nat) : textArg? args index ≠ some "" := by
  intro h
  rw [textArg?, Option.filter_eq_some_iff] at h
  cases h.2

/-- The object is on the screen before the hook for it runs. -/
theorem addObject_obeys (hc : c.Obey D) (args : List Value) (position : Option Nat) :
    (addObject c args position).Obeys D := by
  intro m
  unfold addObject
  split
  · exact D.err_refl m
  · exact D.ok_refl m
  · next screen h => exact (runHooks_obeys hc _ _ _).trans (D.screen (.addObject (textArg?_ne_empty args 1) h))

/-- The object is gone before the hook for it runs. -/
theorem removeObject_obeys (hc : c.Obey D) (index : Nat) : (removeObject c index).Obeys D := by
  intro m
  have hs : D.ok m { m with screen := (m.screen.removeObject index).2 } :=
    D.screen (.removeObject index)
  unfold removeObject
  split
  · next o screen h => rw [h] at hs; exact (runHooks_obeys hc _ _ _).trans hs
  · next screen h => rw [h] at hs; exact hs

theorem afterRemoval_obeys (hc : c.Obey D) (stamp : Nat) (objects : List Object) :
    (afterRemoval c stamp objects).Obeys D := by
  induction objects with
  | nil => exact obeys_pure _
  | cons o rest ih =>
    exact (runHooks_obeys hc _ _).bind fun _ => (obeys_checkMoves stamp).bind fun _ => ih

theorem removeObjects_obeys (hc : c.Obey D) : (removeObjects c).Obeys D := fun m =>
  (afterRemoval_obeys hc m.moves _ _).trans (D.screen .takeObjects)

/-! ## Variables -/

/-- Without an argument all variables go, with one a variable, with two an item of it. -/
theorem killVariable_obeys (args : List Value) : (killVariable args).Obeys D := by
  cases args with
  | nil => exact obeys_modifyVars fun _ => .clear
  | cons v rest =>
    refine (obeys_name _).bind fun name => ?_
    split
    · exact obeys_modifyVars fun _ => .removeVar name.key
    · next index _ =>
      refine obeys_modify fun m => ?_
      split
      · exact D.vars (.removeItem _ _)
      · exact D.ok_refl m

theorem copyArray_obeys (args : List Value) : (copyArray args).Obeys D :=
  (obeys_name _).bind fun _ => (obeys_name _).bind fun _ => obeys_onVars fun _ => .copyArray _ _ _ _

/-! ## Menus -/

/-- Along the items of a menu, each of which is shown by one call of the host. -/
theorem showItems_obeys (count : Nat) (slots : List Slot) : (showItems count slots).Obeys D := by
  induction slots generalizing count with
  | nil => exact obeys_pure _
  | cons slot rest ih =>
    unfold showItems
    split
    · exact obeys_pure _
    · split
      · exact obeys_failWith _
      · exact (obeys_ofExcept _).bind fun _ => (obeys_callHost _).bind fun _ =>
          (ih (count + 1)).bind fun _ => obeys_pure _

theorem askMenu_obeys : askMenu.Obeys D := fun m => D.host m _

theorem showMenu_obeys (hc : c.Obey D) (args : List Value) : (showMenu c args).Obeys D := by
  refine (obeys_name _).bind fun name => (obeys_read _).bind fun slots =>
    (showItems_obeys 0 slots).bind fun locations => ?_
  split
  · exact obeys_pure _
  · refine askMenu_obeys.bind fun choice => ?_
    split
    · exact obeys_pure _
    · split
      · exact obeys_pure _
      · exact (callLocation_obeys hc _ _ _).bind fun _ => obeys_pure _

/-! ## All statements -/

theorem clearInput_obeys : clearInput.Obeys D :=
  (obeys_onScreen fun _ => .clearInput).bind fun _ => obeys_callHost _

/-- Clear both panels and the actions in one step. -/
theorem clearScreen_obeys : (onScreen fun s => s.clearStat.clearMain.clearActions).Obeys D := by
  intro m
  refine D.ok_trans (D.screen .clearStat) ?_
  refine D.ok_trans (D.screen (m := { m with screen := m.screen.clearStat }) .clearMain) ?_
  exact D.screen (m := { m with screen := m.screen.clearStat.clearMain }) .clearActions

/-- One case for each statement without a block. Those that change the location fail after that, which is
what `goTo_fail_obeys` is about. -/
theorem act_obeys (hc : c.Obey D) (kind : StatementKind) (args : List Value) :
    (act c kind args).Obeys D := by
  fun_cases act
  -- most statements only call the host
  all_goals try exact obeys_callHost _
  · exact obeys_onScreen_twice (fun _ => .appendMain _) fun _ => .appendMain _
  · exact obeys_onScreen_twice (fun _ => .appendMain _) fun _ => .appendMain _
  · exact obeys_onScreen fun _ => .appendStat _
  · exact obeys_onScreen_twice (fun _ => .appendStat _) fun _ => .appendStat _
  · exact obeys_onScreen_twice (fun _ => .appendStat _) fun _ => .appendStat _
  · exact obeys_onScreen fun _ => .appendMain _
  · exact obeys_onScreen_twice (fun _ => .appendMain _) fun _ => .appendMain _
  · exact obeys_onScreen fun _ => .clearStat
  · exact obeys_onScreen fun _ => .clearMain
  · exact clearScreen_obeys.bind fun _ => clearInput_obeys
  · exact clearInput_obeys
  · exact obeys_onScreen fun _ => .clearActions
  · exact obeys_onScreen fun _ => .removeAction _
  · exact addObject_obeys hc args none
  · exact addObject_obeys hc args _
  · exact obeys_pure _
  · intro m
    dsimp only
    split
    · exact removeObject_obeys hc _ m
    · exact D.ok_refl m
  · exact removeObjects_obeys hc
  · exact removeObject_obeys hc _
  · exact obeys_pure _
  · exact obeys_onScreen fun _ => .unselectObject
  · exact killVariable_obeys args
  · exact (obeys_modifyVars fun _ => .clear).bind fun _ => removeObjects_obeys hc
  · exact copyArray_obeys args
  · exact (obeys_callHost _).bind fun _ => obeys_callHost _
  · exact showMenu_obeys hc args
  · exact obeys_pure _
  · exact (callLocation_obeys hc _ _ _).bind fun _ => obeys_pure _
  · exact goTo_fail_obeys hc _ _ _ _
  · exact goTo_fail_obeys hc _ _ _ _
  · exact (callCode_obeys hc _ _).bind fun _ => obeys_pure _
  · exact obeys_failWith _

theorem runStatement_obeys (hc : c.Obey D) (kind : StatementKind) (args : List Value) :
    (runStatement c kind args).Obeys D := by
  fun_cases runStatement
  · exact obeys_pure _
  · exact obeys_pure _
  · exact (act_obeys hc _ args).bind fun _ => obeys_pure _

/-- By induction on the arguments, each of which is evaluated and then converted. -/
theorem evalArgs_obeys (hc : c.Obey D) (line : Line) (kind : StatementKind) (index : Nat)
    (spans : List Span) : (evalArgs c line kind index spans).Obeys D := by
  induction spans generalizing index with
  | nil => exact obeys_pure _
  | cons span rest ih =>
    exact (hc.eval _).bind fun _ => (obeys_ofExcept _).bind fun _ =>
      (ih (index + 1)).bind fun _ => obeys_pure _

theorem statementArgs_obeys (hc : c.Obey D) (line : Line) (s : Statement) :
    (statementArgs c line s).Obeys D :=
  (checkScanned_obeys s).bind fun _ => evalArgs_obeys hc line s.kind 0 s.args

end QuestScript.Machine
