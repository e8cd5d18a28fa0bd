import QuestScript.Machine.Statement

/-!
# What every run keeps

Expressions, statements, blocks and calls call one another, so a property of all runs is proved by
one induction over all of them. This file sets that induction up once for any property.

A `Discipline` is a pair of relations between the machine before a run and the machine after it: one
for runs that give a result, one for runs that fail. Its laws ask only what concerns the primitive
changes of the machine:

* a write to the variables or to the screen, and the answers of the host;
* `LOCAL`, frames and calls;
* what `GOTO` does before it shows the new location.

`Run.Obeys` says that a run keeps a discipline. This file has the rules for the ways runs are put
together; `Proofs/Discipline/` goes through the machine with them.
-/

namespace QuestScript

/-- Runs are put together as in any monad: what comes after a run is all that follows. -/
instance : LawfulMonad Run :=
  LawfulMonad.mk' Run
    (fun x => by
      funext m
      show x.andThen _ m = x m
      unfold Run.andThen
      cases x m <;> rfl)
    (fun a f => rfl)
    (fun x f g => by
      funext m
      show (x.andThen f).andThen g m = x.andThen _ m
      unfold Run.andThen
      cases x m <;> rfl)

/-! ## Primitive changes -/

/-- A change of the variables by one write or removal, whether it succeeds or not. -/
inductive Store.Change (s : Store) : Store → Prop
  | putRaw (key : String) (position : Nat) (v : Value) : Change s (s.putRaw key position v).2
  | assign (name : VarName) (position : Option Nat) (op : AssignOp) (v : Value) :
      Change s (s.assign name position op v).2
  | assignIndex (name : VarName) (index : Value) (op : AssignOp) (v : Value) :
      Change s (s.assignIndex name index op v).2
  | copyArray (dest src : String) (start : Number) (count : Option Number) :
      Change s (s.copyArray dest src start count).2
  | clear : Change s s.clear
  | removeVar (key : String) : Change s (s.removeVar key)
  | removeItem (key : String) (position : Nat) : Change s (s.removeItem key position)

/-- A change of the screen by one operation. -/
inductive Screen.Change (s : Screen) : Screen → Prop
  | appendMain (text : String) : Change s (s.appendMain text)
  | setMain (text : String) : Change s (s.setMain text)
  | clearMain : Change s s.clearMain
  | appendStat (text : String) : Change s (s.appendStat text)
  | clearStat : Change s s.clearStat
  | addAction {a : Action} {s' : Screen} (h : s.addAction a = .ok s') : Change s s'
  | removeAction (description : String) : Change s (s.removeAction description)
  | clearActions : Change s s.clearActions
  | addObject {o : Object} {position : Option Nat} {s' : Screen} (image : o.image ≠ some "")
      (h : s.addObject o position = .ok (some s')) : Change s s'
  | removeObject (index : Nat) : Change s (s.removeObject index).2
  | takeObjects : Change s s.takeObjects.2
  | unselectObject : Change s { s with selectedObject := none }
  | clearInput : Change s { s with userInput := "" }

/-! ## Disciplines -/

/-- Two relations between the machine before and after a run, for runs that give a result and for
runs that fail, which the primitive changes of the machine respect. -/
structure Discipline where
  ok : Machine → Machine → Prop
  err : Machine → Machine → Prop
  ok_refl (m : Machine) : ok m m
  ok_trans {m₁ m₂ m₃ : Machine} : ok m₁ m₂ → ok m₂ m₃ → ok m₁ m₃
  err_refl (m : Machine) : err m m
  err_trans {m₁ m₂ m₃ : Machine} : ok m₁ m₂ → err m₂ m₃ → err m₁ m₃
  vars {m : Machine} {vars : Store} : m.vars.Change vars → ok m { m with vars }
  screen {m : Machine} {screen : Screen} : m.screen.Change screen → ok m { m with screen }
  host (m : Machine) (host : Host) : ok m { m with host }
  rng (m : Machine) (rng : Generator) : ok m { m with rng }
  expressions (m : Machine) (expressions : Code.Cache) : ok m { m with expressions }
  patterns (m : Machine) (patterns : Pattern.Cache) : ok m { m with patterns }
  site (m : Machine) (site : Site) : ok m { m with site }
  err_site {m m' : Machine} (site : Site) : err m m' → err m { m' with site }
  err_mark {m m' : Machine} (site : Option Site) : err m m' → err m { m' with errorSite := site }
  localize (m : Machine) (key : String) :
    ok m { m with saves := (m.saves.localize m.vars key).1, vars := (m.saves.localize m.vars key).2 }
  group_ok {m m' : Machine} :
    ok { m with saves := m.saves.allocate } m' → ok m (Run.release m.saves.depth true m')
  group_err {m m' : Machine} :
    err { m with saves := m.saves.allocate } m' → err m (Run.release m.saves.depth false m')
  call_ok {m m' : Machine} :
    ok { m with callDepth := m.callDepth + 1 } m' →
      ok m { m' with callDepth := m'.callDepth - 1 }
  call_err {m m' : Machine} :
    err { m with callDepth := m.callDepth + 1 } m' →
      err m { m' with callDepth := m'.callDepth - 1 }
  leave_err {m m' : Machine} (target : String) :
    err (Machine.leave target m) m' → err m m'

/-- The end of a run that started in `m` keeps a discipline. -/
def Outcome.Keeps {α : Type} (D : Discipline) (m : Machine) : Outcome α → Prop
  | done _ m' => D.ok m m'
  | failed _ m' => D.err m m'
  | outOfFuel => True

/-- A run keeps a discipline, whatever machine it is started in. -/
def Run.Obeys {α : Type} (D : Discipline) (x : Run α) : Prop := ∀ m, (x m).Keeps D m

/-- The calls of a record keep a discipline. -/
structure Calls.Obey (D : Discipline) (c : Calls) : Prop where
  eval : ∀ source, (c.eval source).Obeys D
  lines : ∀ lines start stop top, (c.lines lines start stop top).Obeys D
  statements : ∀ line start stop, (c.statements line start stop).Obeys D

/-! ## Ends of runs -/

namespace Outcome

variable {α β : Type} {D : Discipline} {m₁ m₂ : Machine}

/-- What has been done before a run adds to it. -/
theorem Keeps.trans (h : D.ok m₁ m₂) {r : Outcome α} (hr : r.Keeps D m₂) : r.Keeps D m₁ := by
  cases r with
  | done a m => exact D.ok_trans h hr
  | failed e m => exact D.err_trans h hr
  | outOfFuel => trivial

/-- Whether a run has given a result. -/
def isDone : Outcome α → Bool
  | done _ _ => true
  | _ => false

/-- An end with a result, taken apart. -/
theorem exists_of_isDone {r : Outcome α} (h : r.isDone = true) : ∃ a m, r = .done a m := by
  cases r with
  | done a m => exact ⟨a, m, rfl⟩
  | failed e m => cases h
  | outOfFuel => cases h

/-- What a run gives, if it ends well. -/
def result? : Outcome α → Option α
  | .done a _ => some a
  | _ => none

theorem exists_of_result? {r : Outcome α} {a : α} (h : r.result? = some a) : ∃ m, r = .done a m := by
  cases r with
  | done b m =>
    cases h
    exact ⟨m, rfl⟩
  | failed => cases h
  | outOfFuel => cases h

/-- The error a run ends with. -/
def error? : Outcome α → Option Error
  | .failed e _ => some e
  | _ => none

theorem exists_of_error? {r : Outcome α} {e : Error} (h : r.error? = some e) : ∃ m, r = .failed e m := by
  cases r with
  | failed e' m =>
    cases h
    exact ⟨m, rfl⟩
  | done => cases h
  | outOfFuel => cases h

end Outcome

namespace Run

variable {α β : Type} {D : Discipline}

section

variable {x : Run α} {f : α → Run β} {m m' : Machine}

/-- What follows a run starts in the machine in which that run has ended. -/
theorem bind_of_done {a : α} (h : x m = .done a m') : (x >>= f) m = f a m' := by
  show x.andThen f m = f a m'
  unfold andThen
  rw [h]

/-- What follows a run that fails is not run. -/
theorem bind_of_failed {e : Error} (h : x m = .failed e m') : (x >>= f) m = .failed e m' := by
  show x.andThen f m = .failed e m'
  unfold andThen
  rw [h]

theorem bind_of_outOfFuel (h : x m = .outOfFuel) : (x >>= f) m = .outOfFuel := by
  show x.andThen f m = .outOfFuel
  unfold andThen
  rw [h]

end

/-- A run that gives a result and goes on with it has both parts give one. -/
theorem bind_eq_done {x : Run α} {f : α → Run β} {m m' : Machine} {b : β}
    (h : (x >>= f) m = .done b m') : ∃ a m₁, x m = .done a m₁ ∧ f a m₁ = .done b m' := by
  replace h : x.andThen f m = .done b m' := h
  unfold andThen at h
  cases hx : x m with
  | done a m₁ => rw [hx] at h; exact ⟨a, m₁, rfl, h⟩
  | failed e m₁ => rw [hx] at h; cases h
  | outOfFuel => rw [hx] at h; cases h

/-- A run that fails after another one has started has one of them fail. -/
theorem bind_eq_failed {x : Run α} {f : α → Run β} {m m' : Machine} {e : Error}
    (h : (x >>= f) m = .failed e m') :
    x m = .failed e m' ∨ ∃ a m₁, x m = .done a m₁ ∧ f a m₁ = .failed e m' := by
  replace h : x.andThen f m = .failed e m' := h
  unfold andThen at h
  cases hx : x m with
  | done a m₁ => rw [hx] at h; exact .inr ⟨a, m₁, rfl, h⟩
  | failed e' m₁ => rw [hx] at h; cases h; exact .inl rfl
  | outOfFuel => rw [hx] at h; cases h

/-- The group of a run that gives a result was opened by it and is closed with its bindings restored. -/
theorem grouped_eq_done {x : Run α} {m m' : Machine} {a : α} (h : x.grouped m = .done a m') :
    ∃ m₁, x { m with saves := m.saves.allocate } = .done a m₁ ∧
      m' = release m.saves.depth true m₁ := by
  unfold grouped at h
  dsimp only at h
  cases hx : x { m with saves := m.saves.allocate } with
  | done b m₁ => rw [hx] at h; cases h; exact ⟨m₁, rfl, rfl⟩
  | failed e m₁ => rw [hx] at h; cases h
  | outOfFuel => rw [hx] at h; cases h

/-- A call that gives a result has passed the limit of depth, and it has left its level again. -/
theorem nested_eq_done {x : Run α} {m m' : Machine} {a : α} (h : x.nested m = .done a m') :
    ∃ m₁, x { m with callDepth := m.callDepth + 1 } = .done a m₁ ∧
      m' = { m₁ with callDepth := m₁.callDepth - 1 } := by
  unfold nested at h
  by_cases hd : m.config.maxCallDepth ≤ m.callDepth
  · rw [if_pos hd] at h; cases h
  · rw [if_neg hd] at h
    cases hx : x { m with callDepth := m.callDepth + 1 } with
    | done b m₁ => rw [hx] at h; cases h; exact ⟨m₁, rfl, rfl⟩
    | failed e m₁ => rw [hx] at h; cases h
    | outOfFuel => rw [hx] at h; cases h

/-- The site is set back when a run gives a result, whatever it has been in between. -/
theorem atSite_eq_done {x : Run α} {site : Site} {m m' : Machine} {a : α}
    (h : atSite site x m = .done a m') :
    ∃ m₁, x { m with site } = .done a m₁ ∧ m' = { m₁ with site := m.site } := by
  unfold atSite at h
  dsimp only at h
  cases hx : x { m with site } with
  | done b m₁ => rw [hx] at h; cases h; exact ⟨m₁, rfl, rfl⟩
  | failed e m₁ => rw [hx] at h; cases h
  | outOfFuel => rw [hx] at h; cases h

/-- The relation for runs that give a result, read off a discipline. -/
theorem Obeys.ok {x : Run α} (hx : x.Obeys D) {m m' : Machine} {a : α} (h : x m = .done a m') :
    D.ok m m' := by
  have hm := hx m
  rw [h] at hm
  exact hm

theorem obeys_pure (a : α) : (pure a : Run α).Obeys D := fun m => D.ok_refl m

theorem obeys_fail (e : Error) : (fail e : Run α).Obeys D := fun m => D.err_refl m

theorem obeys_failWith (k : ErrorKind) : (failWith k : Run α).Obeys D := obeys_fail _

theorem obeys_ofExcept (r : Except Error α) : (ofExcept r).Obeys D := by
  cases r with
  | ok a => exact obeys_pure a
  | error e => exact obeys_fail e

/-- To look at the machine is no change. -/
theorem obeys_read (f : Machine → α) : (read f).Obeys D := fun m => D.ok_refl m

theorem obeys_name (cs : List Char) : (name cs).Obeys D := obeys_ofExcept _

theorem obeys_checkMoves (stamp : Nat) : (checkMoves stamp).Obeys D := by
  intro m
  unfold checkMoves
  split
  · exact D.ok_refl m
  · exact D.err_refl m

/-- One run after another keeps what both keep, wherever the second one starts. -/
theorem Obeys.bind {x : Run α} {f : α → Run β} (hx : x.Obeys D) (hf : ∀ a, (f a).Obeys D) :
    (x >>= f).Obeys D := by
  intro m
  show (x.andThen f m).Keeps D m
  have hm := hx m
  unfold andThen
  cases h : x m with
  | done a m' =>
    rw [h] at hm
    exact (hf a m').trans hm
  | failed e m' => rw [h] at hm; exact hm
  | outOfFuel => trivial

theorem obeys_ite {p : Prop} [Decidable p] {x y : Run α} (hx : x.Obeys D) (hy : y.Obeys D) :
    (if p then x else y).Obeys D := by
  split
  · exact hx
  · exact hy

theorem Obeys.map {x : Run α} (f : α → β) (hx : x.Obeys D) : (f <$> x).Obeys D :=
  hx.bind fun a => obeys_pure (f a)

/-! ## Primitive runs -/

/-- An operation of the screen is a change of it. -/
theorem obeys_onScreen {f : Screen → Screen} (h : ∀ s : Screen, s.Change (f s)) :
    (onScreen f).Obeys D := fun m => D.screen (h m.screen)

/-- Two changes of the screen in one step. -/
theorem obeys_onScreen_twice {f g : Screen → Screen} (hf : ∀ s : Screen, s.Change (f s))
    (hg : ∀ s : Screen, s.Change (g s)) : (onScreen fun s => g (f s)).Obeys D := fun m =>
  D.ok_trans (D.screen (hf m.screen)) (D.screen (m := { m with screen := f m.screen }) (hg _))

theorem obeys_addAction (a : Action) : (addAction a).Obeys D := by
  intro m
  unfold addAction
  split
  · next screen h => exact D.screen (.addAction h)
  · exact D.err_refl m

/-- A write counts as a change even if it fails: what it has done until then is kept. -/
theorem obeys_onVars {f : Store → Except Error α × Store} (h : ∀ s : Store, s.Change (f s).2) :
    (onVars f).Obeys D := by
  intro m
  have hc := D.vars (h m.vars)
  unfold onVars
  split
  · next a vars hf => rw [hf] at hc; exact hc
  · next e vars hf => rw [hf] at hc; exact D.err_trans hc (D.err_refl _)

theorem obeys_modify {f : Machine → Machine} (h : ∀ m, D.ok m (f m)) : (modify f).Obeys D := h

/-- A change of the variables that cannot fail. -/
theorem obeys_modifyVars {f : Store → Store} (h : ∀ s : Store, s.Change (f s)) :
    (modify fun m => { m with vars := f m.vars }).Obeys D := obeys_modify fun m => D.vars (h m.vars)

theorem obeys_msecs : msecs.Obeys D := by
  intro m
  unfold msecs
  split
  · exact D.ok_refl m
  · exact D.host m _

theorem obeys_callHost (c : HostCall) : (callHost c).Obeys D := fun m => D.host m _

/-- Compiling may change the cache of expressions and nothing else, also when it fails. -/
theorem obeys_compiled (source : List Char) : (compiled source).Obeys D := by
  intro m
  unfold compiled
  split
  · exact D.expressions m _
  · exact D.err_trans (D.expressions m _) (D.err_refl _)

/-- The same for patterns and their cache. -/
theorem obeys_pattern (source : String) : (pattern source).Obeys D := by
  intro m
  unfold pattern
  split
  · exact D.patterns m _
  · exact D.err_trans (D.patterns m _) (D.err_refl _)

theorem obeys_random (low high : Number) : (random low high).Obeys D := fun m => D.rng m _

theorem obeys_localize (key : String) : (localize key).Obeys D := fun m => D.localize m key

/-! ## Frames -/

/-- The place where an error arose is written down on the way out of a run that fails. -/
theorem Obeys.marked {x : Run α} (hx : x.Obeys D) : x.marked.Obeys D := by
  intro m
  have hm := hx m
  unfold Run.marked
  cases h : x m with
  | done a m' => rw [h] at hm; exact hm
  | outOfFuel => trivial
  | failed e m' =>
    rw [h] at hm
    show D.err m (m'.markError e)
    unfold Machine.markError
    split
    · exact hm
    · exact D.err_mark _ hm

/-- The group of a run is closed at its end in both cases; a discipline has a law for each of them. -/
theorem Obeys.grouped {x : Run α} (hx : x.Obeys D) : x.grouped.Obeys D := by
  intro m
  have hm := hx { m with saves := m.saves.allocate }
  unfold Run.grouped
  cases h : x { m with saves := m.saves.allocate } with
  | done a m' => rw [h] at hm; exact D.group_ok hm
  | failed e m' => rw [h] at hm; exact D.group_err hm
  | outOfFuel => trivial

/-- A call at the limit of depth fails before it changes anything. -/
theorem Obeys.nested {x : Run α} (hx : x.Obeys D) : x.nested.Obeys D := by
  intro m
  have hm := hx { m with callDepth := m.callDepth + 1 }
  unfold Run.nested
  split
  · exact D.err_refl m
  · cases h : x { m with callDepth := m.callDepth + 1 } with
    | done a m' => rw [h] at hm; exact D.call_ok hm
    | failed e m' => rw [h] at hm; exact D.call_err hm
    | outOfFuel => trivial

/-- The site before a run is set back at its end. For a discipline a site is a change like any other. -/
theorem Obeys.atSite {x : Run α} (site : Site) (hx : x.Obeys D) : (atSite site x).Obeys D := by
  intro m
  have hm := (hx { m with site }).trans (D.site m site)
  unfold Run.atSite
  cases h : x { m with site } with
  | done a m' => rw [h] at hm; exact D.ok_trans hm (D.site m' m.site)
  | failed e m' => rw [h] at hm; exact D.err_site m.site hm
  | outOfFuel => trivial

end Run

end QuestScript
