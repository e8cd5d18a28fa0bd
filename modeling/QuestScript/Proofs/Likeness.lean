import QuestScript.Proofs.Discipline

/-!
# Runs that go alike

Two runs of the same code in two machines are compared here, as `Proofs/Discipline.lean` compares
the machine before a run with the machine after it.

A `Likeness` is a relation between the two machines that is kept when both take the same step. It
may forget whatever no script can read: which flags of the screen are raised, what the caches hold,
the line, the place of an error, and how often the location was replaced, as long as the same pairs
of counts are equal. All that a script can read has to be the same (`Machine.Agrees`). When a machine
was created can be read only if the host does not tell the time.

`Run.Alike` says that two runs give the same result, or fail with the same error, and leave the
machines alike. The two runs may rest on different calls, so that one knot of calls can be compared
with another one. This file has the rules for the ways runs are put together; `Proofs/Likeness/` goes
through the machine with them.
-/

namespace QuestScript

/-! ## Screens that differ in their flags -/

namespace Screen

/-- A screen that shows the same as another one is that one with its own flags. -/
theorem eq_of_clearChanges {s s' : Screen} (h : s.clearChanges = s'.clearChanges) :
    s' = { s with changes := s'.changes } := by
  obtain ⟨_, _, _, _, _, _, _, _, _⟩ := s
  obtain ⟨_, _, _, _, _, _, _, _, _⟩ := s'
  simp only [clearChanges, mk.injEq] at h
  simp [h]

/-- An operation shows the same, whatever flags are raised. -/
def Blind (f : Screen → Screen) : Prop :=
  ∀ s c, (f { s with changes := c }).clearChanges = (f s).clearChanges

/-- Screens that differ in their flags alone differ in nothing else after such a change. -/
theorem Blind.congr {f : Screen → Screen} (hf : Blind f) {s s' : Screen}
    (h : s.clearChanges = s'.clearChanges) : (f s).clearChanges = (f s').clearChanges := by
  rw [eq_of_clearChanges h]
  exact (hf s s'.changes).symm

theorem Blind.comp {f g : Screen → Screen} (hg : Blind g) (hf : Blind f) :
    Blind fun s => g (f s) := fun s c => hg.congr (hf s c)

theorem blind_appendMain (text : String) : Blind (·.appendMain text) := by
  intro s c
  unfold appendMain
  split
  · rfl
  · rfl

theorem blind_setMain (text : String) : Blind (·.setMain text) := fun _ _ => rfl

theorem blind_clearMain : Blind clearMain := by
  intro s c
  unfold clearMain
  dsimp only
  split
  · rfl
  · rfl

theorem blind_appendStat (text : String) : Blind (·.appendStat text) := by
  intro s c
  unfold appendStat
  split
  · rfl
  · rfl

theorem blind_clearStat : Blind clearStat := by
  intro s c
  unfold clearStat
  dsimp only
  split
  · rfl
  · rfl

/-- The action is looked for among the actions, and removing it only raises a flag. -/
theorem blind_removeAction (description : String) : Blind (·.removeAction description) := by
  intro s c
  have hindex : ({ s with changes := c } : Screen).actionIndex? description
      = s.actionIndex? description := rfl
  simp only [removeAction, hindex]
  cases s.actionIndex? description with
  | none => rfl
  | some index => rfl

theorem blind_clearActions : Blind clearActions := by
  intro s c
  unfold clearActions
  dsimp only
  split
  · rfl
  · rfl

/-- The same for objects; what stood at the place is given back and is no flag. -/
theorem blind_removeObject (index : Nat) : Blind fun s => (s.removeObject index).2 := by
  intro s c
  unfold removeObject
  dsimp only
  cases s.objects[index]? with
  | none => rfl
  | some o => rfl

theorem blind_takeObjects : Blind fun s => s.takeObjects.2 := fun _ _ => rfl

/-- A reset is made of changes that are blind for flags. -/
theorem blind_reset : Blind reset := by
  have hcleared := blind_takeObjects.comp
    (blind_clearActions.comp (blind_clearStat.comp blind_clearMain))
  intro s c
  exact congrArg (fun s : Screen => { s with userInput := "", currentLocation := none })
    (hcleared s c)

end Screen

/-! ## Machines that agree -/

/-- Two machines of which a script can read the same. -/
structure Machine.Agrees (m m' : Machine) : Prop where
  config : m.config = m'.config
  world : m.world = m'.world
  vars : m.vars = m'.vars
  saves : m.saves = m'.saves
  screen : m.screen.clearChanges = m'.screen.clearChanges
  rng : m.rng = m'.rng
  host : m.host = m'.host
  callDepth : m.callDepth = m'.callDepth
  location : m.site.location = m'.site.location
  action : m.site.action = m'.site.action
  clock : m.host.msecs = none → m.started = m'.started

theorem Machine.Agrees.refl (m : Machine) : m.Agrees m :=
  ⟨rfl, rfl, rfl, rfl, rfl, rfl, rfl, rfl, rfl, rfl, fun _ => rfl⟩

/-- A relation between two machines that both keep when they take the same step: one for machines
that go on, one for machines that have met an error. -/
structure Likeness where
  ok : Machine → Machine → Prop
  err : Error → Machine → Machine → Prop
  agrees {m m' : Machine} : ok m m' → m.Agrees m'
  agrees_err {e : Error} {m m' : Machine} : err e m m' → m.Agrees m'
  /-- Neither machine finds a change of location where the other one does not. -/
  moves {m₁ m₁' m₂ m₂' : Machine} :
    ok m₁ m₁' → ok m₂ m₂' → (m₂.moves = m₁.moves ↔ m₂'.moves = m₁'.moves)
  fail {m m' : Machine} (e : Error) : ok m m' → err e m m'
  bindings {m m' : Machine} (saves : Saves) (vars : Store) :
    ok m m' → ok { m with saves, vars } { m' with saves, vars }
  bindings_err {e : Error} {m m' : Machine} (saves : Saves) (vars : Store) :
    err e m m' → err e { m with saves, vars } { m' with saves, vars }
  screen {m m' : Machine} {f : Screen → Screen} (hf : Screen.Blind f) :
    ok m m' → ok { m with screen := f m.screen } { m' with screen := f m'.screen }
  /-- A host that has told the time goes on doing so. -/
  host {m m' : Machine} (host : Host) (told : host.msecs = none → m.host.msecs = none) :
    ok m m' → ok { m with host } { m' with host }
  rng {m m' : Machine} (rng : Generator) : ok m m' → ok { m with rng } { m' with rng }
  expressions {m m' : Machine} (f : Code.Cache → Code.Cache) :
    ok m m' → ok { m with expressions := f m.expressions } { m' with expressions := f m'.expressions }
  patterns {m m' : Machine} (f : Pattern.Cache → Pattern.Cache) :
    ok m m' → ok { m with patterns := f m.patterns } { m' with patterns := f m'.patterns }
  site {m m' : Machine} (site : Site) : ok m m' → ok { m with site } { m' with site }
  /-- Both may return to where they stood before. -/
  back {m₁ m₁' m₂ m₂' : Machine} :
    ok m₁ m₁' → ok m₂ m₂' → ok { m₂ with site := m₁.site } { m₂' with site := m₁'.site }
  back_err {e : Error} {m₁ m₁' m₂ m₂' : Machine} :
    ok m₁ m₁' → err e m₂ m₂' → err e { m₂ with site := m₁.site } { m₂' with site := m₁'.site }
  mark {e : Error} {m m' : Machine} : err e m m' → err e (m.markError e) (m'.markError e)
  enter {m m' : Machine} : m.callDepth < m.config.maxCallDepth → ok m m' →
    ok { m with callDepth := m.callDepth + 1 } { m' with callDepth := m'.callDepth + 1 }
  exit {m m' : Machine} : ok m m' →
    ok { m with callDepth := m.callDepth - 1 } { m' with callDepth := m'.callDepth - 1 }
  exit_err {e : Error} {m m' : Machine} : err e m m' →
    err e { m with callDepth := m.callDepth - 1 } { m' with callDepth := m'.callDepth - 1 }
  move {m m' : Machine} : ok m m' →
    ok { m with moves := m.moves + 1 } { m' with moves := m'.moves + 1 }

namespace Likeness

variable (L : Likeness) {e : Error} {m m' : Machine}

/-- The bindings may change in the variables alone, since both machines have the same groups. -/
theorem vars (vars : Store) (h : L.ok m m') : L.ok { m with vars } { m' with vars } := by
  have hb := L.bindings m.saves vars h
  rw [show ({ m' with saves := m.saves, vars } : Machine) = { m' with vars } by
    rw [(L.agrees h).saves]] at hb
  exact hb

/-- The line is part of the site, which otherwise is the same in both machines. -/
theorem line (number : Nat) (h : L.ok m m') :
    L.ok { m with site.line := number } { m' with site.line := number } := by
  have ha := L.agrees h
  have hb := L.site { m.site with line := number } h
  rw [show ({ m' with site := { m.site with line := number } } : Machine)
    = { m' with site.line := number } by simp only [ha.location, ha.action]] at hb
  exact hb

/-- What a group gives back depends on the groups and the variables, which both machines share. -/
theorem release (mark : Nat) (restore : Bool) (h : L.ok m m') :
    L.ok (Run.release mark restore m) (Run.release mark restore m') := by
  have ha := L.agrees h
  unfold Run.release
  rw [← ha.saves, ← ha.vars]
  exact L.bindings _ _ h

theorem release_err (mark : Nat) (restore : Bool) (h : L.err e m m') :
    L.err e (Run.release mark restore m) (Run.release mark restore m') := by
  have ha := L.agrees_err h
  unfold Run.release
  rw [← ha.saves, ← ha.vars]
  exact L.bindings_err _ _ h

/-- Both machines leave their location for the same one. -/
theorem leave (target : String) (h : L.ok m m') :
    L.ok (Machine.leave target m) (Machine.leave target m') := by
  have ha := L.agrees h
  have hblind : Screen.Blind fun s =>
      { (if m.config.keepStatText then s.clearActions else s.clearActions.clearStat) with
        currentLocation := some target } := by
    intro s c
    have hs : (if m.config.keepStatText then ({ s with changes := c } : Screen).clearActions
          else ({ s with changes := c } : Screen).clearActions.clearStat).clearChanges
        = (if m.config.keepStatText then s.clearActions
          else s.clearActions.clearStat).clearChanges := by
      split
      · exact Screen.blind_clearActions s c
      · exact Screen.blind_clearStat.comp Screen.blind_clearActions s c
    exact congrArg (fun s : Screen => { s with currentLocation := some target }) hs
  have hb := L.move (L.screen hblind (L.bindings (m.saves.restoreAll m.vars).1
    (m.saves.restoreAll m.vars).2 h))
  have hkeep : m'.config.keepStatText = m.config.keepStatText := by rw [ha.config]
  unfold Machine.leave
  rw [← ha.saves, ← ha.vars, hkeep]
  exact hb

end Likeness

/-- Two counts of changes of location that were read off at the same step. -/
def Likeness.Stamps (L : Likeness) (s s' : Nat) : Prop :=
  ∃ m m', L.ok m m' ∧ m.moves = s ∧ m'.moves = s'

/-- Two runs end alike. -/
inductive Outcome.Alike {α : Type} (L : Likeness) : Outcome α → Outcome α → Prop
  | done (a : α) {m m' : Machine} : L.ok m m' → Alike L (.done a m) (.done a m')
  | failed (e : Error) {m m' : Machine} : L.err e m m' → Alike L (.failed e m) (.failed e m')
  | outOfFuel : Alike L .outOfFuel .outOfFuel

/-- Two runs end alike whenever they are started in machines that are alike. -/
def Run.Alike {α : Type} (L : Likeness) (x y : Run α) : Prop :=
  ∀ m m', L.ok m m' → (x m).Alike L (y m')

/-- The calls of two records go alike. -/
structure Calls.Alike (L : Likeness) (c d : Calls) : Prop where
  turns : c.turns = d.turns
  eval : ∀ source, Run.Alike L (c.eval source) (d.eval source)
  lines : ∀ lines start stop top,
    Run.Alike L (c.lines lines start stop top) (d.lines lines start stop top)
  statements : ∀ line start stop,
    Run.Alike L (c.statements line start stop) (d.statements line start stop)

namespace Run

variable {α β : Type} {L : Likeness}

/-! ## Putting runs together -/

theorem alike_pure (a : α) : Alike L (pure a) (pure a) := fun _ _ h => .done a h

theorem alike_fail (e : Error) : Alike (α := α) L (fail e) (fail e) :=
  fun _ _ h => .failed e (L.fail e h)

theorem alike_failWith (k : ErrorKind) : Alike (α := α) L (failWith k) (failWith k) := alike_fail _

theorem alike_outOfFuel : Alike (α := α) L (fun _ => .outOfFuel) (fun _ => .outOfFuel) :=
  fun _ _ _ => .outOfFuel

theorem alike_ofExcept (r : Except Error α) : Alike L (ofExcept r) (ofExcept r) := by
  cases r with
  | ok a => exact alike_pure a
  | error e => exact alike_fail e

theorem alike_name (cs : List Char) : Alike L (name cs) (name cs) := alike_ofExcept _

/-- What a script can read is the same in both machines. -/
theorem alike_read {f : Machine → α} (hf : ∀ {m m' : Machine}, m.Agrees m' → f m = f m') :
    Alike L (read f) (read f) := by
  intro m m' h
  unfold read
  rw [hf (L.agrees h)]
  exact .done _ h

/-- The first runs end with the same result, if they end well, so the second runs are compared for one
result only. -/
theorem Alike.bind {x y : Run α} {f g : α → Run β} (hx : Alike L x y) (hf : ∀ a, Alike L (f a) (g a)) :
    Alike L (x >>= f) (y >>= g) := by
  intro m m' h
  show (x.andThen f m).Alike L (y.andThen g m')
  have hr := hx m m' h
  unfold andThen
  generalize x m = r at hr
  generalize y m' = r' at hr
  cases hr with
  | done a h => exact hf a _ _ h
  | failed e h => exact .failed e h
  | outOfFuel => exact .outOfFuel

theorem Alike.map {x y : Run α} (f : α → β) (hx : Alike L x y) : Alike L (f <$> x) (f <$> y) :=
  hx.bind fun a => alike_pure (f a)

/-- A condition that both runs ask about the same data is the same for both. -/
theorem alike_ite {p : Prop} [Decidable p] {x y x' y' : Run α} (hx : Alike L x x')
    (hy : Alike L y y') : Alike L (if p then x else y) (if p then x' else y') := by
  split
  · exact hx
  · exact hy

/-- The counts themselves may differ. Whether the location has changed since they were read off may not. -/
theorem alike_checkMoves {s s' : Nat} (hs : L.Stamps s s') :
    Alike L (checkMoves s) (checkMoves s') := by
  obtain ⟨m₁, m₁', h₁, rfl, rfl⟩ := hs
  intro m m' h
  have hiff := L.moves h₁ h
  unfold checkMoves
  by_cases hm : m.moves = m₁.moves
  · have hm' := hiff.mp hm
    simp only [hm, hm', beq_self_eq_true, if_true]
    exact .done () h
  · have hm' := fun h' => hm (hiff.mpr h')
    rw [if_neg (by simpa using hm), if_neg (by simpa using hm')]
    exact .failed _ (L.fail _ h)

/-! ## Primitive runs -/

/-- A change that is blind for flags does the same to both screens. -/
theorem alike_onScreen {f : Screen → Screen} (hf : Screen.Blind f) :
    Alike L (onScreen f) (onScreen f) := fun _ _ h => .done () (L.screen hf h)

/-- Whether there is room for an action, and whether it is there already, shows without the flags. -/
theorem alike_addAction (a : Action) : Alike L (addAction a) (addAction a) := by
  intro m m' h
  have hs := Screen.eq_of_clearChanges (L.agrees h).screen
  have hindex : m'.screen.actionIndex? a.description = m.screen.actionIndex? a.description := by
    rw [hs]
    rfl
  have hactions : m'.screen.actions = m.screen.actions := by rw [hs]
  unfold addAction Screen.addAction
  rw [hindex, hactions]
  by_cases hthere : (m.screen.actionIndex? a.description).isSome
  · simp only [if_pos hthere]
    exact .done () h
  · simp only [if_neg hthere]
    by_cases hfull : Screen.maxActions ≤ m.screen.actions.length
    · simp only [if_pos hfull]
      exact .failed _ (L.fail _ h)
    · simp only [if_neg hfull]
      have hblind : Screen.Blind fun s =>
          { s with actions := m.screen.actions ++ [a], changes.actions := true } := fun _ _ => rfl
      exact .done () (L.screen hblind h)

/-- The stores are the same, so a change of them is too. -/
theorem alike_onVars (f : Store → Except Error α × Store) : Alike L (onVars f) (onVars f) := by
  intro m m' h
  have hb := L.vars (f m.vars).2 h
  unfold onVars
  rw [← (L.agrees h).vars]
  cases hf : f m.vars with
  | mk r vars =>
    rw [hf] at hb
    cases r with
    | ok a => exact .done a hb
    | error e => exact .failed e (L.fail e hb)

/-- A change of the variables that cannot fail. -/
theorem alike_modifyVars (f : Store → Store) :
    Alike L (modify fun m => { m with vars := f m.vars }) (modify fun m => { m with vars := f m.vars }) := by
  intro m m' h
  unfold modify
  dsimp only
  rw [← (L.agrees h).vars]
  exact .done () (L.vars _ h)

theorem alike_callHost (c : HostCall) : Alike L (callHost c) (callHost c) := by
  intro m m' h
  unfold callHost modify Machine.call
  dsimp only
  rw [← (L.agrees h).host]
  exact .done () (L.host _ id h)

/-- The hosts are the same, so they give the same answer. -/
theorem alike_askHost (answer : Host → α) (next : Host → Host)
    (hnext : ∀ host, (next host).msecs = host.msecs) :
    Alike L (fun m => .done (answer m.host) { m with host := next m.host })
      (fun m => .done (answer m.host) { m with host := next m.host }) := by
  intro m m' h
  dsimp only
  rw [← (L.agrees h).host]
  exact .done _ (L.host _ (fun hnone => (hnext _).symm.trans hnone) h)

/-- Machines that are read by the clock were created at the same time. -/
theorem alike_msecs : Alike L msecs msecs := by
  intro m m' h
  have ha := L.agrees h
  unfold msecs
  rw [← ha.host]
  cases hmsecs : m.host.msecs with
  | some n => exact .done n h
  | none =>
    have hwait : L.ok { m with host := m.host.wait } { m' with host := m.host.wait } :=
      L.host _ id h
    have helapsed : Machine.elapsed { m with host := m.host.wait }
        = Machine.elapsed { m' with host := m.host.wait } := by
      unfold Machine.elapsed
      rw [ha.clock hmsecs]
    dsimp only
    rw [helapsed]
    exact .done _ hwait

/-- Both caches give what compiling gives. -/
theorem alike_compiled (source : List Char) : Alike L (compiled source) (compiled source) := by
  intro m m' h
  have hb := L.expressions (fun c => (c.get (String.ofList source)).2) h
  have hfst := m.expressions.get_fst (String.ofList source)
  rw [← m'.expressions.get_fst (String.ofList source)] at hfst
  unfold compiled
  generalize m.expressions.get (String.ofList source) = r at hfst hb
  generalize m'.expressions.get (String.ofList source) = r' at hfst hb
  obtain ⟨r, c⟩ := r
  obtain ⟨r', c'⟩ := r'
  obtain rfl : r = r' := hfst
  cases r with
  | ok code => exact .done code hb
  | error e => exact .failed _ (L.fail _ hb)

/-- A pattern means the same whatever is in the cache, and both caches take it in. -/
theorem alike_pattern (source : String) : Alike L (pattern source) (pattern source) := by
  intro m m' h
  have hb := L.patterns (fun c => (c.get source).2) h
  have hfst := m.patterns.get_fst source
  rw [← m'.patterns.get_fst source] at hfst
  unfold pattern
  generalize m.patterns.get source = r at hfst hb
  generalize m'.patterns.get source = r' at hfst hb
  obtain ⟨r, c⟩ := r
  obtain ⟨r', c'⟩ := r'
  obtain rfl : r = r' := hfst
  cases r with
  | ok p => exact .done p hb
  | error e => exact .failed _ (L.fail _ hb)

theorem alike_random (low high : Number) : Alike L (random low high) (random low high) := by
  intro m m' h
  unfold random
  rw [← (L.agrees h).rng]
  exact .done _ (L.rng _ h)

theorem alike_localize (key : String) : Alike L (localize key) (localize key) := by
  intro m m' h
  have ha := L.agrees h
  unfold localize modify
  dsimp only
  rw [← ha.saves, ← ha.vars]
  exact .done () (L.bindings _ _ h)

/-! ## Frames -/

/-- Both machines note where the same error arose. -/
theorem Alike.marked {x y : Run α} (hx : Alike L x y) : Alike L x.marked y.marked := by
  intro m m' h
  have hr := hx m m' h
  unfold Run.marked
  generalize x m = r at hr
  generalize y m' = r' at hr
  cases hr with
  | done a h => exact .done a h
  | failed e h => exact .failed e (L.mark h)
  | outOfFuel => exact .outOfFuel

/-- The groups of both machines are opened and closed at the same depth. -/
theorem Alike.grouped {x y : Run α} (hx : Alike L x y) : Alike L x.grouped y.grouped := by
  intro m m' h
  have ha := L.agrees h
  have hstart : L.ok { m with saves := m.saves.allocate } { m' with saves := m'.saves.allocate } := by
    have hb := L.bindings m.saves.allocate m.vars h
    rw [show ({ m' with saves := m.saves.allocate, vars := m.vars } : Machine)
      = { m' with saves := m'.saves.allocate } by rw [ha.saves, ha.vars]] at hb
    exact hb
  have hr := hx _ _ hstart
  unfold Run.grouped
  dsimp only
  rw [← ha.saves] at hr ⊢
  generalize x { m with saves := m.saves.allocate } = r at hr
  generalize y { m' with saves := m.saves.allocate } = r' at hr
  cases hr with
  | done a h => exact .done a (L.release _ _ h)
  | failed e h => exact .failed e (L.release_err _ _ h)
  | outOfFuel => exact .outOfFuel

/-- Both calls are as deep, so both pass the limit or neither does. -/
theorem Alike.nested {x y : Run α} (hx : Alike L x y) : Alike L x.nested y.nested := by
  intro m m' h
  have ha := L.agrees h
  have hdepth : m'.config.maxCallDepth ≤ m'.callDepth ↔ m.config.maxCallDepth ≤ m.callDepth := by
    rw [ha.config, ha.callDepth]
  unfold Run.nested
  by_cases hd : m.config.maxCallDepth ≤ m.callDepth
  · rw [if_pos hd, if_pos (hdepth.mpr hd)]
    exact .failed _ (L.fail _ h)
  · rw [if_neg hd, if_neg fun hd' => hd (hdepth.mp hd')]
    have hr := hx _ _ (L.enter (Nat.not_le.mp hd) h)
    generalize x { m with callDepth := m.callDepth + 1 } = r at hr
    generalize y { m' with callDepth := m'.callDepth + 1 } = r' at hr
    cases hr with
    | done a h => exact .done a (L.exit h)
    | failed e h => exact .failed e (L.exit_err h)
    | outOfFuel => exact .outOfFuel

/-- Each machine returns to its own site, which is why a likeness has a law for that. -/
theorem Alike.atSite {x y : Run α} (site : Site) (hx : Alike L x y) :
    Alike L (atSite site x) (atSite site y) := by
  intro m m' h
  have hr := hx _ _ (L.site site h)
  unfold Run.atSite
  generalize x { m with site } = r at hr
  generalize y { m' with site } = r' at hr
  cases hr with
  | done a h₂ => exact .done a (L.back h h₂)
  | failed e h₂ => exact .failed e (L.back_err h h₂)
  | outOfFuel => exact .outOfFuel

end Run

end QuestScript
