import QuestScript.Proofs.Frame
import QuestScript.Proofs.Likeness.Near
import QuestScript.Proofs.Random
import QuestScript.Proofs.Store

/-!
# Requests to an engine

All that a host can ask of an engine, in one type, so that histories can be spoken of:
`Engine.serve` gives the answer and the engine after a request, `Engine.serveAll` the engine after a
sequence of them.

* `serve_entry`: an entry prepares the screen and then enters one run, `Entry.body`, which is written
  over any calls.
* `serve_near`: engines that are near give near answers and stay near.
* `serveAll_settled`: whatever a new engine has been asked, it has its configuration and the limits
  that belong to it, no frame is open, and no place of an error is left behind.
-/

namespace QuestScript

/-! ## What no run changes -/

/-- One write keeps the limits of a store. -/
theorem Store.Change.limits {s s' : Store} (h : s.Change s') : s'.limits = s.limits := by
  cases h with
  | putRaw key position v => exact (s.preserves_putRaw _ _ _).1
  | assign name position op v => exact (s.preserves_assign _ _ _ _).1
  | assignIndex name index op v => exact (s.preserves_assignIndex _ _ _ _).1
  | copyArray dest src start count => exact (s.preserves_copyArray _ _ _ _).1
  | clear => rfl
  | removeVar key => rfl
  | removeItem key position => rfl

/-- A variable that is saved takes none of the limits with it. -/
theorem Saves.limits_localize (saves : Saves) (s : Store) (key : String) :
    (saves.localize s key).2.limits = s.limits := by
  unfold localize
  split
  · rfl
  · split
    · rfl
    · rfl

/-- What is the same before and after every run: the configuration, the limits that belong to it, and
when the machine was created. -/
structure Machine.Constant (m m' : Machine) : Prop where
  config : m'.config = m.config
  limits : m'.vars.limits = m.vars.limits
  started : m'.started = m.started

namespace Machine.Constant

variable {m m₁ m₂ m₃ : Machine}

theorem refl (m : Machine) : m.Constant m := ⟨rfl, rfl, rfl⟩

theorem trans (h₁ : m₁.Constant m₂) (h₂ : m₂.Constant m₃) : m₁.Constant m₃ :=
  ⟨h₂.config.trans h₁.config, h₂.limits.trans h₁.limits, h₂.started.trans h₁.started⟩

end Machine.Constant

/-- The discipline of what stays as it is. -/
def constants : Discipline where
  ok := Machine.Constant
  err := Machine.Constant
  ok_refl := .refl
  ok_trans := .trans
  err_refl := .refl
  err_trans := .trans
  vars h := ⟨rfl, h.limits, rfl⟩
  screen _ := ⟨rfl, rfl, rfl⟩
  host _ _ := ⟨rfl, rfl, rfl⟩
  rng _ _ := ⟨rfl, rfl, rfl⟩
  expressions _ _ := ⟨rfl, rfl, rfl⟩
  patterns _ _ := ⟨rfl, rfl, rfl⟩
  site _ _ := ⟨rfl, rfl, rfl⟩
  err_site _ h := ⟨h.config, h.limits, h.started⟩
  err_mark _ h := ⟨h.config, h.limits, h.started⟩
  localize m key := ⟨rfl, m.saves.limits_localize m.vars key, rfl⟩
  group_ok h := ⟨h.config, (Saves.limits_closeAbove _ _ _ _).trans h.limits, h.started⟩
  group_err h := ⟨h.config, (Saves.limits_closeAbove _ _ _ _).trans h.limits, h.started⟩
  call_ok h := ⟨h.config, h.limits, h.started⟩
  call_err h := ⟨h.config, h.limits, h.started⟩
  leave_err _ h := ⟨h.config, h.limits.trans (Saves.limits_closeAbove _ _ _ _), h.started⟩

/-- A change of location puts variables back under the limits that they have. -/
theorem Machine.leave_constants (target : String) (m : Machine) :
    constants.ok m (leave target m) := ⟨rfl, Saves.limits_closeAbove _ _ _ _, rfl⟩

theorem Reply.map_map {α β γ : Type} (f : α → β) (g : β → γ) (r : Reply α) :
    (r.map f).map g = r.map fun a => g (f a) := by cases r <;> rfl

/-- An answer that was cut off is completed before or after a change of its value. -/
theorem Reply.map_orCut {α β : Type} (f : α → β) (a : α) (r : Reply α) :
    (r.orCut a).map f = (r.map f).orCut (f a) := by cases r <;> rfl

namespace Engine

/-! ## Requests and answers -/

/-- What a host can ask of an engine. -/
inductive Request where
  | entry (x : Entry)
  | set (name : String) (index v : Value)
  | setInput (text : String)
  | takeChanges
  | takeCalls
  | clearError
  /-- From now on the host gives other answers. -/
  | answers (host : Host)
  | reset
  | load (world : World)

/-- After the request the host tells the time if it did before. -/
def Request.TellsTime : Request → Prop
  | .answers host => host.msecs ≠ none
  | _ => True

/-- What an entry gives. -/
inductive Result where
  | unit
  | flag (b : Bool)
  | value (v : Value)
deriving DecidableEq, Repr

/-- The answer to a request. -/
inductive Answer where
  | reply (r : Reply Result)
  | changes (c : Changes)
  | calls (made : List HostCall)
  | silent
deriving DecidableEq, Repr

/-- A reply as an answer, with the engine after it. -/
def answer {α : Type} (f : α → Result) (r : Reply α × Engine) : Answer × Engine :=
  (.reply (r.1.map f), r.2)

/-- The answer to a request and the engine after it. -/
def serve (e : Engine) : Request → Answer × Engine
  | .entry (.run code) => answer (fun _ => .unit) (e.run code)
  | .entry (.runLocation name) => answer (fun _ => .unit) (e.runLocation name)
  | .entry (.goTo name) => answer (fun _ => .unit) (e.goTo name)
  | .entry (.call name args) => answer .value (e.call name args)
  | .entry (.eval source) => answer .value (e.eval source)
  | .entry (.act index) => answer (fun _ => .unit) (e.act index)
  | .entry (.select index) => answer .flag (e.select index)
  | .entry .submit => answer (fun _ => .unit) e.submit
  | .entry .tick => answer (fun _ => .unit) e.tick
  | .set name index v => answer (fun _ => .unit) (e.set name index v)
  | .setInput text => (.silent, e.setInput text)
  | .takeChanges => (.changes e.takeChanges.1, e.takeChanges.2)
  | .takeCalls => (.calls e.takeCalls.1, e.takeCalls.2)
  | .clearError => (.silent, e.clearError)
  | .answers host => (.silent, { e with machine := { e.machine with host } })
  | .reset => (.silent, e.reset)
  | .load world => (.silent, e.load world)

/-- The engine after a sequence of requests. -/
def serveAll (e : Engine) : List Request → Engine
  | [] => e
  | r :: rs => (e.serve r).2.serveAll rs

/-- What an entry leaves behind. -/
theorem serve_entry_snd (e : Engine) (x : Entry) : (e.serve (.entry x)).2 = e.after x := by
  cases x <;> rfl

/-! ## Entries as runs -/

/-- The run of an entry over given calls. -/
def Entry.body (c : Calls) : Entry → Run Result
  | .run code => (fun _ => .unit) <$> Run.grouped (Machine.runBody c (Line.ofSource code.toList))
  | .runLocation name => (fun _ => .unit) <$> Machine.callLocation c name [] false
  | .goTo name => (fun _ => .unit) <$> Machine.goTo c name [] true
  | .call name args =>
    (fun slot => .value (Machine.resultValue slot none)) <$> Machine.callLocation c name args false
  | .eval source => .value <$> c.eval source.toList
  | .act index => fun m =>
    match m.screen.actions[index]? with
    | none => .failed ⟨.unknownAction, some (toString index)⟩ m
    | some action =>
      ((fun _ => .unit) <$> Run.atSite { location := action.location, action := some index }
        (Run.grouped (Machine.runBody c action.code))) m
  | .select index => fun m =>
    if m.screen.objects.length ≤ index then .done (.flag false) m
    else ((fun _ => .flag true) <$> Machine.runHooks c "ONOBJSEL" []) m
  | .submit => (fun _ => .unit) <$> Machine.runHooks c "USERCOM" []
  | .tick => (fun _ => .unit) <$> Machine.runHooks c "COUNTER" []

/-- The screen in which an entry runs: what is chosen is marked as selected. -/
def Entry.prepare : Entry → Screen → Screen
  | .act index, s => if index < s.actions.length then { s with selectedAction := some index } else s
  | .select index, s =>
    if s.objects.length ≤ index then s else { s with selectedObject := some index }
  | _, s => s

/-- The engine in which an entry runs. -/
def prepared (e : Engine) (x : Entry) : Engine :=
  { e with machine := { e.machine with screen := x.prepare e.machine.screen } }

/-- What an entry gives when a change of location has cut it short. -/
def Entry.settle : Entry → Reply Result → Reply Result
  | .call _ _, r | .eval _, r => r.orCut (.value (.number 0))
  | .select _, r => r.orCut (.flag true)
  | _, r => r

/-- To change the value of a run is to change the value that comes back. -/
theorem enter_map {α β : Type} (e : Engine) (f : α → β) (x : Run α) :
    e.enter (f <$> x) = ((e.enter x).1.map f, (e.enter x).2) := by
  have hmap (m : Machine) : (f <$> x) m = x.andThen (fun a => Run.ret (f a)) m := rfl
  unfold enter
  rw [hmap]
  unfold Run.andThen
  cases x { e.machine with errorSite := none } with
  | done a m => rfl
  | outOfFuel => rfl
  | failed error m =>
    dsimp only
    split
    · rfl
    · rfl

/-- An answer is a reply with its value written as a result. -/
theorem answer_enter {α : Type} (e : Engine) (f : α → Result) (x : Run α) :
    answer f (e.enter x) = (.reply (e.enter (f <$> x)).1, (e.enter (f <$> x)).2) := by
  rw [enter_map]
  rfl

/-- To clear the place of an error does nothing between requests. -/
theorem errorSite_none_eq {m : Machine} (h : m.errorSite = none) :
    ({ m with errorSite := none } : Machine) = m := by rw [← h]

theorem serve_act {e : Engine} (h : e.machine.errorSite = none) (index : Nat) :
    e.serve (.entry (.act index)) =
      (.reply ((e.prepared (.act index)).enter (Entry.body calls (.act index))).1,
        ((e.prepared (.act index)).enter (Entry.body calls (.act index))).2) := by
  show answer _ (e.act index) = _
  cases ha : e.machine.screen.actions[index]? with
  | none =>
    have hlen : ¬ index < e.machine.screen.actions.length := by simpa using ha
    have hprepared : e.prepared (.act index) = e := by
      simp only [prepared, Entry.prepare, if_neg hlen]
    have hact : e.act index = e.fail ⟨.unknownAction, some (toString index)⟩ := by
      unfold act
      rw [ha]
    have henter : e.enter (Entry.body calls (.act index))
        = e.fail ⟨.unknownAction, some (toString index)⟩ := by
      unfold enter
      rw [errorSite_none_eq h]
      unfold Entry.body
      dsimp only
      rw [ha]
      rfl
    rw [hprepared, hact, henter]
    rfl
  | some action =>
    have hlen : index < e.machine.screen.actions.length := (List.getElem?_eq_some_iff.mp ha).1
    have hact : e.act index = (e.prepared (.act index)).enter
        (Run.atSite { location := action.location, action := some index }
          (Run.grouped (Machine.runBody calls action.code))) := by
      simp only [act, ha, prepared, Entry.prepare, if_pos hlen]
    have henter : (e.prepared (.act index)).enter (Entry.body calls (.act index))
        = (e.prepared (.act index)).enter ((fun _ => .unit) <$>
          Run.atSite { location := action.location, action := some index }
            (Run.grouped (Machine.runBody calls action.code))) := by
      have hactions : (e.prepared (.act index)).machine.screen.actions[index]? = some action := by
        simp only [prepared, Entry.prepare, if_pos hlen]
        exact ha
      unfold enter Entry.body
      dsimp only
      rw [hactions]
    rw [hact, henter, answer_enter]

theorem serve_select {e : Engine} (h : e.machine.errorSite = none) (index : Nat) :
    e.serve (.entry (.select index)) =
      (.reply (((e.prepared (.select index)).enter (Entry.body calls (.select index))).1.orCut
          (.flag true)),
        ((e.prepared (.select index)).enter (Entry.body calls (.select index))).2) := by
  show answer _ (e.select index) = _
  by_cases hlen : e.machine.screen.objects.length ≤ index
  · have hprepared : e.prepared (.select index) = e := by
      simp only [prepared, Entry.prepare, if_pos hlen]
    have hselect : e.select index = (.done false, e) := by simp only [select, if_pos hlen]
    have henter : e.enter (Entry.body calls (.select index)) = (.done (.flag false), e) := by
      unfold enter
      rw [errorSite_none_eq h]
      simp only [Entry.body, if_pos hlen]
    rw [hprepared, hselect, henter]
    rfl
  · have hobjects : ¬ (e.prepared (.select index)).machine.screen.objects.length ≤ index := by
      simp only [prepared, Entry.prepare, if_neg hlen]
      exact hlen
    have hselect : e.select index =
        (((((e.prepared (.select index)).enter (Machine.runHooks calls "ONOBJSEL" [])).1.map
            fun _ => true).orCut true),
          ((e.prepared (.select index)).enter (Machine.runHooks calls "ONOBJSEL" [])).2) := by
      simp only [select, prepared, Entry.prepare, if_neg hlen]
    have henter : (e.prepared (.select index)).enter (Entry.body calls (.select index))
        = (e.prepared (.select index)).enter
          ((fun _ => .flag true) <$> Machine.runHooks calls "ONOBJSEL" []) := by
      unfold enter Entry.body
      dsimp only
      rw [if_neg hobjects]
    rw [hselect, henter, enter_map]
    unfold answer
    rw [Reply.map_orCut, Reply.map_map]

/-- **An entry is one run**, entered with the screen prepared for it. -/
theorem serve_entry {e : Engine} (h : e.machine.errorSite = none) (x : Entry) :
    e.serve (.entry x) =
      (.reply (x.settle ((e.prepared x).enter (x.body calls)).1),
        ((e.prepared x).enter (x.body calls)).2) := by
  cases x with
  | run code => exact answer_enter e _ _
  | goTo name => exact answer_enter e _ _
  | submit => exact answer_enter e _ _
  | tick => exact answer_enter e _ _
  | runLocation name =>
    refine (answer_enter e _ _).trans ?_
    rw [map_bind]
    rfl
  | call name args =>
    show (Answer.reply ((((e.enter (Machine.callLocation calls name args false)).1.orCut none).map
      fun slot => Machine.resultValue slot none).map .value), _) = _
    rw [Reply.map_map, Reply.map_orCut]
    exact (congrArg (fun r : Reply Result × Engine => (Answer.reply (r.1.orCut _), r.2))
      (e.enter_map _ _)).symm
  | eval source =>
    show (Answer.reply (((e.enter (calls.eval source.toList)).1.orCut (.number 0)).map .value), _) = _
    rw [Reply.map_orCut]
    exact (congrArg (fun r : Reply Result × Engine => (Answer.reply (r.1.orCut _), r.2))
      (e.enter_map _ _)).symm
  | act index => exact serve_act h index
  | select index => exact serve_select h index

/-! ## Engines that are near -/

theorem Entry.body_alike {L : Likeness} {c d : Calls} (hc : c.Alike L d) (x : Entry) :
    Run.Alike L (x.body c) (x.body d) := by
  cases x with
  | run code => exact (Machine.runBody_alike hc _).grouped.map _
  | runLocation name => exact (Machine.callLocation_alike hc _ _ _).map _
  | goTo name => exact (Machine.goTo_alike hc _ _ _).map _
  | call name args => exact (Machine.callLocation_alike hc _ _ _).map _
  | eval source => exact (hc.eval _).map _
  | submit => exact (Machine.runHooks_alike hc _ _).map _
  | tick => exact (Machine.runHooks_alike hc _ _).map _
  | act index =>
    intro m m' h
    have hactions : m'.screen.actions = m.screen.actions := by
      rw [Screen.eq_of_clearChanges (L.agrees h).screen]
    unfold Entry.body
    dsimp only
    rw [hactions]
    split
    · exact .failed _ (L.fail _ h)
    · exact ((Machine.runBody_alike hc _).grouped.atSite _).map _ _ _ h
  | select index =>
    intro m m' h
    have hobjects : m'.screen.objects = m.screen.objects := by
      rw [Screen.eq_of_clearChanges (L.agrees h).screen]
    unfold Entry.body
    dsimp only
    rw [hobjects]
    split
    · exact .done _ h
    · exact (Machine.runHooks_alike hc _ _).map _ _ _ h

theorem Entry.blind_prepare (x : Entry) : Screen.Blind x.prepare := by
  intro s c
  cases x with
  | act index =>
    unfold Entry.prepare
    dsimp only
    split
    · rfl
    · rfl
  | select index =>
    unfold Entry.prepare
    dsimp only
    split
    · rfl
    · rfl
  | _ => rfl

/-- Two answers that are the same but for lines, which are linked, and for flags. -/
inductive Answer.Near (R : Nat → Nat → Prop) : Answer → Answer → Prop
  | reply {r r' : Reply Result} : r.Near R r' → Near R (.reply r) (.reply r')
  | changes (c c' : Changes) : Near R (.changes c) (.changes c')
  | calls (made : List HostCall) : Near R (.calls made) (.calls made)
  | silent : Near R .silent .silent

/-- What an entry makes of a reply does not look at the place of an error. -/
theorem Entry.settle_near {R : Nat → Nat → Prop} {r r' : Reply Result} (h : r.Near R r')
    (x : Entry) : (x.settle r).Near R (x.settle r') := by
  have horCut (a : Result) : (r.orCut a).Near R (r'.orCut a) := by
    cases h with
    | done b => exact .done b
    | cut => exact .done a
    | failed hf => exact .failed hf
    | stuck => exact .stuck
  cases x with
  | call name args => exact horCut _
  | eval source => exact horCut _
  | select index => exact horCut _
  | _ => exact h

section Near

variable {R : Nat → Nat → Prop} {a b : Nat} {e e' : Engine}

/-- An entry selects an item in both engines alike. -/
theorem Near.prepared (h : e.Near R a b e') (x : Entry) :
    (e.prepared x).Near R a b (e'.prepared x) where
  machine := { h.machine with screen := x.blind_prepare.congr h.machine.screen }
  noSite := h.noSite
  lastError := h.lastError

/-- A variable is set from outside in both engines alike. -/
theorem set_near (h : e.Near R a b e') (name : String) (index v : Value) :
    (e.set name index v).1.Near R (e'.set name index v).1 ∧
      (e.set name index v).2.Near R a b (e'.set name index v).2 := by
  have hafter (error : Error) (vars : Store) :
      Machine.NearAfter R a b error { e.machine with vars } { e'.machine with vars } := by
    refine ⟨{ h.machine with vars := rfl }, ?_, fun _ => h.noSite⟩
    show Option.Rel _ e.machine.errorSite e'.machine.errorSite
    rw [h.noSite.1, h.noSite.2]
    exact .none
  unfold set
  split
  · next error _ =>
    have := hafter error e.machine.vars
    rw [show ({ e'.machine with vars := e.machine.vars } : Machine) = e'.machine by
      rw [h.machine.vars]] at this
    exact fail_near this
  · rw [← h.machine.vars]
    split
    · next vars _ => exact ⟨.done (), { h.machine with vars := rfl }, h.noSite, h.lastError⟩
    · next error vars _ => exact fail_near (hafter error vars)

/-- A reset empties both engines alike, and leaves their counts of moves as far apart as they were. -/
theorem reset_near (hR : ∀ l, R l l) (h : e.Near R a b e') : e.reset.Near R a b e'.reset where
  machine :=
    { h.machine with
      vars := congrArg Store.clear h.machine.vars
      saves := rfl
      screen := Screen.blind_reset.congr h.machine.screen
      rng := by
        show e.machine.rng.reseed (Machine.seed e.machine.config e.machine.host)
          = e'.machine.rng.reseed (Machine.seed e'.machine.config e'.machine.host)
        rw [Generator.reseed_eq_ofSeed, Generator.reseed_eq_ofSeed, h.machine.config, h.machine.host]
      location := rfl
      action := rfl
      line := hR 0
      moves := by
        have := h.machine.moves
        show e.machine.moves + 1 + a = e'.machine.moves + 1 + b
        omega }
  noSite := h.noSite
  lastError := .none

theorem load_near (hR : ∀ l, R l l) (h : e.Near R a b e') (world : World) :
    (e.load world).Near R a b (e'.load world) :=
  reset_near hR ⟨{ h.machine with world := rfl }, h.noSite, h.lastError⟩

/-- **Engines that are near answer alike and stay near.** If they were not created at the same time, the
host has to go on telling the time. -/
theorem serve_near (hR : ∀ l, R l l) (h : e.Near R a b e') (r : Request)
    (hclock : e.machine.started = e'.machine.started ∨ r.TellsTime) :
    (e.serve r).1.Near R (e'.serve r).1 ∧ (e.serve r).2.Near R a b (e'.serve r).2 := by
  cases r with
  | entry x =>
    have hbody := x.body_alike (Calls.ofFuel_alike (near R hR a b) fuel)
    obtain ⟨hreply, hengine⟩ := enter_near hR hbody (h.prepared x)
    rw [serve_entry h.noSite.1, serve_entry h.noSite.2]
    exact ⟨.reply (x.settle_near hreply), hengine⟩
  | set name index v =>
    obtain ⟨hreply, hengine⟩ := set_near h name index v
    exact ⟨.reply (hreply.map _), hengine⟩
  | setInput text =>
    have hblind : Screen.Blind fun s => { s with userInput := text } := fun _ _ => rfl
    exact ⟨.silent, { h.machine with screen := hblind.congr h.machine.screen }, h.noSite, h.lastError⟩
  | takeChanges =>
    have hblind : Screen.Blind Screen.clearChanges := fun _ _ => rfl
    exact ⟨.changes _ _, { h.machine with screen := hblind.congr h.machine.screen }, h.noSite,
      h.lastError⟩
  | takeCalls =>
    refine ⟨?_, { h.machine with host := congrArg (·.takeCalls.2) h.machine.host }, h.noSite,
      h.lastError⟩
    show Answer.Near R (.calls e.machine.host.takeCalls.1) (.calls e'.machine.host.takeCalls.1)
    rw [h.machine.host]
    exact .calls _
  | clearError => exact ⟨.silent, h.machine, h.noSite, .none⟩
  | answers host =>
    have hsame (hnone : host.msecs = none) : e.machine.started = e'.machine.started :=
      hclock.resolve_right fun htells => htells hnone
    exact ⟨.silent, { h.machine with host := rfl, clock := hsame }, h.noSite, h.lastError⟩
  | reset => exact ⟨.silent, reset_near hR h⟩
  | load world => exact ⟨.silent, load_near hR h world⟩

end Near

/-! ## Engines between requests -/

/-- An entry keeps a discipline that allows a change of location. -/
theorem Entry.body_obeys {D : Discipline} (hleave : ∀ target m, D.ok m (Machine.leave target m))
    {c : Calls} (hc : c.Obey D) (x : Entry) : (x.body c).Obeys D := by
  cases x with
  | run code => exact (Machine.runBody_obeys hc _).grouped.map _
  | runLocation name => exact (Machine.callLocation_obeys hc _ _ _).map _
  | goTo name =>
    refine Run.Obeys.map _ fun m => ?_
    rcases Machine.goTo_keeps hc name [] true m with ⟨error, hg⟩ | ⟨target, hg⟩
    · rw [hg]
      exact D.err_refl m
    · exact hg.trans (hleave target m)
  | call name args => exact (Machine.callLocation_obeys hc _ _ _).map _
  | eval source => exact (hc.eval _).map _
  | submit => exact (Machine.runHooks_obeys hc _ _).map _
  | tick => exact (Machine.runHooks_obeys hc _ _).map _
  | act index =>
    intro m
    unfold Entry.body
    dsimp only
    split
    · exact D.err_refl m
    · exact ((Machine.runBody_obeys hc _).grouped.atSite _).map _ m
  | select index =>
    intro m
    unfold Entry.body
    dsimp only
    split
    · exact D.ok_refl m
    · exact (Machine.runHooks_obeys hc _ _).map _ m

/-- What is run in an entry changes no constant. -/
theorem enter_constants {α : Type} (e : Engine) {x : Run α} (hx : x.Obeys constants) :
    constants.ok e.machine (e.enter x).2.machine := by
  have hm := hx { e.machine with errorSite := none }
  unfold enter
  cases hr : x { e.machine with errorSite := none } with
  | done a m =>
    rw [hr] at hm
    exact ⟨hm.config, hm.limits, hm.started⟩
  | outOfFuel => exact constants.ok_refl _
  | failed error m =>
    rw [hr] at hm
    dsimp only
    split
    · exact ⟨hm.config, hm.limits, hm.started⟩
    · exact ⟨hm.config, hm.limits, hm.started⟩

/-- What is true of an engine between requests. -/
structure Settled (config : Config) (e : Engine) : Prop where
  limits : e.machine.vars.limits = (config.maxVariables, config.maxArrayItems)
  config : e.machine.config = config
  atRest : e.machine.AtRest
  noSite : e.machine.errorSite = none

variable {config : Config} {e : Engine}

theorem new_settled (config : Config) (host : Host) : (new config host).Settled config :=
  ⟨rfl, rfl, ⟨rfl, rfl⟩, rfl⟩

theorem Settled.reset (h : e.Settled config) : e.reset.Settled config :=
  ⟨h.limits, h.config, ⟨rfl, h.atRest.2⟩, h.noSite⟩

/-- To set a variable leaves the engine settled, also when that fails. -/
theorem set_settled (h : e.Settled config) (name : String) (index v : Value) :
    (e.set name index v).2.Settled config := by
  have hlimits (n : VarName) : (e.machine.vars.set n index v).2.limits = e.machine.vars.limits :=
    (e.machine.vars.preserves_assignIndex n index .set v).1
  unfold set
  split
  · exact ⟨h.limits, h.config, h.atRest, rfl⟩
  · next n _ =>
    have hn := hlimits n
    split
    · next hset =>
      rw [hset] at hn
      exact ⟨hn.trans h.limits, h.config, h.atRest, h.noSite⟩
    · next hset =>
      rw [hset] at hn
      exact ⟨hn.trans h.limits, h.config, h.atRest, rfl⟩

/-- What is constant in every run is so when an entry is served. -/
theorem serve_entry_constants (h : e.machine.errorSite = none) (x : Entry) :
    e.machine.Constant (e.serve (.entry x)).2.machine := by
  have hconstants := (e.prepared x).enter_constants
    (x.body_obeys Machine.leave_constants (Calls.ofFuel_obey constants fuel))
  rw [serve_entry h]
  exact ⟨hconstants.config, hconstants.limits, hconstants.started⟩

/-- Every request leaves an engine settled. -/
theorem serve_settled (h : e.Settled config) (r : Request) : (e.serve r).2.Settled config := by
  cases r with
  | entry x =>
    have hconstants := serve_entry_constants h.noSite x
    -- an engine is near to itself, and near engines have no place of an error
    have hnear := serve_near (fun _ => rfl) (near_self (fun _ => rfl) h.noSite) (.entry x) (.inl rfl)
    have hrest := e.after_atRest h.atRest x
    rw [← serve_entry_snd] at hrest
    exact ⟨hconstants.limits.trans h.limits, hconstants.config.trans h.config, hrest,
      hnear.2.noSite.1⟩
  | set name index v => exact set_settled h name index v
  | setInput text => exact ⟨h.limits, h.config, h.atRest, h.noSite⟩
  | takeChanges => exact ⟨h.limits, h.config, h.atRest, h.noSite⟩
  | takeCalls => exact ⟨h.limits, h.config, h.atRest, h.noSite⟩
  | clearError => exact ⟨h.limits, h.config, h.atRest, h.noSite⟩
  | answers host => exact ⟨h.limits, h.config, h.atRest, h.noSite⟩
  | reset => exact h.reset
  | load world =>
    exact Settled.reset (e := { e with machine := { e.machine with world } })
      ⟨h.limits, h.config, h.atRest, h.noSite⟩

/-- No request changes when an engine was created. -/
theorem serve_started (h : e.machine.errorSite = none) (r : Request) :
    (e.serve r).2.machine.started = e.machine.started := by
  cases r with
  | entry x => exact (serve_entry_constants h x).started
  | set name index v =>
    show (e.set name index v).2.machine.started = _
    unfold set
    split
    · rfl
    · split
      · rfl
      · rfl
  | _ => rfl

/-- **A new engine is settled after every sequence of requests.** -/
theorem serveAll_settled (h : e.Settled config) (rs : List Request) :
    (e.serveAll rs).Settled config := by
  induction rs generalizing e with
  | nil => exact h
  | cons r rs ih => exact ih (serve_settled h r)

end Engine

end QuestScript
