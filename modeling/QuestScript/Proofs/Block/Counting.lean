import QuestScript.Proofs.Endless
import QuestScript.Proofs.Frame.Eval
import QuestScript.Proofs.Requests
import QuestScript.Proofs.Store.ReadWrite

/-!
# Counting loops

`FOR` sets its variable, and as long as the variable has not passed the bound it runs the body and adds
the step. The variable is a number of 64 bits, and the step is added without a check, so what the loop
counts depends on where the range ends:

* in general the values are those of the additions that wrap around (`Counting`, `runFor_counting`), and
  an addition that does so never ends the loop (`Counting.of_overflow`);
* if no addition leaves the numbers, they are the range that the header spells (`runFor_range`).

The run is followed turn by turn (`Turns`): a turn evaluates the bound and the step, runs the body while
the variable holds its value, and adds the step. What a turn needs of the machine may depend on the value:
it is asked for only at the values that the loop comes to (`Steady`).
-/

namespace QuestScript

/-! ## Runs with enough fuel -/

/-- With enough fuel a run ends with a result. -/
def Yields {α : Type} (x : Calls → Run α) (m : Machine) (a : α) (m' : Machine) : Prop :=
  ∃ enough, ∀ n, enough ≤ n → x (Calls.ofFuel n) m = .done a m'

namespace Yields

variable {α β : Type} {x : Calls → Run α} {m m₁ m' : Machine} {a : α} {b : β}

theorem of_done (h : ∀ c, x c m = .done a m') : Yields x m a m' := ⟨0, fun _ _ => h _⟩

theorem bind {f : Calls → α → Run β} (hx : Yields x m a m₁) (hf : Yields (f · a) m₁ b m') :
    Yields (fun c => x c >>= f c) m b m' := by
  obtain ⟨enough, hx⟩ := hx
  obtain ⟨more, hf⟩ := hf
  refine ⟨max enough more, fun n hn => ?_⟩
  show (x _ >>= f _) m = _
  rw [Run.bind_of_done (hx n (by omega))]
  exact hf n (by omega)

theorem grouped (hx : Yields x { m with saves := m.saves.allocate } a m') :
    Yields (fun c => (x c).grouped) m a (Run.release m.saves.depth true m') := by
  obtain ⟨enough, hx⟩ := hx
  refine ⟨enough, fun n hn => ?_⟩
  simp only [Run.grouped, hx n hn]

/-- The statements of a line are run with one unit of fuel less. -/
theorem statements {line : Line} {start stop : Nat} {flow : Flow}
    (h : Yields (Machine.runStatements · line start stop) m flow m') :
    Yields (·.statements line start stop) m flow m' := by
  obtain ⟨enough, h⟩ := h
  refine ⟨enough + 1, fun n hn => ?_⟩
  obtain ⟨k, rfl⟩ : ∃ k, n = k + 1 := ⟨n - 1, by omega⟩
  exact h k (by omega)

/-- What all runs keep is kept. -/
theorem keeps {D : Discipline} (h : Yields x m a m') (hx : ∀ n, (x (Calls.ofFuel n)).Obeys D) :
    D.ok m m' := by
  obtain ⟨enough, h⟩ := h
  exact (hx enough).ok (h enough (Nat.le_refl _))

end Yields

namespace Machine

/-! ## The variable of a loop -/

/-- The variable of a loop is there and holds a number. -/
def Holds (name : VarName) (v : Number) (m : Machine) : Prop :=
  (m.vars.slot? name.key 0).map (·.number) = some v

section Variable

variable {name : VarName} {v : Number} {m : Machine}

theorem getAt_of_holds (hname : name.type = .number) (h : Holds name v m) :
    m.vars.getAt name 0 = .number v := by
  obtain ⟨slot, hslot, rfl⟩ := Option.map_eq_some_iff.mp h
  unfold Store.getAt Variable.get
  rw [show (m.vars.var name.key).values[0]? = some slot from hslot, hname]
  rfl

theorem counter_of_holds (hname : name.type = .number) (h : Holds name v m) :
    counter name m = .done v m := by
  unfold counter
  rw [getAt_of_holds hname h]
  rfl

/-- A number is assigned to an item of a variable that there is room for, and to nothing else. -/
theorem assign_number (name : VarName) (hname : name.type = .number) {s : Store} {position : Nat}
    (hitems : position < s.maxItems) (hroom : (s.makeRoom name.key).1 = true) (v : Number) :
    ∃ s', s.assign name (some position) .set (.number v) = (.ok (), s') ∧ s'.limits = s.limits ∧
      (s'.slot? name.key position).map (·.number) = some v ∧
      ∀ key, name.key ≠ key → s'.var key = s.var key := by
  have hassign : s.assign name (some position) .set (.number v)
      = s.update name.key (·.put position (.number v)) := by
    unfold Store.assign Store.combine
    rw [hname]
    show s.putRaw name.key position (.number v) = _
    unfold Store.putRaw Store.checkPosition
    rw [if_neg (Nat.not_le.mpr hitems)]
  rcases s.update_cases name.key (·.put position (.number v)) with ⟨s', heq, hl, hv⟩ | ⟨s', heq, -, -⟩
  · refine ⟨s', hassign.trans heq, hl, ?_, fun key hkey => by rw [hv, if_neg hkey]⟩
    have hslot := (s.var name.key).slot_put position position (.number v)
    have hsize := (s.var name.key).size_put position (.number v)
    unfold Store.slot?
    rw [hv, if_pos rfl]
    rw [Array.getElem?_eq_getElem (by omega)] at hslot ⊢
    rw [Option.getD_some, if_pos rfl] at hslot
    rw [Option.map_some, hslot]
    rfl
  · unfold Store.update at heq
    split at heq
    · cases heq
    · next hfull =>
      rw [hfull] at hroom
      cases hroom

/-- A variable that is there needs no room. -/
theorem makeRoom_of_slot {s : Store} {key : String} {position : Nat} {slot : Slot}
    (h : s.slot? key position = some slot) : (s.makeRoom key).1 = true := by
  unfold Store.makeRoom
  split
  · rfl
  · next hcontains =>
    have hempty := Store.var_of_not_contains (Bool.eq_false_iff.mpr hcontains)
    unfold Store.slot? at h
    rw [hempty] at h
    cases h

theorem makeRoom_of_holds (h : Holds name v m) : (m.vars.makeRoom name.key).1 = true := by
  obtain ⟨slot, hslot, -⟩ := Option.map_eq_some_iff.mp h
  exact makeRoom_of_slot hslot

/-- The machine after the variable of a loop has been set. -/
def withCounter (name : VarName) (v : Number) (m : Machine) : Machine :=
  { m with vars := (m.vars.assign name (some 0) .set (.number v)).2 }

/-- The step is added to the variable. -/
theorem increment_of_holds (hname : name.type = .number) (hitems : 0 < m.vars.maxItems)
    (h : Holds name v m) (step : Number) :
    increment name step m = .done () (withCounter name (v + step) m) ∧
      Holds name (v + step) (withCounter name (v + step) m) := by
  obtain ⟨s', hassign, -, hslot, -⟩ := assign_number name hname hitems (makeRoom_of_holds h) (v + step)
  unfold withCounter
  refine ⟨?_, ?_⟩
  · unfold increment
    rw [Run.bind_of_done (counter_of_holds hname h)]
    simp only [Run.onVars, hassign]
  · rw [hassign]
    exact hslot

end Variable

/-! ## Turns -/

/-- The body of a loop: a range of lines, or statements of a line. -/
inductive Body where
  | lines (ls : List Line) (start stop : Nat)
  | statements (line : Line) (start stop : Nat)

def Body.run (c : Calls) : Body → Run Flow
  | .lines ls start stop => c.lines ls start stop false
  | .statements line start stop => c.statements line start stop

theorem Body.run_obeys {D : Discipline} {c : Calls} (hc : c.Obey D) (body : Body) :
    (body.run c).Obeys D := by
  cases body with
  | lines ls start stop => exact hc.lines ls start stop false
  | statements line start stop => exact hc.statements line start stop

/-- The turns of a loop that ends normally, in order, each with the value that the variable holds while
the body is run. -/
inductive Turns (h : ForHeader) (body : Body) (step : Number) : List Number → Machine → Machine → Prop
  | stop {m m' : Machine} (passed : Yields (nextStep · h) m none m') : Turns h body step [] m m'
  | turn {v : Number} {vs : List Number} {m m₁ m₂ m₃ m' : Machine}
      (next : Yields (nextStep · h) m (some step) m₁)
      (holds : Holds h.name v m₁)
      (run : Yields (fun c => (body.run c).grouped) m₁ .next m₂)
      (add : Yields (fun _ => increment h.name step) m₂ () m₃)
      (rest : Turns h body step vs m₃ m') : Turns h body step (v :: vs) m m'

namespace Turns

variable {h : ForHeader} {body : Body} {step : Number} {values : List Number} {m m' : Machine}

/-- The loop takes the turns. -/
theorem countUp (ht : Turns h body step values m m') :
    ∃ enough, ∀ n, enough ≤ n → ∀ turns, values.length < turns →
      Machine.countUp (Calls.ofFuel n) h (body.run (Calls.ofFuel n)) turns m = .done .next m' := by
  induction ht with
  | stop passed =>
    obtain ⟨enough, hpassed⟩ := passed
    refine ⟨enough, fun n hn turns hturns => ?_⟩
    obtain ⟨k, rfl⟩ : ∃ k, turns = k + 1 := ⟨turns - 1, by rw [List.length_nil] at hturns; omega⟩
    rw [countUp_succ, Run.bind_of_done (hpassed n hn)]
    rfl
  | turn next holds run add rest ih =>
    obtain ⟨enough₁, hnext⟩ := next
    obtain ⟨enough₂, hrun⟩ := run
    obtain ⟨enough₃, hadd⟩ := add
    obtain ⟨enough₄, hrest⟩ := ih
    refine ⟨max (max enough₁ enough₂) (max enough₃ enough₄), fun n hn turns hturns => ?_⟩
    rw [List.length_cons] at hturns
    obtain ⟨k, rfl⟩ : ∃ k, turns = k + 1 := ⟨turns - 1, by omega⟩
    rw [countUp_succ, Run.bind_of_done (hnext n (by omega))]
    dsimp only
    rw [Run.bind_of_done (hrun n (by omega))]
    dsimp only
    rw [Run.bind_of_done (hadd n (by omega))]
    exact hrest n (by omega) k (by omega)

/-- No turn touches what is saved in the groups that are open. -/
theorem grows (ht : Turns h body step values m m') : m.saves.Grows m'.saves := by
  have hframe := Calls.ofFuel_frame
  induction ht with
  | stop passed => exact (passed.keeps fun n => nextStep_obeys (hframe n) h).2.2
  | turn next holds run add rest ih =>
    have hnext := (next.keeps fun n => nextStep_obeys (hframe n) h).2.2
    have hrun := (run.keeps fun n => (body.run_obeys (hframe n)).grouped).2.2
    have hadd := (add.keeps fun n => increment_obeys (D := frame) h.name step).2.2
    exact (hnext.trans hrun).trans (hadd.trans ih)

end Turns

/-! ## Values that a loop counts -/

/-- A value has passed the bound, in the direction of the step. -/
def Passed (bound step v : Number) : Prop := if 0 ≤ step then bound < v else v < bound

instance (bound step v : Number) : Decidable (Passed bound step v) := by
  unfold Passed
  infer_instance

/-- The values from `v` on that have not passed the bound, when the step is added again and again and
wraps around. -/
inductive Counting (bound step : Number) : Number → List Number → Prop
  | stop {v : Number} (passed : Passed bound step v) : Counting bound step v []
  | turn {v : Number} {vs : List Number} (passed : ¬Passed bound step v)
      (rest : Counting bound step (v + step) vs) : Counting bound step v (v :: vs)

/-! ## Loops whose turns all go well -/

/-- The bound and the step of a loop are evaluated to the given numbers. -/
def Evaluates (h : ForHeader) (bound step : Number) (m m' : Machine) : Prop :=
  ∃ m₁, Yields (·.eval h.bound) m (.number bound) m₁ ∧
    match h.step with
    | some source => Yields (·.eval source) m₁ (.number step) m'
    | none => step = 1 ∧ m' = m₁

/-- A turn goes well: the bound and the step are evaluated, and unless the variable has passed the bound,
the body ends normally and something holds after the step has been added. Neither changes the variable. -/
def GoesWell (h : ForHeader) (body : Body) (bound step v : Number) (next : Machine → Prop) (m : Machine) :
    Prop :=
  ∃ m₁, Evaluates h bound step m m₁ ∧ Holds h.name v m₁ ∧
    (¬Passed bound step v →
      ∃ m₂, Yields (fun c => (body.run c).grouped) m₁ .next m₂ ∧ Holds h.name v m₂ ∧
        next (withCounter h.name (v + step) m₂))

/-- A loop whose turns go well, given for each value what holds when the variable comes to it. Nothing is
asked about values that the loop does not come to. -/
def Steady (h : ForHeader) (body : Body) (bound step : Number) (P : Number → Machine → Prop) : Prop :=
  ∀ v m, P v m → Holds h.name v m → GoesWell h body bound step v (P (v + step)) m

section Loop

variable {h : ForHeader} {body : Body} {bound step v : Number} {P : Number → Machine → Prop} {m : Machine}

/-- An evaluation that is to be a number. -/
theorem evalNumber_yields {source : List Char} {w : Number} {m m' : Machine}
    (hw : Yields (·.eval source) m (.number w) m') : Yields (evalNumber · source) m w m' :=
  hw.bind (.of_done fun _ => rfl)

/-- The test of a turn: the loop goes on unless its variable has passed the bound. -/
theorem nextStep_of_evaluates (hname : h.name.type = .number) {m' : Machine}
    (heval : Evaluates h bound step m m') (hv : Holds h.name v m') :
    Yields (nextStep · h) m (if Passed bound step v then none else some step) m' := by
  have htest : Yields (fun _ => do
      let current ← counter h.name
      let passed := if 0 ≤ step then bound < current else current < bound
      return if passed then none else some step) m'
      (if Passed bound step v then none else some step) m' :=
    .of_done fun _ => Run.bind_of_done (counter_of_holds hname hv)
  obtain ⟨m₁, hbound, hsource⟩ := heval
  refine (evalNumber_yields hbound).bind ?_
  cases hcase : h.step with
  | some source =>
    rw [hcase] at hsource
    exact (evalNumber_yields hsource).bind htest
  | none =>
    rw [hcase] at hsource
    obtain ⟨rfl, rfl⟩ := hsource
    exact htest

theorem maxItems_of_yields {α : Type} {x : Calls → Run α} {a : α} {m m' : Machine} (h : Yields x m a m')
    (hx : ∀ n, (x (Calls.ofFuel n)).Obeys constants) : m'.vars.maxItems = m.vars.maxItems :=
  congrArg Prod.snd (h.keeps hx).limits

/-- **A loop takes a turn for each value**, and stops at the first one that has passed the bound. -/
theorem exists_turns (hname : h.name.type = .number) (hs : Steady h body bound step P)
    {values : List Number} (hvalues : Counting bound step v values) (hitems : 0 < m.vars.maxItems)
    (hm : P v m) (hv : Holds h.name v m) : ∃ m', Turns h body step values m m' := by
  induction hvalues generalizing m with
  | @stop v passed =>
    obtain ⟨m₁, heval, hv₁, -⟩ := hs v m hm hv
    have hnext := nextStep_of_evaluates hname heval hv₁
    rw [if_pos passed] at hnext
    exact ⟨m₁, .stop hnext⟩
  | @turn v vs passed rest ih =>
    have hconstants := Calls.ofFuel_obey constants
    obtain ⟨m₁, heval, hv₁, hbody⟩ := hs v m hm hv
    have hnext := nextStep_of_evaluates hname heval hv₁
    rw [if_neg passed] at hnext
    obtain ⟨m₂, hrun, hv₂, hm₃⟩ := hbody passed
    have hitems₂ : 0 < m₂.vars.maxItems := by
      rw [maxItems_of_yields hrun fun n => (body.run_obeys (hconstants n)).grouped,
        maxItems_of_yields hnext fun n => nextStep_obeys (hconstants n) h]
      exact hitems
    obtain ⟨hadd, hv₃⟩ := increment_of_holds hname hitems₂ hv₂ step
    have hitems₃ := maxItems_of_yields (.of_done fun _ => hadd)
      fun _ => increment_obeys (D := constants) h.name step
    obtain ⟨m', hturns⟩ := ih (by rw [hitems₃]; exact hitems₂) hm₃ hv₃
    exact ⟨m', .turn hnext hv₁ hrun (.of_done fun _ => hadd) hturns⟩

end Loop

/-! ## The whole loop -/

/-- There is room for a variable if fewer than allowed hold something. -/
theorem makeRoom_of_count {s : Store} (h : s.count < s.maxVariables) (key : String) :
    (s.makeRoom key).1 = true := by
  have hpruned : s.prune.vars.size = s.count := by
    unfold Store.count Store.names Store.prune
    dsimp only
    rw [List.length_map, ← Std.TreeMap.length_toList, Std.TreeMap.toList_filter]
  have hroom : s.prune.vars.size < s.prune.maxVariables := hpruned ▸ h
  unfold Store.makeRoom
  by_cases hthere : s.vars.contains key = true
  · rw [if_pos hthere]
  · rw [if_neg hthere]
    dsimp only
    by_cases hsize : s.vars.size < s.maxVariables
    · rw [if_pos hsize, if_pos hsize]
    · rw [if_neg hsize, if_pos hroom]

/-- The machine at the first turn of a loop: the variable has been saved and set. -/
def firstTurn (name : VarName) (init : Number) (m : Machine) : Machine :=
  let (saves, vars) := m.saves.localize m.vars name.key
  withCounter name init { m with saves, vars }

/-- A loop that can start: its first value is evaluated, which leaves the machine `m₀`, and there is room
for its variable. -/
structure Starts (h : ForHeader) (init : Number) (m m₀ : Machine) : Prop where
  init : Yields (·.eval h.init) { m with saves := m.saves.allocate } (.number init) m₀
  items : 0 < m₀.vars.maxItems
  room : (m₀.vars.removeVar h.name.key).count < m₀.vars.maxVariables

namespace Starts

variable {h : ForHeader} {init : Number} {m m₀ : Machine}

/-- The group of the loop is the innermost one, and nothing has been saved in it yet. -/
theorem saves (hstart : Starts h init m m₀) : m₀.saves = m.saves.allocate := by
  obtain ⟨enough, heval⟩ := hstart.init
  exact Calls.ofFuel_eval_keepsSaves enough h.init _ _ _ (heval enough (Nat.le_refl _))

/-- The variable is moved into the group of the loop. -/
theorem localize_eq (hstart : Starts h init m m₀) :
    m₀.saves.localize m₀.vars h.name.key
      = (⟨[(h.name.key, m₀.vars.var h.name.key)] :: m.saves.groups⟩, m₀.vars.removeVar h.name.key) := by
  rw [hstart.saves]
  exact Saves.localize_of_not_holds m₀.vars rfl

theorem saves_firstTurn (hstart : Starts h init m m₀) :
    (firstTurn h.name init m₀).saves = ⟨[(h.name.key, m₀.vars.var h.name.key)] :: m.saves.groups⟩ := by
  unfold firstTurn withCounter
  rw [hstart.localize_eq]

/-- The variable is set. -/
theorem assign_eq (hname : h.name.type = .number) (hstart : Starts h init m m₀) :
    ∃ vars, (m₀.vars.removeVar h.name.key).assign h.name (some 0) .set (.number init) = (.ok (), vars) ∧
      vars.limits = m₀.vars.limits ∧
      firstTurn h.name init m₀ = { m₀ with
        saves := ⟨[(h.name.key, m₀.vars.var h.name.key)] :: m.saves.groups⟩
        vars } ∧
      (vars.slot? h.name.key 0).map (·.number) = some init := by
  have hitems : 0 < (m₀.vars.removeVar h.name.key).maxItems := hstart.items
  obtain ⟨vars, hassign, hlimits, hslot, -⟩ :=
    assign_number h.name hname hitems (makeRoom_of_count hstart.room _) init
  refine ⟨vars, hassign, hlimits, ?_, hslot⟩
  unfold firstTurn withCounter
  rw [hstart.localize_eq]
  dsimp only
  rw [hassign]

end Starts

section Whole

variable {line : Line} {s : Statement} {h : ForHeader} {body : Body} {init bound step : Number}
variable {P : Number → Machine → Prop} {m m₀ : Machine}

/-- The loop ends when its turns do, and its group is closed. -/
theorem yields_runFor (hcolon : line.hasColon s = true) (hread : ForHeader.read (line.params s) = .ok h)
    (hname : h.name.type = .number) (hstart : Starts h init m m₀) {values : List Number} {m₁ : Machine}
    (hturns : Turns h body step values (firstTurn h.name init m₀) m₁) :
    Yields (fun c => runFor c line s (body.run c)) m .next (Run.release m.saves.depth true m₁) := by
  have hcount : Yields (fun c => countUp c h (body.run c) c.turns) (firstTurn h.name init m₀) .next m₁ := by
    obtain ⟨enough, hcount⟩ := hturns.countUp
    -- the fuel is also the number of turns that a loop may take
    refine ⟨max enough (values.length + 2), fun n hn => ?_⟩
    obtain ⟨k, rfl⟩ : ∃ k, n = k + 1 := ⟨n - 1, by omega⟩
    exact hcount (k + 1) (by omega) k (by omega)
  obtain ⟨vars, hassign, -, hfirst, -⟩ := hstart.assign_eq hname
  rw [hfirst] at hcount
  have hlocalize : Run.localize h.name.key m₀ = .done () { m₀ with
      saves := ⟨[(h.name.key, m₀.vars.var h.name.key)] :: m.saves.groups⟩
      vars := m₀.vars.removeVar h.name.key } := by
    simp only [Run.localize, Run.modify, hstart.localize_eq]
  have hgroup : Yields (fun c => do
      let first ← c.eval h.init
      Run.localize h.name.key
      Run.onVars (·.assign h.name (some 0) .set first)
      countUp c h (body.run c) c.turns) { m with saves := m.saves.allocate } .next m₁ := by
    refine hstart.init.bind (Yields.bind (.of_done fun _ => hlocalize) ?_)
    refine Yields.bind (a := ()) (.of_done fun _ => ?_) hcount
    simp only [Run.onVars, hassign]
  unfold runFor requireColon
  rw [hcolon, hread]
  exact hgroup.grouped

/-- The outer binding of the variable is restored, the one that it had when the loop took it. -/
theorem var_release_turns (hstart : Starts h init m m₀) {values : List Number} {m₁ : Machine}
    (hturns : Turns h body step values (firstTurn h.name init m₀) m₁) :
    (Run.release m.saves.depth true m₁).vars.var h.name.key = m₀.vars.var h.name.key := by
  have hgrows := hturns.grows
  rw [hstart.saves_firstTurn] at hgrows
  obtain ⟨g, hsaves, hg⟩ : ∃ g, m₁.saves = ⟨g :: m.saves.groups⟩ ∧
      SaveGroup.Grows [(h.name.key, m₀.vars.var h.name.key)] g := by
    generalize m₁.saves = saves at hgrows
    cases hgrows with
    | inner _ hg => exact ⟨_, rfl, hg⟩
  rw [Run.release_of_allocate true hsaves]
  exact Saves.var_restoreGroup_of_mem ((SaveGroup.Grows.save _ rfl .refl).trans hg)
    (hg.mem List.mem_cons_self) _

/-- **A loop runs its body once for each value that it counts.** -/
theorem runFor_counting (hcolon : line.hasColon s = true) (hread : ForHeader.read (line.params s) = .ok h)
    (hname : h.name.type = .number) (hs : Steady h body bound step P) (hstart : Starts h init m m₀)
    (hP : P init (firstTurn h.name init m₀)) {values : List Number} (hvalues : Counting bound step init values) :
    ∃ m₁, Turns h body step values (firstTurn h.name init m₀) m₁ ∧
      Yields (fun c => runFor c line s (body.run c)) m .next (Run.release m.saves.depth true m₁) ∧
      (Run.release m.saves.depth true m₁).vars.var h.name.key = m₀.vars.var h.name.key := by
  obtain ⟨vars, -, hlimits, hfirst, hslot⟩ := hstart.assign_eq hname
  have hholds : Holds h.name init (firstTurn h.name init m₀) := by
    rw [hfirst]
    exact hslot
  have hroom : 0 < (firstTurn h.name init m₀).vars.maxItems := by
    rw [hfirst]
    exact Nat.lt_of_lt_of_eq hstart.items (congrArg Prod.snd hlimits).symm
  obtain ⟨m₁, hturns⟩ := exists_turns hname hs hvalues hroom hP hholds
  exact ⟨m₁, hturns, yields_runFor hcolon hread hname hstart hturns, var_release_turns hstart hturns⟩

end Whole

/-! ## Ranges of integers -/

/-- An integer has passed the bound, in the direction of the step. -/
def Passes (bound step v : Int) : Prop := if 0 ≤ step then bound < v else v < bound

instance (bound step v : Int) : Decidable (Passes bound step v) := by
  unfold Passes
  infer_instance

theorem passed_iff (bound step v : Number) :
    Passed bound step v ↔ Passes bound.toInt step.toInt v.toInt := by
  unfold Passed Passes
  simp only [Int64.le_iff_toInt_le, Int64.lt_iff_toInt_lt, Int64.toInt_zero]

/-- What has passed the bound stays past it. -/
theorem Passes.add {bound step v : Int} (h : Passes bound step v) (j : Nat) :
    Passes bound step (v + j * step) := by
  unfold Passes at h ⊢
  split at h
  · next hs =>
    rw [if_pos hs]
    have := Int.mul_nonneg (Int.natCast_nonneg j) hs
    omega
  · next hs =>
    rw [if_neg hs]
    have := Int.mul_nonneg (Int.natCast_nonneg j) (Int.neg_nonneg.mpr (Int.le_of_not_le hs))
    rw [Int.mul_neg] at this
    omega

/-- How far an integer is from past the bound. -/
def distance (bound step v : Int) : Nat := (if 0 ≤ step then bound - v + 1 else v - bound + 1).toNat

/-- Every turn comes nearer to the bound. -/
theorem distance_add_lt {bound step v : Int} (hstep : step ≠ 0) (h : ¬Passes bound step v) :
    distance bound step (v + step) < distance bound step v := by
  unfold Passes at h
  unfold distance
  split at h
  · next hs =>
    rw [if_pos hs, if_pos hs]
    omega
  · next hs =>
    rw [if_neg hs, if_neg hs]
    omega

theorem toInt_add_of_fits {v step : Number} (h : Number.fits (v.toInt + step.toInt) = true) :
    (v + step).toInt = v.toInt + step.toInt := by
  simp only [Number.fits, Bool.and_eq_true, decide_eq_true_eq] at h
  rw [Int64.toInt_add]
  exact Int.bmod_eq_of_le (by omega) (by omega)

/-- A step that leaves the numbers never passes the bound: the sum wraps around to the far side. -/
theorem not_passed_of_overflow {bound step v : Number} (hv : ¬Passed bound step v)
    (h : Number.fits (v.toInt + step.toInt) = false) : ¬Passed bound step (v + step) := by
  have hlow := Int64.le_toInt v
  have hhigh := Int64.toInt_lt v
  have hlow' := Int64.le_toInt step
  have hhigh' := Int64.toInt_lt step
  simp only [Number.fits, Bool.and_eq_false_iff, decide_eq_false_iff_not] at h
  rw [passed_iff] at hv ⊢
  rw [Int64.toInt_add]
  unfold Passes at hv ⊢
  rw [Int.bmod_def]
  split at hv
  · next hs =>
    rw [if_pos hs]
    split
    · omega
    · omega
  · next hs =>
    rw [if_neg hs]
    split
    · omega
    · omega

/-- A loop that leaves the numbers before it has passed its bound takes another turn, beyond its range. -/
theorem Counting.of_overflow {bound step v : Number} {values : List Number}
    (h : Counting bound step v values) (hv : ¬Passed bound step v)
    (hover : Number.fits (v.toInt + step.toInt) = false) :
    ∃ rest, values = v :: (v + step) :: rest := by
  have hnext := not_passed_of_overflow hv hover
  cases h with
  | stop passed => exact absurd passed hv
  | turn _ rest =>
    cases rest with
    | stop passed => exact absurd passed hnext
    | turn _ rest => exact ⟨_, rfl⟩

/-- **A range that stays within the numbers is counted as it is**: the value after `j` steps is the
first one and `j` times the step, as long as that has not passed the bound. -/
theorem exists_counting {bound step : Number} (hstep : step ≠ 0) (init : Number)
    (hfits : ∀ j : Nat, ¬Passes bound.toInt step.toInt (init.toInt + j * step.toInt) →
      Number.fits (init.toInt + (j + 1) * step.toInt) = true) :
    ∃ values, Counting bound step init values ∧
      ∀ j : Nat, values[j]?.map Int64.toInt
        = if Passes bound.toInt step.toInt (init.toInt + j * step.toInt) then none
          else some (init.toInt + j * step.toInt) := by
  have hne : step.toInt ≠ 0 := fun h => hstep (Int64.toInt_inj.mp h)
  generalize hd : distance bound.toInt step.toInt init.toInt = d
  induction d using Nat.strongRecOn generalizing init with
  | ind d ih =>
    by_cases hpassed : Passes bound.toInt step.toInt init.toInt
    · refine ⟨[], .stop ((passed_iff _ _ _).mpr hpassed), fun j => ?_⟩
      rw [if_pos (hpassed.add j)]
      rfl
    · have hzero := hfits 0 (by simpa using hpassed)
      have hnext : (init + step).toInt = init.toInt + step.toInt :=
        toInt_add_of_fits (by simpa using hzero)
      have hshift (j : Nat) :
          (init + step).toInt + j * step.toInt = init.toInt + ((j + 1 : Nat) : Int) * step.toInt := by
        rw [hnext, Int.natCast_add, Int.add_mul]
        omega
      have hnear : distance bound.toInt step.toInt (init + step).toInt < d := by
        rw [hnext, ← hd]
        exact distance_add_lt hne hpassed
      obtain ⟨values, hvalues, hspec⟩ := ih _ hnear (init + step) (fun j hj => by
        have hlater := hfits (j + 1) (by rwa [← hshift])
        have hshift' := hshift (j + 1)
        rw [Int.natCast_add, Int.natCast_one] at hlater
        rw [Int.natCast_add, Int.natCast_one, Int.natCast_add, Int.natCast_add, Int.natCast_one] at hshift'
        rwa [hshift']) rfl
      refine ⟨init :: values, .turn (mt (passed_iff _ _ _).mp hpassed) hvalues, fun j => ?_⟩
      cases j with
      | zero =>
        have hstart : init.toInt + ((0 : Nat) : Int) * step.toInt = init.toInt := by omega
        rw [hstart, if_neg hpassed]
        rfl
      | succ j =>
        rw [List.getElem?_cons_succ, hspec j, hshift]

/-- **A counting loop runs over exactly its range.** If no value of the range leaves the numbers when the
step is added, and there is room for the variable, the body is run once for each of the values `init`,
`init + step`, `init + 2 * step` and so on that do not pass the bound, in this order and with the variable
holding the value. Then the loop ends normally, with the outer binding of its variable restored. -/
theorem runFor_range {line : Line} {s : Statement} {h : ForHeader} {body : Body} {init bound step : Number}
    {P : Number → Machine → Prop} {m m₀ : Machine} (hcolon : line.hasColon s = true)
    (hread : ForHeader.read (line.params s) = .ok h) (hname : h.name.type = .number) (hstep : step ≠ 0)
    (hs : Steady h body bound step P) (hstart : Starts h init m m₀) (hP : P init (firstTurn h.name init m₀))
    (hfits : ∀ j : Nat, ¬Passes bound.toInt step.toInt (init.toInt + j * step.toInt) →
      Number.fits (init.toInt + (j + 1) * step.toInt) = true) :
    ∃ values m₁,
      (∀ j : Nat, values[j]?.map Int64.toInt
        = if Passes bound.toInt step.toInt (init.toInt + j * step.toInt) then none
          else some (init.toInt + j * step.toInt)) ∧
      Turns h body step values (firstTurn h.name init m₀) m₁ ∧
      Yields (fun c => runFor c line s (body.run c)) m .next (Run.release m.saves.depth true m₁) ∧
      (Run.release m.saves.depth true m₁).vars.var h.name.key = m₀.vars.var h.name.key := by
  obtain ⟨values, hvalues, hspec⟩ := exists_counting hstep init hfits
  obtain ⟨m₁, hturns, hyields, hrestored⟩ := runFor_counting hcolon hread hname hs hstart hP hvalues
  exact ⟨values, m₁, hspec, hturns, hyields, hrestored⟩

/-! ## A loop that fills a variable -/

/-- An expression that changes nothing but the cache of expressions. -/
theorem yields_compiled {source : List Char} {code : Code} {v : Value} {m : Machine}
    (h : compile source = .ok code)
    (hrun : ∀ c expressions, evaluate c code { m with expressions } = .done v { m with expressions }) :
    ∃ expressions, Yields (·.eval source) m v { m with expressions } := by
  obtain ⟨expressions, hcompiled⟩ := Run.compiled_eq source m
  rw [h] at hcompiled
  refine ⟨expressions, 1, fun n hn => ?_⟩
  obtain ⟨k, rfl⟩ : ∃ k, n = k + 1 := ⟨n - 1, by omega⟩
  show evalSource (Calls.ofFuel k) source m = _
  unfold evalSource
  rw [Run.bind_of_done hcompiled]
  exact hrun _ _

/-- A number that is written out is a constant. -/
theorem yields_literal {source : List Char} {w : Number}
    (h : compile source = .ok #[{ op := .push, literal := some (.number w) }]) (m : Machine) :
    ∃ expressions, Yields (·.eval source) m (.number w) { m with expressions } :=
  yields_compiled h fun _ _ => rfl

/-- The variable of a loop is an expression that gives its value. -/
theorem yields_counter {source : List Char} {text : String} {name : VarName} {v : Number} {m : Machine}
    (h : compile source = .ok #[{ op := .var, literal := some (.text text) }])
    (hread : VarName.read text.toList = .ok name) (hname : name.type = .number) (hv : Holds name v m) :
    ∃ expressions, Yields (·.eval source) m (.number v) { m with expressions } := by
  refine yields_compiled h fun c expressions => ?_
  have hget : m.vars.get name (.number 0) = .number v := getAt_of_holds hname hv
  have hnamed : Run.name text.toList { m with expressions } = .done name { m with expressions } := by
    unfold Run.name
    rw [hread]
    rfl
  have hstep : step c m.moves { op := .var, literal := some (.text text) } [] { m with expressions }
      = .done ([.number v], none) { m with expressions } := by
    refine (Run.bind_of_done hnamed).trans ?_
    rw [← hget]
    rfl
  show (step c m.moves _ [] >>= _) _ = _
  rw [Run.bind_of_done hstep]
  rfl

/-- A number is an index that leads to its position. -/
theorem assignIndex_number {s : Store} {name : VarName} {n : Number} {position : Nat}
    (hn : n.position? = some position) (hitems : position < s.maxItems) (op : AssignOp) (v : Value) :
    s.assignIndex name (.number n) op v = s.assign name (some position) op v := by
  have hposition : s.position? name.key (.number n) = some position := hn
  have hwrite : s.positionForWrite name.key (.number n) = (.ok (some position), s) := by
    unfold Store.positionForWrite Store.checkPosition
    dsimp only
    rw [hn]
    dsimp only
    rw [if_neg (Nat.not_le.mpr hitems)]
  unfold Store.assignIndex Store.assign
  rw [hposition, hwrite]

/-- An assignment to an item: its value is evaluated, then its index, and then it is written. -/
theorem yields_assign {line : Line} {s : Statement} {op : AssignOp} {target source : List Char}
    {name : VarName} {v index : Value} {m m₁ m₂ : Machine} {vars : Store}
    (hscanned : s.error = none) (hargs : ¬s.args.length < 3)
    (hsign : AssignOp.ofSymbol? (String.ofList (line.arg s 1)) = some op)
    (htargets : Target.split (line.arg s 0) = .ok [target])
    (htarget : Target.read target = .ok (name, some (.value source)))
    (hvalue : Yields (·.eval (line.arg s 2)) m v m₁) (hindex : Yields (·.eval source) m₁ index m₂)
    (hwrite : m₂.vars.assignIndex name index op v = (.ok (), vars)) :
    Yields (assign · line s) m () { m₂ with vars } := by
  have hwritten : Yields (fun _ => Run.onVars (·.assignIndex name index op v)) m₂ () { m₂ with vars } :=
    .of_done fun _ => by simp only [Run.onVars, hwrite]
  have hchosen : Yields (indexValue · (some (.value source))) m₁ (some index) m₂ :=
    hindex.bind (.of_done fun _ => rfl)
  have hone : Yields (assignTarget · target op v) m₁ () { m₂ with vars } := by
    unfold assignTarget
    rw [htarget]
    exact Yields.bind (.of_done fun _ => rfl) (hchosen.bind hwritten)
  unfold assign checkScanned
  simp only [hscanned, if_neg hargs, hsign, htargets]
  exact Yields.bind (.of_done fun _ => rfl) (hvalue.bind (Yields.bind (.of_done fun _ => rfl) hone))

/-- A range of statements in which there is one assignment. -/
theorem yields_runStatements_assign {line : Line} {s : Statement} {start stop : Nat} {m m' : Machine}
    (hs : (line.statements.take (min stop line.statements.length)).drop start = [s])
    (hkind : s.kind = .assign) (h : Yields (assign · line s) m () m') :
    Yields (runStatements · line start stop) m .next m' := by
  have hsimple : Yields (runSimple · line s) m .next m' := by
    unfold runSimple
    rw [hkind]
    exact h.bind (.of_done fun _ => rfl)
  unfold runStatements
  simp only [hs, statementsFrom, hkind]
  exact hsimple.bind (.of_done fun _ => rfl)

/-- The machine and the value to which the variable of `FOR I = 1 TO 3: A[I] = I` has come. For other
values, such as one past the limit of items, the body of this loop fails. -/
structure Fills (v : Number) (m : Machine) : Prop where
  least : 1 ≤ v.toInt
  most : v.toInt ≤ 4
  items : 4 < m.vars.maxItems
  room : (m.vars.makeRoom "A").1 = true

/-- The body of the loop stores the value, and neither the variable nor the room for another item is
lost. -/
theorem yields_fill {v : Number} {m : Machine} (hm : Fills v m) (hv : Holds ⟨"I", .number⟩ v m) :
    let body : Body := .statements (Line.scan "FOR I = 1 TO 3: A[I] = I".toList 1) 1 2
    ∃ vars expressions,
      Yields (fun c => (body.run c).grouped) m .next { m with vars, expressions } ∧
        vars.limits = m.vars.limits ∧ vars.var "I" = m.vars.var "I" ∧
        (vars.slot? "A" v.toInt.toNat).isSome := by
  intro body
  let line := Line.scan "FOR I = 1 TO 3: A[I] = I".toList 1
  let s : Statement := ⟨.assign, 16, 24, [⟨16, 20⟩, ⟨21, 22⟩, ⟨23, 24⟩], none⟩
  have hline : line.statements = [⟨.forTo, 4, 14, [], none⟩, s] := by decide +kernel
  have hcode : compile ['I'] = .ok #[{ op := .var, literal := some (.text "I") }] := by
    with_unfolding_all rfl
  have hread : VarName.read "I".toList = .ok ⟨"I", .number⟩ := by with_unfolding_all rfl
  have hvalue : line.arg s 2 = ['I'] := by decide +kernel
  have hposition : v.position? = some v.toInt.toNat := by
    have := hm.least
    unfold Number.position?
    rw [if_pos (Int64.le_iff_toInt_le.mpr (by rw [Int64.toInt_zero]; omega))]
  have hitems : v.toInt.toNat < m.vars.maxItems := by
    have := hm.most
    have := hm.items
    omega
  obtain ⟨vars, hassign, hlimits, hslot, hother⟩ :=
    assign_number ⟨"A", .number⟩ rfl hitems hm.room v
  let m₀ : Machine := { m with saves := m.saves.allocate }
  -- the variable is evaluated twice: as the value, and then as the index
  obtain ⟨expressions₁, heval⟩ := yields_counter (m := m₀) hcode hread rfl hv
  obtain ⟨expressions, hindex⟩ :=
    yields_counter (m := { m₀ with expressions := expressions₁ }) hcode hread rfl hv
  have hsign : AssignOp.ofSymbol? (String.ofList (line.arg s 1)) = some .set := by decide +kernel
  have htargets : Target.split (line.arg s 0) = .ok [['A', '[', 'I', ']']] := by decide +kernel
  have htarget : Target.read ['A', '[', 'I', ']'] = .ok (⟨"A", .number⟩, some (.value ['I'])) := by
    with_unfolding_all rfl
  have hwrite : m.vars.assignIndex ⟨"A", .number⟩ (.number v) .set (.number v) = (.ok (), vars) := by
    rw [assignIndex_number hposition hitems]
    exact hassign
  have hstored : Yields (assign · line s) m₀ () { m₀ with vars, expressions } :=
    yields_assign rfl (by decide) hsign htargets htarget (by rw [hvalue]; exact heval) hindex hwrite
  have hrun : Yields (runStatements · line 1 2) m₀ .next { m₀ with vars, expressions } :=
    yields_runStatements_assign (by rw [hline]; rfl) rfl hstored
  refine ⟨vars, expressions, ?_, hlimits, hother "I" (by decide), ?_⟩
  · have hgrouped := (Yields.statements hrun).grouped
    rw [Run.release_of_allocate true rfl] at hgrouped
    exact hgrouped
  · obtain ⟨slot, hslot, -⟩ := Option.map_eq_some_iff.mp hslot
    rw [hslot]
    rfl

/-- The turns of the loop go well, from one value to the next. -/
theorem steady_fill :
    Steady ⟨⟨"I", .number⟩, ['1'], ['3'], none⟩
      (.statements (Line.scan "FOR I = 1 TO 3: A[I] = I".toList 1) 1 2) 3 1 Fills := by
  intro v m hm hv
  have hthree : compile ['3'] = .ok #[{ op := .push, literal := some (.number 3) }] := by
    with_unfolding_all rfl
  obtain ⟨expressions, hbound⟩ := yields_literal hthree m
  refine ⟨{ m with expressions }, ⟨_, hbound, rfl, rfl⟩, hv, fun hpassed => ?_⟩
  have hmost : v.toInt ≤ 3 := by
    rw [passed_iff] at hpassed
    exact Int.not_lt.mp hpassed
  have hnext : (v + 1).toInt = v.toInt + 1 := by
    have := hm.least
    refine toInt_add_of_fits ?_
    simp only [Number.fits, Bool.and_eq_true, decide_eq_true_eq, Int64.toInt_one]
    omega
  obtain ⟨vars, expressions', hrun, hlimits, hvar, hstored⟩ :=
    yields_fill (m := { m with expressions }) ⟨hm.least, hm.most, hm.items, hm.room⟩ hv
  have hitems : 4 < vars.maxItems := Nat.lt_of_lt_of_eq hm.items (congrArg Prod.snd hlimits).symm
  -- the body has written another variable
  have hv₂ : Holds ⟨"I", .number⟩ v { m with vars, expressions := expressions' } := by
    unfold Holds Store.slot?
    rw [hvar]
    exact hv
  refine ⟨_, hrun, hv₂, ?_⟩
  obtain ⟨vars', hassign, hlimits', -, hother⟩ :=
    assign_number ⟨"I", .number⟩ rfl (show 0 < vars.maxItems by omega) (makeRoom_of_holds hv₂) (v + 1)
  obtain ⟨slot, hslot⟩ := Option.isSome_iff_exists.mp hstored
  -- the item that was stored is there after the step, so there is room for the next one
  have hkept : vars'.slot? "A" v.toInt.toNat = some slot := by
    unfold Store.slot?
    rw [hother "A" (by decide)]
    exact hslot
  have hvars : (withCounter ⟨"I", .number⟩ (v + 1) { m with vars, expressions := expressions' }).vars
      = vars' := congrArg Prod.snd hassign
  have hleast := hm.least
  exact
    { least := by rw [hnext]; omega
      most := by rw [hnext]; omega
      items := by
        rw [hvars]
        exact Nat.lt_of_lt_of_eq hitems (congrArg Prod.snd hlimits').symm
      room := by rw [hvars]; exact makeRoom_of_slot hkept }

/-- A loop that stores the numbers from one to three at the positions that they are. -/
theorem runFor_range_sample :
    let line := Line.scan "FOR I = 1 TO 3: A[I] = I".toList 1
    let s : Statement := ⟨.forTo, 4, 14, [], none⟩
    let h : ForHeader := ⟨⟨"I", .number⟩, ['1'], ['3'], none⟩
    let body : Body := .statements line 1 2
    let m := Machine.new {} {}
    ∃ m₀ m₁, Turns h body 1 [1, 2, 3] (firstTurn h.name 1 m₀) m₁ ∧
      Yields (fun c => runFor c line s (body.run c)) m .next (Run.release m.saves.depth true m₁) ∧
      (Run.release m.saves.depth true m₁).vars.var "I" = m.vars.var "I" := by
  intro line s h body m
  have hread : ForHeader.read (line.params s) = .ok h := by with_unfolding_all rfl
  have hone : compile ['1'] = .ok #[{ op := .push, literal := some (.number 1) }] := by
    with_unfolding_all rfl
  obtain ⟨expressions, hinit⟩ := yields_literal hone { m with saves := m.saves.allocate }
  have hitems : 0 < m.vars.maxItems := by decide +kernel
  have hroom : (m.vars.removeVar "I").count < m.vars.maxVariables := by decide +kernel
  have hstart : Starts h 1 m { m with saves := m.saves.allocate, expressions } := ⟨hinit, hitems, hroom⟩
  have hitems₁ : 4 < (firstTurn h.name 1 { m with saves := m.saves.allocate }).vars.maxItems := by
    decide +kernel
  have hroom₁ :
      ((firstTurn h.name 1 { m with saves := m.saves.allocate }).vars.makeRoom "A").1 = true := by
    decide +kernel
  have hfirst : Fills 1 (firstTurn h.name 1 { m with saves := m.saves.allocate, expressions }) :=
    ⟨by decide, by decide, hitems₁, hroom₁⟩
  have hfits (j : Nat) (hj : ¬Passes 3 1 (1 + j * 1)) : Number.fits (1 + (j + 1) * 1) = true := by
    unfold Passes at hj
    simp only [Number.fits, Bool.and_eq_true, decide_eq_true_eq]
    rw [if_pos (by decide)] at hj
    omega
  obtain ⟨values, m₁, hspec, hresult⟩ :=
    runFor_range (by decide +kernel) hread rfl (by decide) steady_fill hstart hfirst hfits
  have hvalues : values = [1, 2, 3] := by
    refine (List.map_inj_right fun _ _ => Int64.toInt_inj.mp).mp (List.ext_getElem? fun j => ?_)
    rw [List.getElem?_map, hspec]
    match j with
    | 0 | 1 | 2 => rfl
    | j + 3 =>
      have hpassed : Passes 3 1 (1 + ((j + 3 : Nat) : Int) * 1) := by
        unfold Passes
        rw [if_pos (by decide)]
        omega
      exact if_pos hpassed
  rw [hvalues] at hresult
  exact ⟨{ m with saves := m.saves.allocate, expressions }, m₁, hresult⟩

/-- A step that leaves the numbers wraps around, and the loop goes on: it takes three turns where its
range has one value. And without room for its variable a loop does not start. -/
theorem runFor_past_range :
    let wraps := (Engine.new {} {}).run
      "FOR I = 3000000000000000000 TO 3000000000000000000 STEP 7000000000000000000: SEEN[] = I"
    let full := (Engine.new { maxVariables := 1 } {}).run "A = 1\nFOR I = 1 TO 3: *NL"
    (wraps.2.machine.vars.var "SEEN").values.toList.map (·.number)
        = [3000000000000000000, -8446744073709551616, -1446744073709551616] ∧
      full.1 = .failed ⟨⟨.tooManyVariables, none⟩, ⟨none, none, 2⟩⟩ ∧ full.2.machine.screen.mainText = "" := by
  decide +kernel

end Machine

end QuestScript
