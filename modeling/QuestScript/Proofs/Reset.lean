import QuestScript.Proofs.Requests

/-!
# A reset engine is a new engine

An engine that is reset keeps more than its configuration and its world: the caches, the count of
changes of location, the flags of the screen, and when it was created. Whatever the engine was asked
before and whatever it is asked afterwards, a host that observes every answer and, after every request,
all that can be seen of the engine cannot tell it from a new one, unless by the flags and by the clock:
`MSECSCOUNT` counts from the creation of the engine, and a reset does not start it again. This shows
only if the host leaves the time to the clock of the system (`reset_keeps_clock`).

The argument has two parts. An engine between requests is settled (`Settled`), so that after a reset
it is near a new one (`load_near_new`). And engines that are near look the same and stay near
(`serve_near`), so by induction on the requests they never come apart (`Near.observe_eq`).
-/

namespace QuestScript

/-- Nothing of a screen is left after a reset but its flags. -/
theorem Screen.clearChanges_reset (s : Screen) : s.reset.clearChanges = {} := by
  have hmain : s.clearMain.mainText = "" := by
    unfold clearMain
    split
    · next h => simpa using h
    · rfl
  have hstat : s.clearMain.clearStat.statText = "" := by
    unfold clearStat
    split
    · next h => simpa using h
    · rfl
  have hkept : s.clearMain.clearStat.mainText = s.clearMain.mainText := by
    unfold clearStat
    split
    · rfl
    · rfl
  have hactions : s.clearMain.clearStat.clearActions.actions = [] := by
    unfold clearActions
    dsimp only
    split
    · next h => simpa using h
    · rfl
  have htexts : s.clearMain.clearStat.clearActions.mainText = s.clearMain.clearStat.mainText ∧
      s.clearMain.clearStat.clearActions.statText = s.clearMain.clearStat.statText := by
    unfold clearActions
    dsimp only
    split
    · exact ⟨rfl, rfl⟩
    · exact ⟨rfl, rfl⟩
  have hselected : s.clearMain.clearStat.clearActions.selectedAction = none := rfl
  simp [reset, clearChanges, takeObjects, htexts, hkept, hmain, hstat, hactions, hselected]

/-- Of a store that is cleared only the limits are left. -/
theorem Store.clear_eq_of_limits {s s' : Store} (h : s.limits = s'.limits) : s.clear = s'.clear := by
  obtain ⟨hvariables, hitems⟩ := Prod.mk.inj h
  unfold clear
  rw [hvariables, hitems]

namespace Engine

/-! ## Observations -/

/-- What a host can see of an engine. -/
structure View where
  item : String → Value → Value
  size : String → Nat
  names : List String
  mainText : String
  statText : String
  actions : List Action
  objects : List Object
  selectedAction : Option Nat
  selectedObject : Option Nat
  currentLocation : Option String
  lastError : Option Failure

def view (e : Engine) : View where
  item := e.get
  size := e.size
  names := e.names
  mainText := e.machine.screen.mainText
  statText := e.machine.screen.statText
  actions := e.machine.screen.actions
  objects := e.machine.screen.objects
  selectedAction := e.machine.screen.selectedAction
  selectedObject := e.machine.screen.selectedObject
  currentLocation := e.machine.screen.currentLocation
  lastError := e.lastError

/-- An answer that does not tell the flags of the screen. -/
def Answer.withoutFlags : Answer → Answer
  | .changes _ => .changes {}
  | a => a

/-- The answers to requests, each with what can be seen after it. -/
def observe (e : Engine) : List Request → List (Answer × View)
  | [] => []
  | r :: rs => ((e.serve r).1.withoutFlags, (e.serve r).2.view) :: (e.serve r).2.observe rs

/-- No host can tell two engines apart: they look the same now and after whatever is asked of both,
and give the same answers. -/
def Indistinguishable (e e' : Engine) : Prop :=
  e.view = e'.view ∧ ∀ later, e.observe later = e'.observe later

/-! ## Engines that are near -/

variable {a b : Nat} {e e' : Engine}

theorem Near.view_eq (h : e.Near Eq a b e') : e.view = e'.view := by
  have hs := Screen.eq_of_clearChanges h.machine.screen
  have hlast : e.lastError = e'.lastError := by
    generalize e.lastError = f, e'.lastError = f', h.lastError = hf
    cases hf with
    | none => rfl
    | some hf => rw [hf.eq]
  unfold view get size names
  rw [hs, hlast, h.machine.vars]

theorem Answer.Near.eq {r r' : Answer} (h : r.Near Eq r') : r.withoutFlags = r'.withoutFlags := by
  cases h with
  | reply hr => rw [hr.eq]
  | changes c c' => rfl
  | calls made => rfl
  | silent => rfl

/-- Engines that are near answer a sequence of requests alike. If they were not created at the same time,
the host tells the time in all of it. -/
theorem Near.observe_eq (h : e.Near Eq a b e') (rs : List Request)
    (hclock : e.machine.started = e'.machine.started ∨ ∀ r ∈ rs, r.TellsTime) :
    e.observe rs = e'.observe rs := by
  induction rs generalizing e e' with
  | nil => rfl
  | cons r rs ih =>
    obtain ⟨hanswer, hengine⟩ := serve_near (fun _ => rfl) h r
      (hclock.imp_right fun htells => htells r List.mem_cons_self)
    have hrest : (e.serve r).2.machine.started = (e'.serve r).2.machine.started ∨
        ∀ r ∈ rs, r.TellsTime := by
      rw [serve_started h.noSite.1, serve_started h.noSite.2]
      exact hclock.imp_right fun htells r hr => htells r (List.mem_cons_of_mem _ hr)
    unfold observe
    rw [hanswer.eq, hengine.view_eq, ih hengine hrest]

/-! ## Starting anew -/

/-- The same engine, had it been created at another time. -/
def createdAt (e : Engine) (time : Int) : Engine :=
  { e with machine := { e.machine with started := time } }

/-- Such an engine is a new one: it was created while the clock showed the time, and its host has given
the other answers since. -/
theorem createdAt_new (config : Config) (host : Host) (time : Int) :
    (new config host).createdAt time
      = ((new config { host with clock.now := time }).serve (.answers host)).2 := rfl

/-- A settled engine that gets a world is near a new engine with that world; only the latter has
never left a location. When the two were created matters only if the host does not tell the time. -/
theorem load_near_new {config : Config} (h : e.Settled config) (world : World) {time : Int}
    (hclock : e.machine.host.msecs = none → e.machine.started = time) :
    (e.load world).Near Eq 0 e.machine.moves
      (((new config e.machine.host).load world).createdAt time) := by
  have hscreen := (Screen.clearChanges_reset e.machine.screen).trans
    (Screen.clearChanges_reset (new config e.machine.host).machine.screen).symm
  have hrng : e.machine.rng.reseed (Machine.seed e.machine.config e.machine.host)
      = (new config e.machine.host).machine.rng.reseed (Machine.seed config e.machine.host) := by
    rw [Generator.reseed_eq_ofSeed, Generator.reseed_eq_ofSeed, h.config]
  have hmoves : e.machine.moves + 1 + 0 = 0 + 1 + e.machine.moves := by omega
  exact
    { machine :=
        { config := h.config
          world := rfl
          vars := Store.clear_eq_of_limits h.limits
          saves := rfl
          screen := hscreen
          rng := hrng
          host := rfl
          callDepth := h.atRest.2
          location := rfl
          action := rfl
          clock := hclock
          line := rfl
          moves := hmoves }
      noSite := ⟨h.noSite, rfl⟩
      lastError := .none }

/-- **A reset engine is a new engine, but for its clock.** Whatever an engine was asked before it was
given a world (a reset gives it the one it has) and whatever is asked afterwards: no host can tell it from
a new engine with the same configuration and world and a host that gives the same answers (a random seed
among them, if the configuration has none) that was created when it was. Nor from one created at any other
time, such as now, as long as the host tells the time. -/
theorem reset_indistinguishable_new (config : Config) (host : Host) (before : List Request) :
    let e := (new config host).serveAll before
    e.reset = e.load e.machine.world ∧
      ∀ world,
        let fresh := (new config e.machine.host).load world
        (e.load world).Indistinguishable (fresh.createdAt e.machine.started) ∧
          ∀ time, (e.load world).view = (fresh.createdAt time).view ∧
            ∀ later, e.machine.host.msecs ≠ none → (∀ r ∈ later, r.TellsTime) →
              (e.load world).observe later = (fresh.createdAt time).observe later := by
  intro e
  have hsettled : e.Settled config := serveAll_settled (new_settled config host) before
  refine ⟨rfl, fun world => ?_⟩
  have hsame := load_near_new hsettled world fun _ => rfl
  refine ⟨⟨hsame.view_eq, fun later => hsame.observe_eq later (.inl rfl)⟩, fun time =>
    ⟨hsame.view_eq, fun later htold htells => ?_⟩⟩
  exact (load_near_new hsettled world (absurd · htold)).observe_eq later (.inr htells)

/-- An engine that has rolled dice is reset, and later its host tells another time. -/
theorem observe_reset_told :
    let config : Config := { randSeed := some 42 }
    let e := (new config { msecs := some 7 }).serveAll [.entry (.run "X = RAND(1, 6)")]
    let later : List Request :=
      [.entry (.eval "MSECSCOUNT"), .answers { msecs := some 9 }, .entry (.eval "MSECSCOUNT")]
    e.machine.host.msecs ≠ none ∧ (∀ r ∈ later, r.TellsTime) ∧
      e.reset.observe later
        = (((new config e.machine.host).load e.machine.world).createdAt 0).observe later := by
  intro config e later
  have htold : e.machine.host.msecs ≠ none := by decide +kernel
  have htells : ∀ r ∈ later, r.TellsTime := by simp [later, Request.TellsTime]
  have hreset := reset_indistinguishable_new config { msecs := some 7 } [.entry (.run "X = RAND(1, 6)")]
  refine ⟨htold, htells, ?_⟩
  rw [hreset.1]
  exact ((hreset.2 e.machine.world).2 0).2 later htold htells

/-- **A reset does not start the clock again.** Five seconds after its creation an engine is reset; it
counts them, and an engine that is created then does not. -/
theorem reset_keeps_clock :
    let config : Config := { randSeed := some 42 }
    let host : Host := { clock := { now := 5000000000, delays := [0] } }
    let e := (new config {}).serveAll [.answers host]
    let fresh := (new config e.machine.host).load e.machine.world
    let asked : Request := .entry (.eval "MSECSCOUNT")
    (e.reset.serve asked).1 = .reply (.done (.value (.number 5000))) ∧
      (fresh.serve asked).1 = .reply (.done (.value (.number 0))) ∧
      ¬e.reset.Indistinguishable fresh := by
  intro config host e fresh asked
  have hreset : (e.reset.serve asked).1 = .reply (.done (.value (.number 5000))) := by decide +kernel
  have hfresh : (fresh.serve asked).1 = .reply (.done (.value (.number 0))) := by decide +kernel
  refine ⟨hreset, hfresh, fun h => ?_⟩
  have hanswers := congrArg (·.map Prod.fst) (h.2 [asked])
  simp only [observe, List.map_cons, hreset, hfresh, Answer.withoutFlags, List.map_nil] at hanswers
  cases hanswers

end Engine

end QuestScript
