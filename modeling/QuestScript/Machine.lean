import QuestScript.Config
import QuestScript.Expr.Cache
import QuestScript.Host
import QuestScript.Pattern.Cache
import QuestScript.Random
import QuestScript.Screen
import QuestScript.Variable.Scope
import QuestScript.World

/-!
# The machine

Everything a running script can change: variables and saved bindings, the screen, the host, the
random numbers, and where the script stands. A run takes a machine and ends in one of three ways:
with a result, with an error, or, when it is given too little fuel, with neither. An error leaves
the machine as it was when the error was raised.
-/

namespace QuestScript

/-- Where code stands: the location or action whose code it is, and the line. -/
structure Site where
  location : Option String := none
  action : Option Nat := none
  line : Nat := 0
deriving DecidableEq, Repr

/-- The state of a running script. -/
structure Machine where
  config : Config
  world : World := {}
  vars : Store
  saves : Saves := {}
  screen : Screen := {}
  rng : Generator
  host : Host
  /-- When the machine was created, by the clock. -/
  started : Int := 0
  /-- How often the current location has been replaced. -/
  moves : Nat := 0
  /-- How many calls are open. -/
  callDepth : Nat := 0
  site : Site := {}
  /-- Where the first error of the running entry arose. -/
  errorSite : Option Site := none
  expressions : Code.Cache := {}
  patterns : Pattern.Cache := {}

namespace Machine

/-- The seed of the random numbers: the configured one or else the host's. -/
def seed (config : Config) (host : Host) : UInt32 := config.randSeed.getD host.seed

/-- A new machine without a world. -/
def new (config : Config) (host : Host) : Machine :=
  { config, host
    started := host.clock.now
    vars := { maxVariables := config.maxVariables, maxItems := config.maxArrayItems }
    rng := Generator.ofSeed (seed config host) }

/-- Forget the variables and everything on the screen, and start the random numbers again. -/
def reset (m : Machine) : Machine :=
  { m with
    vars := m.vars.clear, saves := {}, screen := m.screen.reset
    rng := m.rng.reseed (seed m.config m.host), moves := m.moves + 1, site := {} }

/-- Whole milliseconds since the machine was created. -/
def elapsed (m : Machine) : Number :=
  Int64.ofInt ((m.host.clock.now - m.started).tdiv Clock.millisecond)

/-- Remember where the first error arose. A change of location is no error. -/
def markError (m : Machine) (e : Error) : Machine :=
  if e.kind.isControl || m.errorSite.isSome then m else { m with errorSite := some m.site }

/-- Record a call to the host. -/
def call (m : Machine) (c : HostCall) : Machine := { m with host := m.host.call c }

end Machine

/-! ## Runs -/

/-- How a run ends. -/
inductive Outcome (α : Type) where
  | done (a : α) (m : Machine)
  | failed (e : Error) (m : Machine)
  | outOfFuel

/-- A computation on the machine. -/
def Run (α : Type) : Type := Machine → Outcome α

namespace Run

variable {α β : Type}

/-- A run that ends at once with a result. -/
@[always_inline, inline]
def ret (a : α) : Run α := fun m => .done a m

/-- One run after another; an error ends both. -/
@[always_inline, inline]
def andThen (x : Run α) (f : α → Run β) : Run β := fun m =>
  match x m with
  | .done a m => f a m
  | .failed e m => .failed e m
  | .outOfFuel => .outOfFuel

@[always_inline]
instance : Monad Run where
  pure := ret
  bind := andThen

/-- A run that ends with an error. -/
@[inline]
def fail (e : Error) : Run α := fun m => .failed e m

/-- The error of a kind without a detail. -/
@[inline]
def failWith (k : ErrorKind) : Run α := fail ⟨k, none⟩

/-- A run that ends as a computation without a machine does. -/
@[inline]
def ofExcept : Except Error α → Run α
  | .ok a => ret a
  | .error e => fail e

/-- What a function reads off the machine. -/
@[inline]
def read (f : Machine → α) : Run α := fun m => .done (f m) m

/-- Change the machine. -/
@[inline]
def modify (f : Machine → Machine) : Run Unit := fun m => .done () (f m)

/-- Change the screen. -/
@[inline]
def onScreen (f : Screen → Screen) : Run Unit := modify fun m => { m with screen := f m.screen }

/-- Add an action to the screen. -/
def addAction (a : Action) : Run Unit := fun m =>
  match m.screen.addAction a with
  | .ok screen => .done () { m with screen }
  | .error e => .failed e m

/-- Change the variables, which may fail and leave a changed store all the same. -/
@[inline]
def onVars (f : Store → Except Error α × Store) : Run α := fun m =>
  match f m.vars with
  | (.ok a, vars) => .done a { m with vars }
  | (.error e, vars) => .failed e { m with vars }

/-- The time the host tells, or else what has elapsed by the clock. -/
def msecs : Run Number := fun m =>
  match m.host.msecs with
  | some n => .done n m
  | none =>
    let m := { m with host := m.host.wait }
    .done m.elapsed m

/-- Call the host. -/
@[inline]
def callHost (c : HostCall) : Run Unit := modify (·.call c)

/-- The compiled expression for a text. -/
def compiled (source : List Char) : Run Code := fun m =>
  match m.expressions.get (String.ofList source) with
  | (.ok code, expressions) => .done code { m with expressions }
  | (.error e, expressions) => .failed e.error { m with expressions }

/-- The compiled pattern for a text. -/
def pattern (source : String) : Run Pattern := fun m =>
  match m.patterns.get source with
  | (.ok p, patterns) => .done p { m with patterns }
  | (.error e, patterns) => .failed e { m with patterns }

/-- A random number between two bounds. -/
def random (low high : Number) : Run Number := fun m =>
  let (n, rng) := m.rng.range low high
  .done n { m with rng }

/-- Save a variable in the innermost group. -/
def localize (key : String) : Run Unit := modify fun m =>
  let (saves, vars) := m.saves.localize m.vars key
  { m with saves, vars }

/-- A variable name. -/
@[inline]
def name (cs : List Char) : Run VarName := ofExcept (VarName.read cs)

/-- The error that the location has been replaced, if it has since `stamp` was read. -/
def checkMoves (stamp : Nat) : Run Unit := fun m =>
  if m.moves == stamp then .done () m else .failed ⟨.locationChanged, none⟩ m

/-- A run whose error is marked with the place where it arose. -/
def marked (x : Run α) : Run α := fun m =>
  match x m with
  | .failed e m => .failed e (m.markError e)
  | r => r

/-! ## Frames -/

/-- Close the groups opened since `mark`. -/
def release (mark : Nat) (restore : Bool) (m : Machine) : Machine :=
  let (saves, vars) := m.saves.release mark restore m.vars
  { m with saves, vars }

/-- Run in a group of its own. A run that ends with a result has its bindings put back, and one that
ends with an error drops them. -/
def grouped (x : Run α) : Run α := fun m =>
  let mark := m.saves.depth
  match x { m with saves := m.saves.allocate } with
  | .done a m => .done a (release mark true m)
  | .failed e m => .failed e (release mark false m)
  | .outOfFuel => .outOfFuel

/-- Run as a call, which may be nested only so deep. -/
def nested (x : Run α) : Run α := fun m =>
  if m.config.maxCallDepth ≤ m.callDepth then .failed ⟨.stackOverflow, none⟩ m
  else
    match x { m with callDepth := m.callDepth + 1 } with
    | .done a m => .done a { m with callDepth := m.callDepth - 1 }
    | .failed e m => .failed e { m with callDepth := m.callDepth - 1 }
    | .outOfFuel => .outOfFuel

/-- Run at another site and return to the old one, whatever happens. -/
def atSite (site : Site) (x : Run α) : Run α := fun m =>
  let caller := m.site
  match x { m with site } with
  | .done a m => .done a { m with site := caller }
  | .failed e m => .failed e { m with site := caller }
  | .outOfFuel => .outOfFuel

end Run

/-! ## Open calls -/

/-- How a run of statements ends: with the next statement, with `EXIT`, or with a jump to a label
that is still to be found. -/
inductive Flow where
  | next
  | exit
  | jump (label : String)
deriving DecidableEq, Repr

/-- The parts of the machine that call one another. Everything else is defined over such a record;
the records are then built by induction on the fuel. -/
structure Calls where
  /-- How often a loop may turn. -/
  turns : Nat
  /-- Evaluate an expression. -/
  eval : List Char → Run Value
  /-- Run the lines from `start` up to `stop`; a jump to an unknown label is an error at the top. -/
  lines : List Line → (start stop : Nat) → (top : Bool) → Run Flow
  /-- Run the statements of a line from `start` up to `stop`. -/
  statements : Line → (start stop : Nat) → Run Flow

end QuestScript
