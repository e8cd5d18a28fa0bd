import QuestScript.Machine.Block

/-!
# The engine

What a host holds: a machine and the last error. Every entry runs to its end and replies with a
result, with an error and the place where it arose, or with neither, because a change of location
cut the run short.
-/

namespace QuestScript

/-! ## Failures -/

/-- An error and the place where it arose. -/
structure Failure where
  error : Error
  site : Site
deriving DecidableEq, Repr

namespace Failure

/-- The place in words. -/
def place (f : Failure) : String :=
  let location := f.site.location.elim "" fun l => " in location '" ++ l ++ "'"
  let action := f.site.action.elim "" fun a => ", action " ++ toString a
  let line := if f.site.line == 0 then "" else ", line " ++ toString f.site.line
  location ++ action ++ line

/-- The message with the number of the error in front and the place after it. -/
def text (f : Failure) : String := f.error.text ++ f.place

/-- Whether the error arose in the code of an action. -/
def inAction (f : Failure) : Bool := f.site.action.isSome

end Failure

/-- The answer of an entry. -/
inductive Reply (α : Type) where
  | done (a : α)
  /-- The current location was replaced, which ended the run. -/
  | cut
  | failed (f : Failure)
  /-- The run was given too little fuel. -/
  | stuck
deriving DecidableEq, Repr

/-- A reply with another result. -/
def Reply.map {α β : Type} (f : α → β) : Reply α → Reply β
  | done a => done (f a)
  | cut => cut
  | failed e => failed e
  | stuck => stuck

/-- The result of a reply, where a run that was cut short has the given one. -/
def Reply.orCut {α : Type} (a : α) : Reply α → Reply α
  | cut => done a
  | r => r

/-- An engine: the machine and the last error it reported. -/
structure Engine where
  machine : Machine
  lastError : Option Failure := none

namespace Engine

/-! ## Starting -/

/-- A new engine without a world. -/
def new (config : Config) (host : Host) : Engine := { machine := Machine.new config host }

/-- Start anew: no variables, nothing on the screen, no last error. -/
def reset (e : Engine) : Engine := { machine := e.machine.reset }

/-- Put another world in place and start anew. -/
def load (e : Engine) (world : World) : Engine :=
  reset { e with machine := { e.machine with world } }

/-! ## Entries -/

/-- The fuel of a run, more than any run can use up in a lifetime. -/
def fuel : Nat := 1000000000000

/-- The calls of an entry. -/
def calls : Calls := Calls.ofFuel fuel

/-- Report an error. It arose where the first error of the run was marked, or else where the machine
stands. -/
def fail {α : Type} (e : Engine) (error : Error) : Reply α × Engine :=
  let f : Failure := ⟨error, e.machine.errorSite.getD e.machine.site⟩
  (.failed f, { machine := { e.machine with errorSite := none }, lastError := some f })

/-- Run an entry. -/
def enter {α : Type} (e : Engine) (x : Run α) : Reply α × Engine :=
  match x { e.machine with errorSite := none } with
  | .done a machine => (.done a, { e with machine })
  | .failed error machine =>
    if error.kind.isControl then (.cut, { e with machine }) else fail { e with machine } error
  | .outOfFuel => (.stuck, e)

/-- Run a location as a call. -/
def runLocation (e : Engine) (name : String) : Reply Unit × Engine :=
  e.enter do
    let _ ← Machine.callLocation calls name [] false

/-- Make a location the current one. -/
def goTo (e : Engine) (name : String) : Reply Unit × Engine :=
  e.enter (Machine.goTo calls name [] true)

/-- Run a piece of code. -/
def run (e : Engine) (code : String) : Reply Unit × Engine :=
  e.enter (Run.grouped (Machine.runBody calls (Line.ofSource code.toList)))

/-- Call a location as a function; its value is what it leaves in `RESULT`. -/
def call (e : Engine) (name : String) (args : List Value) : Reply Value × Engine :=
  let (reply, e) := e.enter (Machine.callLocation calls name args false)
  ((reply.orCut none).map fun slot => Machine.resultValue slot none, e)

/-- Evaluate an expression. -/
def eval (e : Engine) (source : String) : Reply Value × Engine :=
  let (reply, e) := e.enter (calls.eval source.toList)
  (reply.orCut (.number 0), e)

/-- Run the code of the action at an index and select it. -/
def act (e : Engine) (index : Nat) : Reply Unit × Engine :=
  match e.machine.screen.actions[index]? with
  | none => e.fail ⟨.unknownAction, some (toString index)⟩
  | some action =>
    let screen := { e.machine.screen with selectedAction := some index }
    let site : Site := { location := action.location, action := some index }
    ({ e with machine := { e.machine with screen } } : Engine).enter
      (Run.atSite site (Run.grouped (Machine.runBody calls action.code)))

/-- Select the object at an index and call the hooks; `false` if there is none. -/
def select (e : Engine) (index : Nat) : Reply Bool × Engine :=
  if e.machine.screen.objects.length ≤ index then (.done false, e)
  else
    let screen := { e.machine.screen with selectedObject := some index }
    let (reply, e) := ({ e with machine := { e.machine with screen } } : Engine).enter
      (Machine.runHooks calls "ONOBJSEL" [])
    ((reply.map fun _ => true).orCut true, e)

/-- Set the text of the input line. -/
def setInput (e : Engine) (text : String) : Engine :=
  { e with machine := { e.machine with screen := { e.machine.screen with userInput := text } } }

/-- Run the handlers of the input line. -/
def submit (e : Engine) : Reply Unit × Engine := e.enter (Machine.runHooks calls "USERCOM" [])

/-- Run the handlers of the timer. -/
def tick (e : Engine) : Reply Unit × Engine := e.enter (Machine.runHooks calls "COUNTER" [])

/-! ## Variables -/

/-- An item of a variable; a bad name has an empty one. -/
def get (e : Engine) (name : String) (index : Value) : Value :=
  match VarName.read name.toList with
  | .ok n => e.machine.vars.get n index
  | .error _ => Value.empty (ValueType.ofName (Text.trimWhite name.toList))

/-- Write an item of a variable. -/
def set (e : Engine) (name : String) (index v : Value) : Reply Unit × Engine :=
  match VarName.read name.toList with
  | .error error => e.fail error
  | .ok n =>
    match e.machine.vars.set n index v with
    | (.ok _, vars) => (.done (), { e with machine := { e.machine with vars } })
    | (.error error, vars) => fail { e with machine := { e.machine with vars } } error

/-- Number of items of a variable. -/
def size (e : Engine) (name : String) : Nat :=
  match VarName.read name.toList with
  | .ok n => e.machine.vars.size n.key
  | .error _ => 0

/-- The keys of the variables that hold something. -/
def names (e : Engine) : List String := e.machine.vars.names

/-! ## What a host asks for -/

/-- Whether a panel has changed since this was last asked. -/
def takeChange (e : Engine) (p : Panel) : Bool × Engine :=
  let screen := { e.machine.screen with changes := e.machine.screen.changes.lower p }
  (e.machine.screen.changes.flag p, { e with machine := { e.machine with screen } })

/-- The parts of the screen that have changed since this was last asked. -/
def takeChanges (e : Engine) : Changes × Engine :=
  (e.machine.screen.changes,
    { e with machine := { e.machine with screen := e.machine.screen.clearChanges } })

/-- The panels are asked about one after the other. -/
theorem takeChanges_eq (e : Engine) :
    let (main, e₁) := e.takeChange .main
    let (stat, e₂) := e₁.takeChange .stat
    let (actions, e₃) := e₂.takeChange .actions
    let (objects, e₄) := e₃.takeChange .objects
    e.takeChanges = ({ main, stat, actions, objects }, e₄) := rfl

/-- The calls to the host since this was last asked. -/
def takeCalls (e : Engine) : List HostCall × Engine :=
  let (made, host) := e.machine.host.takeCalls
  (made, { e with machine := { e.machine with host } })

/-- Let time pass. -/
def wait (e : Engine) : Engine :=
  { e with machine := { e.machine with host := e.machine.host.wait } }

/-- Forget the last error. -/
def clearError (e : Engine) : Engine := { e with lastError := none }

end Engine

end QuestScript
