import QuestScript.Value.Number

/-!
# The host

The program around the engine: it shows windows, plays sounds, asks the player. Calls to it are
recorded in order. What it answers is given beforehand: texts typed into input boxes, choices in
menus, the files that are playing, the text of the input line and the time. A host that does not tell
the time leaves it to the clock of the system, whose course is given beforehand too.
-/

namespace QuestScript

/-- The windows a script can show or hide. -/
inductive Window where
  | actions
  | objects
  | stat
  | input
deriving DecidableEq, Repr

/-- A call to the host. -/
inductive HostCall where
  | refresh (forced : Bool)
  | showWindow (window : Window) (visible : Bool)
  | setTimer (msecs : Number)
  | setInputText (text : String)
  | play (file : String) (volume : Number)
  /-- Without a file, all files are closed. -/
  | closeFile (file : Option String)
  | isPlaying (file : String)
  | message (text : String)
  | input (prompt : String)
  | addMenuItem (name : String) (image : Option String)
  | menu
  | showPicture (path : String)
  | sleep (msecs : Number)
  | openGame (path : Option String)
  | saveGame (path : Option String)
  /-- A library is added to the world instead of replacing it. -/
  | openQuest (path : String) (append : Bool)
  | exec (command : String)
deriving DecidableEq, Repr

/-- The clock of the system, in nanoseconds. -/
structure Clock where
  now : Int := 0
  /-- How much time passes before each of the next readings; a millisecond once they are used up. -/
  delays : List Int := []
deriving DecidableEq, Repr

namespace Clock

/-- Nanoseconds in a millisecond. -/
def millisecond : Int := 1000000

/-- Time passes. -/
def tick (c : Clock) : Clock :=
  { now := c.now + c.delays.headD millisecond, delays := c.delays.tail }

end Clock

/-- The answers of a host and the calls made to it, the last one first. -/
structure Host where
  /-- Answers to input boxes; an empty text once they are used up. -/
  inputs : List String := []
  /-- Choices in menus; no choice once they are used up. -/
  choices : List (Option Nat) := []
  playing : List String := []
  userText : Option String := none
  /-- The time in milliseconds, if the host tells it. -/
  msecs : Option Number := none
  clock : Clock := {}
  /-- The random seed for a configuration without one. -/
  seed : UInt32 := 0
  calls : List HostCall := []
deriving DecidableEq, Repr

namespace Host

/-- Record a call. -/
def call (h : Host) (c : HostCall) : Host := { h with calls := c :: h.calls }

/-- Ask for a text. -/
def input (h : Host) (prompt : String) : String × Host :=
  (h.inputs.headD "", { h.call (.input prompt) with inputs := h.inputs.tail })

/-- Ask for a choice in the menu. -/
def menu (h : Host) : Option Nat × Host :=
  (h.choices.headD none, { h.call .menu with choices := h.choices.tail })

/-- Ask whether a file is playing. -/
def isPlaying (h : Host) (file : String) : Bool × Host :=
  (h.playing.contains file, h.call (.isPlaying file))

/-- The host after some time has passed. -/
def wait (h : Host) : Host := { h with clock := h.clock.tick }

/-- The recorded calls in order, and the host without them. -/
def takeCalls (h : Host) : List HostCall × Host := (h.calls.reverse, { h with calls := [] })

end Host

end QuestScript
