import QuestScript.Bisection
import QuestScript.Line

/-!
# Worlds

A world is a registry of locations. A location has a name, a description, actions that appear
whenever it is shown, and code. Names are compared in upper case and without the blanks around them;
the registry is kept in the order of these keys, so that it can be searched by halving, and remembers
which location was added first.

In the text format a line `# name` opens a location and a line that starts with `-` closes it; lines
between locations are ignored. Inside a literal or a code block such a line is code, and a location
that is not closed runs to the end of the text.
-/

namespace QuestScript

/-- An action that a location shows. -/
structure LocationAction where
  description : String
  image : Option String
  code : List Line
deriving DecidableEq, Repr

/-- A location. -/
structure Location where
  name : String
  description : String := ""
  actions : List LocationAction := []
  code : List Line
deriving DecidableEq, Repr

namespace Location

/-- A location with nothing but code. -/
def ofCode (name : String) (code : List Char) : Location := { name, code := Line.ofSource code }

/-- The key under which a name is kept. -/
def key (name : String) : String := String.ofList (Text.upper (Text.trim name.toList))

end Location

/-- The locations in ascending order of their keys, and the name of the first one added. -/
structure World where
  locations : List (String × Location) := []
  first : Option String := none
deriving DecidableEq, Repr

namespace World

/-! ## The registry -/

/-- How the key of an entry compares with another key. -/
def compareKey (key : String) (entry : String × Location) : Ordering := compare entry.1 key

/-- Put a location in its place; one with the same key is replaced. -/
def insert (key : String) (location : Location) (locations : List (String × Location)) :
    List (String × Location) :=
  match Bisection.search (compareKey key) locations with
  | .hit i => locations.set i (locations[i].1, location)
  | .gap i => locations.insertIdx i (key, location)

/-- Add a location. -/
def add (w : World) (location : Location) : World :=
  { locations := insert (Location.key location.name) location w.locations
    first := w.first.or (some location.name) }

/-- The location with a name. -/
def find? (w : World) (name : String) : Option Location :=
  (Bisection.find? (compareKey (Location.key name)) w.locations).map (·.2)

def contains (w : World) (name : String) : Bool := (w.find? name).isSome

/-- The names of the locations, as given, in the order of their keys. -/
def names (w : World) : List String := w.locations.map (·.2.name)

def size (w : World) : Nat := w.locations.length

/-! ## The text format -/

/-- A location header without a name, on a line counted from one. -/
structure HeaderError where
  line : Nat
deriving DecidableEq, Repr

namespace HeaderError

def kind (_ : HeaderError) : ErrorKind := .unreadableFile

def message (_ : HeaderError) : String := "location header without a name"

/-- The message with its line in front. -/
def text (e : HeaderError) : String :=
  "World error at line " ++ toString e.line ++ ": " ++ e.message

end HeaderError

/-- The lines of a text; a final line break is followed by an empty line. -/
def splitLines (cs : List Char) : List (List Char) :=
  let step : Char → List Char × List (List Char) → List Char × List (List Char) :=
    fun c (line, done) => if c == '\n' then ([], line :: done) else (c :: line, done)
  let (line, done) := cs.foldr step ([], [])
  line :: done

/-- A line without the carriage return at its end. -/
def stripReturn (line : List Char) : List Char :=
  if line.getLast? == some '\r' then line.dropLast else line

/-- A location that is being read: its name, its lines, the last one first, and where its code
stands. -/
structure Opened where
  name : String
  lines : List (List Char) := []
  tracker : Text.Tracker := {}

namespace Opened

/-- Add a line of code. -/
def addLine (o : Opened) (line : List Char) : Opened :=
  { o with lines := line :: o.lines, tracker := (o.tracker.feed line).feed ['\n'] }

/-- The location, with every line ended by a break. -/
def close (o : Opened) : Location :=
  Location.ofCode o.name (o.lines.reverse.flatMap (· ++ ['\n']))

end Opened

/-- Read the lines of a world; `number` is the number of the first one. -/
def readFrom (w : World) (opened : Option Opened) (number : Nat) :
    List (List Char) → Except HeaderError World
  | [] =>
    match opened with
    | some o => .ok (w.add o.close)
    | none => .ok w
  | raw :: rest =>
    let line := stripReturn raw
    let lead := Text.dropBlanks line
    match opened with
    | some o =>
      if o.tracker.isOutside && lead.head? == some '-' then
        readFrom (w.add o.close) none (number + 1) rest
      else readFrom w (some (o.addLine line)) (number + 1) rest
    | none =>
      match lead with
      | '#' :: header =>
        let name := Text.trim header
        if name.isEmpty then .error ⟨number⟩
        else readFrom w (some { name := String.ofList name }) (number + 1) rest
      | _ => readFrom w none (number + 1) rest

/-- Read a world from its text format. -/
def ofText (cs : List Char) : Except HeaderError World := readFrom {} none 1 (splitLines cs)

end World

end QuestScript
