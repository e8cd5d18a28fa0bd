import QuestScript.Command
import QuestScript.Command.Console
import QuestScript.Config.Read
import QuestScript.Line.Listing

/-!
# Running commands

A command reads files, and the interactive loop reads lines; both are given beforehand. What it
prints and whether it failed is all there is to see of it.
-/

namespace QuestScript.Command

/-- The files a command can read: their text, or the reason why it cannot be read. -/
abbrev Files := String → Except String String

/-- How a program ends: its exit code and what it has printed. -/
structure Ending where
  code : Nat
  console : Console := {}

/-- The ending of a program with an error. -/
def Ending.failed (c : Console) (message : String) : Ending := ⟨1, c.error message⟩

/-- The configuration of a file, or the default one. -/
def loadConfig (files : Files) : Option String → Except String Config
  | none => .ok {}
  | some path =>
    match files path with
    | .error e => .error ("cannot read " ++ path ++ ": " ++ e)
    | .ok text =>
      match Config.read text.toList with
      | .ok c => .ok c
      | .error f => .error ("invalid config " ++ path ++ ": " ++ Config.faultText text.toList f)

/-- The world of a file. -/
def loadWorld (files : Files) (path : String) : Except String World := do
  let text ← files path
  match World.ofText text.toList with
  | .ok w => return w
  | .error e => throw e.text

/-- Go to a location of a world and print the screen. -/
def runWorld (files : Files) (host : Host) (path : String) (location config : Option String) :
    Except String Ending := do
  let world ← loadWorld files path
  let start ←
    match location.or world.first with
    | some name => pure name
    | none => throw "world has no locations"
  let config ← loadConfig files config
  let (reply, e) := ((Engine.new config host).load world).goTo start
  let c := ({} : Console).screen e.machine.screen
  match reply with
  | .failed f => return .failed c f.text
  | _ => return ⟨0, c⟩

/-- Print the value of an expression. -/
def evalSource (host : Host) (source : String) : Except String Ending := do
  match compile source.toList with
  | .error e => throw e.text
  | .ok _ =>
    match ((Engine.new {} host).eval source).1 with
    | .done v => return ⟨0, ({} : Console).line v.display⟩
    | .failed f => throw f.text
    | _ => return ⟨1, {}⟩

/-- Print the lines of a source text. -/
def listLines (files : Files) (path : String) (json : Bool) : Except String Ending := do
  let text ← files path
  let lines := Line.ofSource text.toList
  if json then return ⟨0, ({} : Console).line (Text.Json.array (lines.map Line.json)).pretty⟩
  else return ⟨0, ({} : Console).lines (lines.map Line.listing)⟩

/-- The interactive loop before its first line. -/
def startLoop (files : Files) (host : Host) (path config : Option String) :
    Except String (Console × Engine) := do
  let e := Engine.new (← loadConfig files config) host
  let greet (c : Console) (e : Engine) : Console × Engine := (c.lines Console.greeting).changes e
  match path with
  | none => return greet {} e
  | some path =>
    let world ← loadWorld files path
    -- the clock of the engine runs while the file is read
    let e := e.wait.load world
    match world.first with
    | none => return greet {} e
    | some first =>
      let (reply, e) := e.goTo first
      return greet (({} : Console).reply reply) e

/-- Run a command that ends by itself, or the loop on lines that are given. -/
def perform (files : Files) (host : Host) (input : List String) (command : Command) : Ending :=
  let ending : Except String Ending :=
    match command with
    | .run file location config => runWorld files host file location config
    | .eval source => evalSource host source
    | .lines file json => listLines files file json
    | .repl file config =>
      (startLoop files host file config).map fun (c, e) => ⟨0, c.answerAll e input⟩
  match ending with
  | .ok r => r
  | .error message => .failed {} message

/-- Run the program on its arguments. -/
def execute (files : Files) (host : Host) (input : List String) (args : List String) : Ending :=
  match read args with
  | .command c => perform files host input c
  | .print text => ⟨0, ({} : Console).put text⟩
  | .misuse => ⟨2, {}⟩

end QuestScript.Command
