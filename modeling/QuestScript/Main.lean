import QuestScript.Command.Run

/-!
# The program

Reads the files a command names, runs the command and prints what it has printed. The interactive
loop reads its lines one at a time.
-/

namespace QuestScript.Main

/-- The reason why a file cannot be read. -/
def reason : IO.Error → String
  | .noFileOrDirectory .. => "No such file or directory (os error 2)"
  | .permissionDenied .. => "Permission denied (os error 13)"
  | .inappropriateType .. => "Is a directory (os error 21)"
  | e => toString e

/-- The files with the given names. -/
def readFiles (paths : List String) : IO Command.Files := do
  let texts ← paths.mapM fun (path : String) => do
    match ← (IO.FS.readFile path).toBaseIO with
    | .ok text => return (path, Except.ok text)
    | .error e => return (path, Except.error (reason e))
  return fun path => (texts.lookup path).getD (.error "not a file of the command")

/-- The names of the files a command reads. -/
def paths : Command → List String
  | .run file _ config => file :: config.toList
  | .eval _ => []
  | .lines file _ => [file]
  | .repl file config => file.toList ++ config.toList

/-- Print what a console holds. -/
def flush (c : Console) : IO Unit := do
  IO.print c.out
  (← IO.getStdout).flush
  c.errors.reverse.forM IO.eprintln

/-- The engine with the clock of the system set. -/
def setClock (e : Engine) : IO Engine := do
  let clock : Clock := { now := ← IO.monoNanosNow }
  return { e with machine := { e.machine with host := { e.machine.host with clock } } }

/-- Answer the lines of the standard input until they end or the loop does. -/
partial def loop (e : Engine) : IO Unit := do
  let input ← (← IO.getStdin).getLine
  if input.isEmpty then return
  let (c, e) := ({} : Console).answer (← setClock e) input
  flush c
  match e with
  | some e => loop e
  | none => return

/-- Run a command. -/
def perform (command : Command) : IO UInt32 := do
  let now ← IO.monoNanosNow
  let host : Host := { seed := UInt32.ofNat now, clock := { now } }
  let files ← readFiles (paths command)
  match command with
  | .repl file config =>
    match Command.startLoop files host file config with
    | .error message =>
      flush (({} : Console).error message)
      return 1
    | .ok (c, e) =>
      flush c
      loop e
      return 0
  | command =>
    let ending := Command.perform files host [] command
    flush ending.console
    return UInt32.ofNat ending.code

end QuestScript.Main

/-- Run the program on its arguments. -/
def main (args : List String) : IO UInt32 := do
  match QuestScript.Command.read args with
  | .command c => QuestScript.Main.perform c
  | .print text =>
    IO.print text
    return 0
  | .misuse =>
    IO.eprintln "error: these arguments make no sense; try --help"
    return 2
