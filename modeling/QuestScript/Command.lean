/-!
# The command line

Four commands: run a world, evaluate an expression, list the lines of a source text, and an
interactive loop. Options may stand before or after the other arguments; `--` ends them.
-/

namespace QuestScript

/-- A command. -/
inductive Command where
  | run (file : String) (location config : Option String)
  | eval (source : String)
  | lines (file : String) (json : Bool)
  | repl (file config : Option String)
deriving DecidableEq, Repr

namespace Command

/-! ## What the arguments say -/

/-- What is asked for: a command, a text such as the help, or nothing that makes sense. -/
inductive Request where
  | command (c : Command)
  | print (text : String)
  | misuse
deriving DecidableEq, Repr

/-- Arguments sorted by kind: plain ones, options with their values, and switches. -/
structure Sorted where
  plain : List String := []
  options : List (String × String) := []
  switches : List String := []

/-- The arguments a command takes: how many plain ones, which options and which switches. -/
structure Grammar where
  plain : Nat
  options : List String := []
  switches : List String := []

/-- How sorting ends. -/
inductive Sorting where
  | done (s : Sorted)
  | help
  | misuse

/-- Whether an argument looks like an option. -/
def isOption (arg : String) : Bool := arg.startsWith "-" && arg != "-"

/-- A long option: its name and the value after an equals sign. -/
def splitOption (arg : String) : String × Option String :=
  let cs := arg.toList.drop 2
  match cs.span (· != '=') with
  | (name, _ :: value) => (String.ofList name, some (String.ofList value))
  | (name, []) => (String.ofList name, none)

/-- Add a plain argument, if there is room for it. -/
def Sorted.addPlain (g : Grammar) (s : Sorted) (arg : String) : Option Sorted :=
  if s.plain.length < g.plain then some { s with plain := s.plain ++ [arg] } else none

/-- Add an option that was not given before. -/
def Sorted.addOption (s : Sorted) (name value : String) : Option Sorted :=
  if (s.options.lookup name).isSome then none
  else some { s with options := s.options ++ [(name, value)] }

/-- Add a switch that was not given before. -/
def Sorted.addSwitch (s : Sorted) (name : String) : Option Sorted :=
  if s.switches.contains name then none else some { s with switches := s.switches ++ [name] }

/-- Sort arguments. Those after `--` are all plain; `pending` is an option that waits for its
value. -/
def sort (g : Grammar) (onlyPlain : Bool) (pending : Option String) (s : Sorted) :
    List String → Sorting
  | [] => if pending.isSome then .misuse else .done s
  | arg :: rest =>
    match pending with
    | some name =>
      if isOption arg then .misuse
      else
        match s.addOption name arg with
        | some s => sort g onlyPlain none s rest
        | none => .misuse
    | none =>
      if onlyPlain || !isOption arg then
        match s.addPlain g arg with
        | some s => sort g onlyPlain none s rest
        | none => .misuse
      else if arg == "--" then sort g true none s rest
      else if !arg.startsWith "--" then if arg.startsWith "-h" then .help else .misuse
      else
        match splitOption arg with
        | ("help", none) => .help
        | (name, value) =>
          if g.options.contains name then
            match value with
            | none =>
              if (s.options.lookup name).isSome then .misuse else sort g false (some name) s rest
            | some value =>
              match s.addOption name value with
              | some s => sort g false none s rest
              | none => .misuse
          else if g.switches.contains name && value.isNone then
            match s.addSwitch name with
            | some s => sort g false none s rest
            | none => .misuse
          else .misuse

/-! ## Texts -/

/-- Name and version. -/
def versionText : String := "qsp 0.1.0\n"

def helpText : String :=
  "QSP interactive fiction engine\n\n" ++
  "Usage: qsp <COMMAND>\n\n" ++
  "Commands:\n" ++
  "  run    Load a world and run a location\n" ++
  "  eval   Evaluate one expression\n" ++
  "  lines  Dump the preprocessed lines of a code file (debug)\n" ++
  "  repl   Interactive loop, optionally over a world file\n" ++
  "  help   Print this message or the help of the given subcommand(s)\n\n" ++
  "Options:\n" ++
  "  -h, --help     Print help\n" ++
  "  -V, --version  Print version\n"

def runHelp : String :=
  "Load a world and run a location\n\n" ++
  "Usage: qsp run [OPTIONS] <FILE>\n\n" ++
  "Arguments:\n" ++
  "  <FILE>  Plain-text world file\n\n" ++
  "Options:\n" ++
  "      --loc <LOC>        Location to start in (default: the first one)\n" ++
  "      --config <CONFIG>  Engine configuration (TOML)\n" ++
  "  -h, --help             Print help\n"

def evalHelp : String :=
  "Evaluate one expression\n\n" ++
  "Usage: qsp eval <EXPR>\n\n" ++
  "Arguments:\n" ++
  "  <EXPR>  \n\n" ++
  "Options:\n" ++
  "  -h, --help  Print help\n"

def linesHelp : String :=
  "Dump the preprocessed lines of a code file (debug)\n\n" ++
  "Usage: qsp lines [OPTIONS] <FILE>\n\n" ++
  "Arguments:\n" ++
  "  <FILE>  \n\n" ++
  "Options:\n" ++
  "      --json  Print as JSON\n" ++
  "  -h, --help  Print help\n"

def replHelp : String :=
  "Interactive loop, optionally over a world file\n\n" ++
  "Usage: qsp repl [OPTIONS] [FILE]\n\n" ++
  "Arguments:\n" ++
  "  [FILE]  \n\n" ++
  "Options:\n" ++
  "      --config <CONFIG>  \n" ++
  "  -h, --help             Print help\n"

def helpHelp : String :=
  "Print this message or the help of the given subcommand(s)\n\n" ++
  "Usage: qsp help [COMMAND]...\n\n" ++
  "Arguments:\n" ++
  "  [COMMAND]...  Print help for the subcommand(s)\n"

/-! ## Reading -/

/-- Whether an optional path is there and empty, which no path may be. -/
def isEmptyPath (path : Option String) : Bool := path == some ""

/-- The command that sorted arguments spell. -/
def ofSorted? (name : String) (s : Sorted) : Option Command :=
  let config := s.options.lookup "config"
  if isEmptyPath config || (name != "eval" && isEmptyPath s.plain.head?) then none
  else
    match name, s.plain with
    | "run", [file] => some (.run file (s.options.lookup "loc") config)
    | "eval", [source] => some (.eval source)
    | "lines", [file] => some (.lines file (s.switches.contains "json"))
    | "repl", plain => some (.repl plain.head? config)
    | _, _ => none

/-- The arguments of the command with a name, and its help. -/
def grammar? : String → Option (Grammar × String)
  | "run" => some ({ plain := 1, options := ["loc", "config"] }, runHelp)
  | "eval" => some ({ plain := 1 }, evalHelp)
  | "lines" => some ({ plain := 1, switches := ["json"] }, linesHelp)
  | "repl" => some ({ plain := 1, options := ["config"] }, replHelp)
  | _ => none

/-- What `help` prints. -/
def readHelp : List String → Request
  | [] => .print helpText
  | ["help"] => .print helpHelp
  | [name] =>
    match grammar? name with
    | some (_, help) => .print help
    | none => .misuse
  | _ => .misuse

/-- What the arguments of the program ask for. -/
def read : List String → Request
  | [] => .misuse
  | arg :: rest =>
    if arg == "--help" || arg.startsWith "-h" then .print helpText
    else if arg == "--version" || arg.startsWith "-V" then .print versionText
    else if arg == "help" then readHelp rest
    else
      match grammar? arg with
      | none => .misuse
      | some (g, help) =>
        match sort g false none {} rest with
        | .help => .print help
        | .misuse => .misuse
        | .done s =>
          match ofSorted? arg s with
          | some c => .command c
          | none => .misuse

end Command

end QuestScript
