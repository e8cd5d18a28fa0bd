import QuestScript.Engine

/-!
# The console

What a program prints: text for the reader and, apart from it, the errors. The interactive loop takes
a line at a time: a line that starts with a colon is a command of the loop, one that starts with a
question mark is an expression to be printed, and any other is code.
-/

namespace QuestScript

/-- What has been printed. -/
structure Console where
  out : String := ""
  /-- Errors, the last one first. -/
  errors : List String := []

namespace Console

/-- Print a text as it is. -/
def put (c : Console) (s : String) : Console := { c with out := c.out ++ s }

/-- Print a line. -/
def line (c : Console) (s : String) : Console := c.put (s ++ "\n")

/-- Print lines. -/
def lines (c : Console) (ss : List String) : Console := ss.foldl line c

/-- Print an error. -/
def error (c : Console) (s : String) : Console := { c with errors := ("Error: " ++ s) :: c.errors }

/-- Print the error of a reply, if it is one. -/
def reply {α : Type} (c : Console) : Reply α → Console
  | .failed f => c.error f.text
  | .stuck => c.error "no end in sight"
  | .done _ | .cut => c

/-! ## The screen -/

/-- A text without the white space at its end. -/
def trimEnd (s : String) : String := String.ofList (Text.trimWhiteRight s.toList)

/-- Descriptions of actions with their numbers. -/
def actionLines (lead : String) (actions : List Action) : List String :=
  actions.zipIdx.map fun (a, i) => lead ++ "[" ++ toString (i + 1) ++ "] " ++ a.description

/-- Print the second panel. -/
def stat (c : Console) (text : String) : Console := c.line ("--- stat ---\n" ++ trimEnd text)

/-- Print the whole screen; panels with nothing but white space are left out. -/
def screen (c : Console) (s : Screen) : Console :=
  let main := trimEnd s.mainText
  let c := if main.isEmpty then c else c.line main
  let c := if (trimEnd s.statText).isEmpty then c else c.stat s.statText
  let c := c.lines (actionLines "" s.actions)
  c.lines (s.objects.map fun o => "* " ++ o.name)

/-- Print the parts of the screen that have changed. The change of the objects is not shown and stays
marked. -/
def changes (c : Console) (e : Engine) : Console × Engine :=
  let s := e.machine.screen
  let c := if s.changes.main && !s.mainText.isEmpty then c.line (trimEnd s.mainText) else c
  let c := if s.changes.stat && !s.statText.isEmpty then c.stat s.statText else c
  let c := if s.changes.actions then c.lines (actionLines "  " s.actions) else c
  let screen := { s with changes := { objects := s.changes.objects } }
  (c, { e with machine := { e.machine with screen } })

/-! ## The loop -/

/-- The first words of the loop. -/
def greeting : List String :=
  ["QSP REPL 0.1.0", "Type :help for help, :quit to exit.\n"]

def help : List String :=
  ["QSP REPL Commands:",
    "  :help, :h, :?   Show this help",
    "  :quit, :q       Exit the REPL",
    "  :clear          Clear the screen",
    "  :vars [NAME]    List variables, or the items of NAME",
    "  :goto LOC       Go to a location",
    "  :act N          Run the N-th action",
    "",
    "Any other line runs as QSP code, e.g. *pl 'hello' or x += 1.",
    "Prefix an expression with ? to print it: ?len($name)"]

/-- The codes that clear a terminal. -/
def clearCodes : String := "\x1b[2J\x1b[1;1H"

/-- The items of a variable, at least one. -/
def itemLines (e : Engine) (name : String) : List String :=
  (List.range (max (e.size name) 1)).map fun i =>
    name ++ "[" ++ toString i ++ "] = " ++ (e.get name (.number (Number.ofCount i))).display

/-- Print the error of a run and what it has changed. -/
def report (c : Console) (r : Reply Unit × Engine) : Console × Engine := (c.reply r.1).changes r.2

/-- The number of an action, counted from one. -/
def actionNumber? (s : String) : Option Nat :=
  let digits :=
    match s.toList with
    | '+' :: ds => ds
    | ds => ds
  match Number.readDigits? digits with
  | some (n + 1) => if n + 1 < UInt64.size then some n else none
  | _ => none

/-- A command of the loop and its argument. -/
def splitCommand (cs : List Char) : String × String :=
  match cs.span (!Text.isWhite ·) with
  | (name, rest) => (String.ofList name, String.ofList (Text.trimWhite rest))

/-- Run a command of the loop; without an engine the loop ends. -/
def command (c : Console) (e : Engine) (input : List Char) : Console × Option Engine :=
  let go (r : Console × Engine) : Console × Option Engine := (r.1, some r.2)
  let unknown := c.lines ["Unknown command: " ++ String.ofList input, "Type :help for help."]
  match splitCommand input with
  | (":quit", _) | (":q", _) | (":exit", _) => (c, none)
  | (":help", _) | (":h", _) | (":?", _) => (c.lines help, some e)
  | (":clear", _) => (c.put clearCodes, some e)
  | (":vars", "") => (c.lines e.names, some e)
  | (":vars", name) => (c.lines (itemLines e name), some e)
  | (":goto", name) => if name.isEmpty then (unknown, some e) else go (c.report (e.goTo name))
  | (":act", arg) =>
    match actionNumber? arg with
    | some n => go (c.report (e.act n))
    | none => (c.line "Usage: :act N", some e)
  | _ => (unknown, some e)

/-- Answer a line of input; without an engine the loop ends. -/
def answer (c : Console) (e : Engine) (input : String) : Console × Option Engine :=
  match Text.trimWhite input.toList with
  | [] => (c, some e)
  | ':' :: cs => c.command e (':' :: cs)
  | '?' :: cs =>
    match e.eval (String.ofList cs) with
    | (.done v, e) => (c.line v.display, some e)
    | (r, e) => (c.reply r, some e)
  | cs =>
    let (c, e) := c.report (e.run (String.ofList cs))
    (c, some e)

/-- Answer lines of input until there are no more or the loop ends. -/
def answerAll (c : Console) (e : Engine) : List String → Console
  | [] => c
  | input :: rest =>
    match c.answer e input with
    | (c, some e) => answerAll c e rest
    | (c, none) => c

end Console

end QuestScript
