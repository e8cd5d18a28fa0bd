import QuestScript.Line.Block
import QuestScript.Machine.Statement

/-!
# Lines and blocks

Control within a body of code. A header whose code is on the next lines looks for its `END` whenever
it runs; conditionals pick a branch, loops run their block again and again, each turn in a group of
bindings of its own. A jump leaves one block after the other until a range of lines has its label.
-/

namespace QuestScript

namespace Machine

/-! ## Conditions and actions -/

/-- The error of a header without its colon. -/
def requireColon (line : Line) (s : Statement) : Run Unit :=
  if line.hasColon s then pure () else Run.failWith .missingColon

/-- The truth of the condition of a header. -/
def condition (c : Calls) (line : Line) (s : Statement) : Run Bool := do
  let args ← statementArgs c line s
  return ((args.head?.bind Value.number?).getD 0) != 0

/-- Add an action with the given code. -/
def addAction (c : Calls) (line : Line) (s : Statement) (code : List Line) : Run Unit := do
  let args ← statementArgs c line s
  let location ← Run.read (·.site.location)
  Run.addAction ⟨textArg args 0, textArg? args 1, code, location⟩

/-- The code of an action on one line: all that follows its header up to the last of the statements
before `stop`, with the colon that may end it. -/
def inlineCode (line : Line) (s last : Statement) : List Char :=
  let stop := if line.hasColon last then last.stop + 1 else last.stop
  match Text.slice? line.text (s.stop + 1) stop with
  | some code => Text.trim code
  | none => []

/-- An action on one line, whose code is what follows up to the statement `stop`. -/
def inlineAction (c : Calls) (line : Line) (index stop : Nat) (s : Statement) : Run Unit := do
  requireColon line s
  if stop ≤ index + 1 then Run.failWith .missingCode
  else
    let last := line.statements[stop - 1]?.getD s
    addAction c line s [Line.scan (inlineCode line s last) line.number]

/-- A conditional on one line: its statements up to `stop`, with or without `ELSE`. -/
def inlineIf (c : Calls) (line : Line) (index stop : Nat) (s : Statement) : Run Flow := do
  requireColon line s
  let branch :=
    Block.inlineElse? 0 (index + 1) ((line.statements.take stop).drop (index + 1))
  let hollow :=
    match branch with
    | some e => e == index + 1 || e + 1 == stop
    | none => index + 1 == stop
  if hollow then Run.failWith .missingCode
  else if ← condition c line s then
    (c.statements line (index + 1) (branch.getD stop)).grouped
  else
    match branch with
    | some e => (c.statements line (e + 1) stop).grouped
    | none => pure .next

/-! ## Loops -/

/-- The header of a loop: what is run before it, its condition, and what is run after every turn. -/
structure LoopHeader where
  init : Option Line
  condition : List Char
  step : Option Line

/-- Cut a text in two at a word that may be missing. -/
def splitOptional (cs : List Char) (word : List Char) : List Char × Option (List Char) :=
  match Text.splitAtWord? cs word with
  | some (before, after) => (before, some after)
  | none => (cs, none)

/-- Read the header of a loop. -/
def LoopHeader.read (cs : List Char) (number : Nat) : Option LoopHeader :=
  match Text.splitAtWord? cs ['W', 'H', 'I', 'L', 'E'] with
  | none => none
  | some (init, rest) =>
    let (condition, step) := splitOptional rest ['S', 'T', 'E', 'P']
    some {
      init := if Text.hasText init then some (Line.scan init number) else none
      condition
      step := step.map (Line.scan · number) }

/-- Run the statements of a part of a header. -/
def runPart (c : Calls) (line : Line) : Run Flow :=
  c.statements line 0 line.statements.length

/-- One turn of a loop after its condition was true: the body and then the step. -/
def turn (c : Calls) (body : Run Flow) (step : Option Line) : Run Flow := do
  match ← body.grouped with
  | .next =>
    match step with
    | some line => (runPart c line).grouped
    | none => pure .next
  | flow => pure flow

/-- Turn as long as the condition is true, at most `n` times. -/
def turnWhile (c : Calls) (h : LoopHeader) (body : Run Flow) : Nat → Run Flow
  | 0 => fun _ => .outOfFuel
  | n + 1 => fun m =>
    match (do Run.ofExcept (← c.eval h.condition).toTruth : Run Bool) m with
    | .failed e m => .failed e m
    | .outOfFuel => .outOfFuel
    | .done false m => .done .next m
    | .done true m =>
      match turn c body h.step m with
      | .done .next m => turnWhile c h body n m
      | r => r

/-- `LOOP [init] WHILE condition [STEP step]`. -/
def runLoop (c : Calls) (line : Line) (s : Statement) (body : Run Flow) : Run Flow := do
  requireColon line s
  match LoopHeader.read (line.params s) line.number with
  | none => Run.failWith .missingWhile
  | some h => Run.grouped do
    match ← (match h.init with
      | some init => runPart c init
      | none => pure .next) with
    | .next => turnWhile c h body c.turns
    | flow => pure flow

/-- The header of a counting loop: its variable, the first value, the bound and the step. -/
structure ForHeader where
  name : VarName
  init : List Char
  bound : List Char
  step : Option (List Char)

/-- Read the header of a counting loop. -/
def ForHeader.read (cs : List Char) : Except Error ForHeader := do
  let bad : Error := ⟨.badSyntax, none⟩
  let some (assignment, rest) := Text.splitAtWord? cs ['T', 'O'] | throw bad
  let some (name, init) := Text.cutAtDelimiter? assignment '=' | throw bad
  let name ← VarName.read name
  let init := Text.trim init
  let (bound, step) := splitOptional rest ['S', 'T', 'E', 'P']
  if Text.hasText init && Text.hasText bound && step.all Text.hasText then
    return { name, init, bound, step }
  else throw bad

/-- Evaluate an expression that must be a number. -/
def evalNumber (c : Calls) (source : List Char) : Run Number := do
  Run.ofExcept (← c.eval source).toNumber

/-- The current value of the variable of a loop. -/
def counter (name : VarName) : Run Number := fun m =>
  Run.ofExcept (m.vars.getAt name 0).toNumber m

/-- The step of a loop, unless its variable has passed the bound. -/
def nextStep (c : Calls) (h : ForHeader) : Run (Option Number) := do
  let limit ← evalNumber c h.bound
  let step ←
    match h.step with
    | some source => evalNumber c source
    | none => pure 1
  let current ← counter h.name
  let passed := if 0 ≤ step then limit < current else current < limit
  return if passed then none else some step

/-- Add the step to the variable of a loop. -/
def increment (name : VarName) (step : Number) : Run Unit := do
  let current ← counter name
  Run.onVars (·.assign name (some 0) .set (.number (current + step)))

/-- Count until the bound is passed, at most `n` times. -/
def countUp (c : Calls) (h : ForHeader) (body : Run Flow) : Nat → Run Flow
  | 0 => fun _ => .outOfFuel
  | n + 1 => fun m =>
    match nextStep c h m with
    | .failed e m => .failed e m
    | .outOfFuel => .outOfFuel
    | .done none m => .done .next m
    | .done (some step) m =>
      match body.grouped m with
      | .failed e m => .failed e m
      | .outOfFuel => .outOfFuel
      | .done .next m =>
        match increment h.name step m with
        | .failed e m => .failed e m
        | .outOfFuel => .outOfFuel
        | .done _ m => countUp c h body n m
      | .done flow m => .done flow m

/-- `FOR name = init TO bound [STEP step]`. -/
def runFor (c : Calls) (line : Line) (s : Statement) (body : Run Flow) : Run Flow := do
  requireColon line s
  let h ← Run.ofExcept (ForHeader.read (line.params s))
  Run.grouped do
    let first ← c.eval h.init
    Run.localize h.name.key
    Run.onVars (·.assign h.name (some 0) .set first)
    countUp c h body c.turns

/-! ## Statements of a line -/

/-- Run a statement that is neither a comment nor a header. -/
def runSimple (c : Calls) (line : Line) (s : Statement) : Run Flow :=
  match s.kind with
  | .unknown | .label | .otherwise | .endBlock => pure .next
  | .assign => do
    assign c line s
    return .next
  | .declare => do
    declare c line s
    return .next
  | kind => do
    let args ← statementArgs c line s
    runStatement c kind args

/-- Run statements of a line, the first of which is number `index`, up to number `stop`. -/
def statementsFrom (c : Calls) (line : Line) (stop index : Nat) : List Statement → Run Flow
  | [] => pure .next
  | s :: rest =>
    match s.kind with
    | .comment | .elseIf => pure .next
    | .ifThen => inlineIf c line index stop s
    | .act => do
      inlineAction c line index stop s
      return .next
    | .loop => runLoop c line s (c.statements line (index + 1) stop)
    | .forTo => runFor c line s (c.statements line (index + 1) stop)
    | _ => do
      match ← runSimple c line s with
      | .next => statementsFrom c line stop (index + 1) rest
      | flow => pure flow

/-- Run the statements of a line from `start` up to `stop`. -/
def runStatements (c : Calls) (line : Line) (start stop : Nat) : Run Flow :=
  let stop := min stop line.statements.length
  statementsFrom c line stop start ((line.statements.take stop).drop start)

/-! ## Lines -/

/-- Where to go on after a line: at another one, or outside of the range. -/
inductive Cursor where
  | line (index : Nat)
  | leave (flow : Flow)

/-- Go on at a line if nothing else was asked for. -/
def Cursor.after (next : Nat) : Flow → Cursor
  | .next => .line next
  | flow => .leave flow

/-- The `END` of the block that follows line `i`. -/
def blockEnd (lines : List Line) (i stop : Nat) : Run Nat :=
  match Block.end? lines (i + 1) stop with
  | some e => pure e
  | none => Run.failWith .missingEnd

/-- Run a line that is complete in itself, or a branch of a conditional reached from above. -/
def runSingle (c : Calls) (lines : List Line) (i stop : Nat) (line : Line) : Run Cursor :=
  let count := line.statements.length
  match line.kind, line.statements with
  | .elseIf, s :: _ => do
    requireColon line s
    let e ← blockEnd lines i stop
    if ← condition c line s then
      return Cursor.after e (← (c.statements line 1 count).grouped)
    else return .line ((Block.else? lines (i + 1) e).getD e)
  | .otherwise, _ => do
    let e ← blockEnd lines i stop
    if 1 < count then return Cursor.after e (← (c.statements line 1 count).grouped)
    else
      let last := (Block.else? lines (i + 1) e).getD e
      return Cursor.after e (← (c.lines lines (i + 1) last false).grouped)
  | _, _ => do return Cursor.after (i + 1) (← c.statements line 0 count)

/-- Run a header and its block. -/
def runHeader (c : Calls) (lines : List Line) (i stop : Nat) (line : Line) : Run Cursor := do
  let e ← blockEnd lines i stop
  match line.kind, line.statements with
  | .ifThen, s :: _ | .elseIf, s :: _ =>
    let branch := Block.else? lines (i + 1) e
    if ← condition c line s then
      return Cursor.after e (← (c.lines lines (i + 1) (branch.getD e) false).grouped)
    else return .line (branch.getD e)
  | .act, s :: _ => do
    addAction c line s (Block.range lines (i + 1) e)
    return .line e
  | .loop, s :: _ => return Cursor.after e (← runLoop c line s (c.lines lines (i + 1) e false))
  | .forTo, s :: _ => return Cursor.after e (← runFor c line s (c.lines lines (i + 1) e false))
  | _, _ => runSingle c lines i stop line

/-- Run a line and the block it may open. -/
def runLine (c : Calls) (lines : List Line) (i stop : Nat) (line : Line) : Run Cursor :=
  if line.isMultiline then runHeader c lines i stop line else runSingle c lines i stop line

/-- The error that a label is nowhere to be found. -/
def missingLabel (label : String) : Error := ⟨.unknownLabel, some label⟩

/-- Run lines from `i` on, at most `n` of them. -/
def linesFrom (c : Calls) (lines : List Line) (start stop : Nat) (top : Bool) :
    Nat → Nat → Run Flow
  | 0, _ => fun _ => .outOfFuel
  | n + 1, i => fun m =>
    if stop ≤ i then .done .next m
    else
      match lines[i]? with
      | none => .done .next m
      | some line =>
        match (runLine c lines i stop line).marked { m with site.line := line.number } with
        | .failed e m => .failed e m
        | .outOfFuel => .outOfFuel
        | .done (.line next) m => linesFrom c lines start stop top n next m
        | .done (.leave (.jump label)) m =>
          match Block.label? lines start stop label with
          | some target => linesFrom c lines start stop top n target m
          | none =>
            if top then .failed (missingLabel label) (m.markError (missingLabel label))
            else .done (.jump label) m
        | .done (.leave flow) m => .done flow m

/-- Run the lines from `start` up to `stop`. -/
def runLines (c : Calls) (lines : List Line) (start stop : Nat) (top : Bool) : Run Flow :=
  linesFrom c lines start (min stop lines.length) top c.turns start

end Machine

/-! ## Tying the calls -/

/-- The calls with a given amount of fuel: nested calls have one less, and a loop may turn as often
as there is fuel. -/
def Calls.ofFuel : Nat → Calls
  | 0 =>
    { turns := 0
      eval := fun _ _ => .outOfFuel
      lines := fun _ _ _ _ _ => .outOfFuel
      statements := fun _ _ _ _ => .outOfFuel }
  | n + 1 =>
    { turns := n
      eval := fun source m => Machine.evalSource (ofFuel n) source m
      lines := fun lines start stop top m => Machine.runLines (ofFuel n) lines start stop top m
      statements := fun line start stop m => Machine.runStatements (ofFuel n) line start stop m }

end QuestScript
