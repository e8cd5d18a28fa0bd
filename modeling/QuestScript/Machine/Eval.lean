import QuestScript.Expr.Builtin
import QuestScript.Machine
import QuestScript.Text.Distance
import QuestScript.Text.Template

/-!
# Evaluation

A compiled expression runs on a stack of values. Its jumps only lead forward, so the instructions
are taken once from first to last and those that a jump leaps over are passed by.

Calls of locations and of code are made here too, because an expression can call both: a call opens
a group of bindings, gives the callee its arguments in `ARGS` and takes its result from `RESULT`.
-/

namespace QuestScript

namespace Machine

/-! ## Texts with expressions -/

/-- Put the values of its expressions into a text, from left to right. -/
def fill (c : Calls) : List Text.Part → Run String
  | [] => pure ""
  | .plain text :: rest => do
    let tail ← fill c rest
    return String.ofList text ++ tail
  | .code source :: rest => do
    let v ← c.eval source
    let tail ← fill c rest
    return v.display ++ tail
  | .unclosed :: _ => Run.failWith .missingBracket

/-- A text with every expression between `<<` and `>>` replaced by its value. -/
def formatText (c : Calls) (text : String) : Run String := fill c (Text.parts text.toList)

/-! ## Calls -/

/-- The error that there is no such location, with the name that was perhaps meant. -/
def missingLocation (w : World) (name : String) : Error :=
  ⟨.unknownLocation, some (name ++ Text.suggestion (Text.similarName? name w.names 3))⟩

/-- The location with a name, or the error that there is none. -/
def findLocation (name : String) : Run Location := fun m =>
  match m.world.find? name with
  | some l => .done l m
  | none => .failed (missingLocation m.world name) m

/-- Store arguments one after the other. -/
def putArgs : Nat → List Value → Run Unit
  | _, [] => pure ()
  | i, v :: vs => do
    Run.onVars (·.putRaw "ARGS" i v)
    putArgs (i + 1) vs

/-- Give a callee its arguments and a fresh result. -/
def bindArgs (args : List Value) : Run Unit := do
  Run.localize "ARGS"
  Run.localize "RESULT"
  putArgs 0 args

/-- A call: in a frame of its own, with its arguments bound, to the first item of `RESULT`. -/
def calling (args : List Value) (body : Run Unit) : Run (Option Slot) :=
  Run.nested (Run.grouped do
    bindArgs args
    body
    Run.read (·.vars.slot? "RESULT" 0))

/-- Run all lines of some code; `EXIT` ends it like its end does. -/
def runBody (c : Calls) (lines : List Line) : Run Unit := do
  let _ ← c.lines lines 0 lines.length true

/-- Show the actions of a location. -/
def showActions (c : Calls) (location : String) : List LocationAction → Run Unit
  | [] => pure ()
  | a :: rest => do
    let description ← (formatText c a.description).marked
    (Run.addAction ⟨description, a.image, a.code, some location⟩).marked
    showActions c location rest

/-- Show the description and the actions of a location. -/
def introduce (c : Calls) (l : Location) (replace : Bool) : Run Unit := do
  let text ← (formatText c l.description).marked
  Run.onScreen fun s => if replace then s.setMain text else s.appendMain text
  showActions c l.name l.actions

/-- Show a location: its description, its actions, and then what its code does. -/
def showLocation (c : Calls) (l : Location) (replace : Bool) : Run Unit := do
  introduce c l replace
  runBody c l.code

/-- Show the location with a name at its own site. -/
def runLocation (c : Calls) (name : String) (replace : Bool) : Run Unit := do
  let l ← findLocation name
  Run.atSite { location := some l.name } (showLocation c l replace)

/-- Call a location. -/
def callLocation (c : Calls) (name : String) (args : List Value) (replace : Bool) :
    Run (Option Slot) :=
  calling args (runLocation c name replace)

/-- Call a piece of code. -/
def callCode (c : Calls) (code : String) (args : List Value) : Run (Option Slot) :=
  calling args (runBody c (Line.ofSource code.toList))

/-- The formatted description of a location. -/
def describe (c : Calls) (name : String) : Run String := do
  let l ← findLocation name
  formatText c l.description

/-- The result of a call, read as a type or else as the part that counts. -/
def resultValue : Option Slot → Option ValueType → Value
  | some slot, some ty => slot.get ty
  | some slot, none => slot.preferred
  | none, some ty => Value.empty ty
  | none, none => .number 0

/-! ## Operations -/

/-- The result of an operation that reads the machine; `none` for all others. -/
def inspect? (op : Op) (args : List Value) (m : Machine) : Option (Except Error Value) :=
  let text (s : String) : Option (Except Error Value) := some (.ok (.text s))
  let bool (b : Bool) : Option (Except Error Value) := some (.ok (.ofBool b))
  let named (s : String) (f : VarName → Except Error Value) : Option (Except Error Value) :=
    some (VarName.read s.toList >>= f)
  let s := textAt args 0
  match op with
  | .loc => bool (m.world.contains s)
  | .obj => bool (m.screen.objectIndex? s).isSome
  | .arrItem => named s fun n => .ok (m.vars.get n (argAt args 1))
  | .min | .max =>
    let least := op == .min
    match args with
    | [v] => named v.display fun n => .ok (m.vars.extreme n least)
    | _ => some (.ok (Value.extreme least args))
  | .arrSize => named s fun n => .ok (.number (Number.ofCount (m.vars.size n.key)))
  | .arrPos =>
    named s fun n => .number <$> m.vars.positionOf n (argAt args 1) (numberAt args 2)
  | .userText => text (m.host.userText.getD m.screen.userInput)
  | .countObj => some (.ok (.number (Number.ofCount m.screen.objects.length)))
  | .getObj =>
    let object := (numberAt args 0 - 1).position?.bind fun i => m.screen.objects[i]?
    text ((object.map (·.name)).getD "")
  | .curLoc => text (m.screen.currentLocation.getD "")
  | .selObj =>
    let object := m.screen.selectedObject.bind fun i => m.screen.objects[i]?
    text ((object.map (·.name)).getD "")
  | .selAct =>
    let action := m.screen.selectedAction.bind fun i => m.screen.actions[i]?
    text ((action.map (·.description)).getD "")
  | .mainText => text m.screen.mainText
  | .statText => text m.screen.statText
  | .curActs => text m.screen.actionsAsCode
  | .curObjs => text m.screen.objectsAsCode
  | _ => none

/-- Run an operation that changes the machine or calls something. -/
def perform (c : Calls) (op : Op) (args : List Value) : Run Value :=
  let s := textAt args 0
  let group := (numberAt args 2).count
  match op with
  | .rand => .number <$> Run.random (numberAt args 0) ((numberAt? args 1).getD 1)
  | .rnd => .number <$> Run.random 1 1000
  | .arrComp => do
    let n ← Run.name s.toList
    let p ← Run.pattern (textAt args 1)
    Run.read fun m => .number (m.vars.positionMatching n.key p.covers (numberAt args 2))
  | .strComp => do
    let p ← Run.pattern (textAt args 1)
    return .ofBool (p.covers s)
  | .strFind => do
    let p ← Run.pattern (textAt args 1)
    return .text ((p.find? s group).getD "")
  | .strPos => do
    let p ← Run.pattern (textAt args 1)
    return .number (p.position s group)
  | .func part => do
    let slot ← callLocation c s args.tail false
    return resultValue slot part
  | .dynEval part => do
    let slot ← callCode c s args.tail
    return resultValue slot part
  | .desc => .text <$> describe c s
  | .input => fun m =>
    let (answer, host) := m.host.input s
    .done (.text answer) { m with host }
  | .isPlay => fun m =>
    let (answer, host) := m.host.isPlaying s
    .done (.ofBool answer) { m with host }
  | .msecsCount => .number <$> Run.msecs
  | _ => Run.failWith .badSyntax

/-- Run an operation on converted arguments. -/
def applyOp (c : Calls) (op : Op) (args : List Value) : Run Value :=
  match op.compute? args with
  | some r => Run.ofExcept r
  | none => fun m =>
    match inspect? op args m with
    | some r => Run.ofExcept r m
    | none => perform c op args m

/-! ## Instructions -/

/-- Convert arguments to the types of an operation, the first one first; `index` is the place of the
first of them. -/
def coerceArgs (type : Nat → ArgType) (index : Nat) : List Value → Except Error (List Value)
  | [] => .ok []
  | v :: vs => do
    let v ← (type index).coerce v
    let vs ← coerceArgs type (index + 1) vs
    return v :: vs

/-- The error that a value is missing. -/
def underflow : Error := ⟨.badSyntax, none⟩

/-- The name an instruction carries. -/
def literalName (i : Instruction) : List Char := (i.literal.elim "" Value.display).toList

/-- A stack after an instruction, and where to go on if not at the next one. -/
abbrev Stepped := List Value × Option Nat

/-- Run an operation on the values on top of the stack. -/
def stepOp (c : Calls) (stamp : Nat) (i : Instruction) (stack : List Value) : Run (List Value) := do
  if stack.length < i.argCount then Run.fail underflow
  else
    let args ← Run.ofExcept (coerceArgs i.op.argType 0 (stack.take i.argCount).reverse)
    let v ← applyOp c i.op args
    if i.op.mayRefresh then Run.checkMoves stamp
    return v :: stack.drop i.argCount

/-- Run one instruction; `stamp` counts the changes of location before the expression. -/
def step (c : Calls) (stamp : Nat) (i : Instruction) (stack : List Value) : Run Stepped :=
  match i.op, stack with
  | .push, _ => pure (i.literal.getD (.number 0) :: stack, none)
  | .format, _ => do
    let text ←
      formatText c (match i.literal with
        | some (.text s) => s
        | _ => "")
    Run.checkMoves stamp
    return (.text text :: stack, none)
  | .var, _ =>
    match i.argCount, stack with
    | 0, _ => do
      let n ← Run.name (literalName i)
      let v ← Run.read (·.vars.get n (.number 0))
      return (v :: stack, none)
    | _ + 1, [] => Run.fail underflow
    | _ + 1, index :: stack => do
      let n ← Run.name (literalName i)
      let v ← Run.read (·.vars.get n index)
      return (v :: stack, none)
  | .lastVar, _ => do
    let n ← Run.name (literalName i)
    let v ← Run.read (·.vars.getLast n)
    return (v :: stack, none)
  | .jump target, _ => pure (stack, some target)
  | .jumpUnless target, v :: stack => do
    let yes ← Run.ofExcept v.toTruth
    return (stack, if yes then none else some target)
  | .andJump target, v :: stack => do
    let yes ← Run.ofExcept v.toTruth
    return if yes then (stack, none) else (.ofBool false :: stack, some target)
  | .orJump target, v :: stack => do
    let yes ← Run.ofExcept v.toTruth
    return if yes then (.ofBool true :: stack, some target) else (stack, none)
  | .truth, v :: stack => do
    let yes ← Run.ofExcept v.toTruth
    return (.ofBool yes :: stack, none)
  | .cast ty, v :: stack => do
    let w ← Run.ofExcept (v.convert ty)
    return (w :: stack, none)
  | .jumpUnless _, [] | .andJump _, [] | .orJump _, [] | .truth, [] | .cast _, [] =>
    Run.fail underflow
  | _, _ => do
    let stack ← stepOp c stamp i stack
    return (stack, none)

/-- Run instructions, the first of which is number `pc`; those before number `resume` are passed by.
The value on top of the stack at the end is the result. -/
def runCode (c : Calls) (stamp : Nat) (pc resume : Nat) (stack : List Value) :
    List Instruction → Run Value
  | [] =>
    match stack with
    | v :: _ => pure v
    | [] => Run.fail underflow
  | i :: rest =>
    if pc < resume then runCode c stamp (pc + 1) resume stack rest
    else do
      let (stack, target) ← step c stamp i stack
      runCode c stamp (pc + 1) (target.getD 0) stack rest

/-- Run a compiled expression. -/
def evaluate (c : Calls) (code : Code) : Run Value := fun m =>
  runCode c m.moves 0 0 [] code.toList m

/-- Compile and run an expression. -/
def evalSource (c : Calls) (source : List Char) : Run Value := do
  let code ← Run.compiled source
  evaluate c code

end Machine

end QuestScript
