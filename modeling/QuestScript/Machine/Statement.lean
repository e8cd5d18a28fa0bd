import QuestScript.Machine.Assign

/-!
# Statements

What a statement does once its arguments are evaluated. Some of them run code: `GOSUB` and `DYNAMIC`
call it, `GOTO` replaces the current location, and changes to the list of objects call the locations
that a script has named as hooks in an array of texts.
-/

namespace QuestScript

namespace Machine

/-! ## Arguments -/

/-- The text of the argument at an index. -/
def textArg (args : List Value) (index : Nat) : String := args[index]?.elim "" Value.display

/-- The text of the argument at an index, unless it is missing or empty. -/
def textArg? (args : List Value) (index : Nat) : Option String :=
  (args[index]?.map Value.display).filter (!·.isEmpty)

/-- The number of the argument at an index. -/
def numberArg? (args : List Value) (index : Nat) : Option Number := args[index]?.bind Value.number?

/-- The position in a list of the item with a number counted from one. -/
def ordinal? (n : Number) : Option Nat := if 1 ≤ n then some (n.toInt.toNat - 1) else none

/-! ## Hooks and changes of location -/

/-- Call the locations named by `count` items of a variable from `i` on. -/
def callHooks (c : Calls) (key : String) (args : List Value) (stamp i : Nat) : Nat → Run Unit
  | 0 => pure ()
  | count + 1 => do
    let target ← Run.read fun m => (m.vars.slot? key i).elim "" (·.text)
    if target.isEmpty then callHooks c key args stamp (i + 1) count
    else
      let _ ← callLocation c target args false
      Run.checkMoves stamp
      callHooks c key args stamp (i + 1) count

/-- Call every location named in an array of texts; a change of location ends it. -/
def runHooks (c : Calls) (key : String) (args : List Value) : Run Unit := fun m =>
  callHooks c key args m.moves 0 (m.vars.size key) m

/-- What a change of location does before the new one is shown: all bindings are put back, the
actions go, and the second panel unless it is to be kept. -/
def leave (target : String) (m : Machine) : Machine :=
  let (saves, vars) := m.saves.restoreAll m.vars
  let screen := m.screen.clearActions
  let screen := if m.config.keepStatText then screen else screen.clearStat
  { m with
    saves, vars, moves := m.moves + 1
    screen := { screen with currentLocation := some target } }

/-- Make a location the current one. -/
def goTo (c : Calls) (name : String) (args : List Value) (replace : Bool) : Run Unit := do
  let l ← findLocation name
  Run.modify (leave l.name)
  let _ ← callLocation c l.name args replace
  runHooks c "ONNEWLOC" args

/-! ## Objects -/

/-- Add an object and call the hooks; a position past the end adds nothing. -/
def addObject (c : Calls) (args : List Value) (position : Option Nat) : Run Unit := fun m =>
  match m.screen.addObject ⟨textArg args 0, textArg? args 1⟩ position with
  | .error e => .failed e m
  | .ok none => .done () m
  | .ok (some screen) => runHooks c "ONOBJADD" (args.take 2) { m with screen }

/-- Remove the object at an index and call the hooks. -/
def removeObject (c : Calls) (index : Nat) : Run Unit := fun m =>
  match m.screen.removeObject index with
  | (some o, screen) => runHooks c "ONOBJDEL" [.text o.name] { m with screen }
  | (none, screen) => .done () { m with screen }

/-- Call the hooks for objects that have been removed. -/
def afterRemoval (c : Calls) (stamp : Nat) : List Object → Run Unit
  | [] => pure ()
  | o :: rest => do
    runHooks c "ONOBJDEL" [.text o.name]
    Run.checkMoves stamp
    afterRemoval c stamp rest

/-- Remove all objects and call the hooks for each. -/
def removeObjects (c : Calls) : Run Unit := fun m =>
  let (objects, screen) := m.screen.takeObjects
  afterRemoval c m.moves objects { m with screen }

/-! ## Variables -/

/-- Remove all variables, one of them, or an item of one. -/
def killVariable : List Value → Run Unit
  | [] => Run.modify fun m => { m with vars := m.vars.clear }
  | v :: rest => do
    let name ← Run.name v.display.toList
    match rest.head? with
    | none => Run.modify fun m => { m with vars := m.vars.removeVar name.key }
    | some index => Run.modify fun m =>
        match m.vars.position? name.key index with
        | some position => { m with vars := m.vars.removeItem name.key position }
        | none => m

/-- Replace a variable by a part of another one. -/
def copyArray (args : List Value) : Run Unit := do
  let dest ← Run.name (textArg args 0).toList
  let src ← Run.name (textArg args 1).toList
  let start := (numberArg? args 2).getD 0
  Run.onVars (·.copyArray dest.key src.key start (numberArg? args 3))

/-! ## Menus -/

/-- Most items of a menu. -/
def maxMenuItems : Nat := 100

/-- An item of a menu: its caption, the location it calls and its image. -/
structure MenuItem where
  caption : String
  location : String
  image : Option String
deriving DecidableEq, Repr

/-- The text before and after the last colon. -/
def cutAtLastColon? (cs : List Char) : Option (List Char × List Char) :=
  match cs.reverse.span (· != ':') with
  | (after, _ :: before) => some (before.reverse, after.reverse)
  | (_, []) => none

/-- Read an item: a caption and a location, and perhaps an image, with colons between them. -/
def MenuItem.read (text : String) : Except Error MenuItem :=
  match cutAtLastColon? text.toList with
  | none => .error ⟨.missingColon, none⟩
  | some (head, tail) =>
    match cutAtLastColon? head with
    | some (caption, location) =>
      .ok ⟨String.ofList caption, String.ofList location,
        (some (String.ofList tail)).filter (!·.isEmpty)⟩
    | none => .ok ⟨String.ofList head, String.ofList tail, none⟩

/-- Give the host the items of a menu, after `count` others, up to the first empty one. -/
def showItems (count : Nat) : List Slot → Run (List String)
  | [] => pure []
  | slot :: rest =>
    if slot.text.isEmpty then pure []
    else if maxMenuItems ≤ count then Run.failWith .menuFull
    else do
      let item ← Run.ofExcept (MenuItem.read slot.text)
      Run.callHost (.addMenuItem item.caption item.image)
      let locations ← showItems (count + 1) rest
      return item.location :: locations

/-- Ask the host for a choice. -/
def askMenu : Run (Option Nat) := fun m =>
  let (choice, host) := m.host.menu
  .done choice { m with host }

/-- Show a menu and call the location of the chosen item with its number. -/
def showMenu (c : Calls) (args : List Value) : Run Unit := do
  let name ← Run.name (textArg args 0).toList
  let start := ((numberArg? args 1).getD 0).count
  let limit := ((numberArg? args 2).map Number.count).getD maxMenuItems
  let slots ← Run.read fun m => ((m.vars.var name.key).values.toList.drop start).take limit
  let locations ← showItems 0 slots
  if locations.isEmpty then pure ()
  else
    match ← askMenu with
    | none => pure ()
    | some choice =>
      match locations[choice]? with
      | none => pure ()
      | some location => do
        let _ ← callLocation c location [.number (Number.ofCount (choice + 1))] false

/-! ## All statements -/

/-- A number that is not negative. -/
def clampLow (n : Number) : Number := if n < 0 then 0 else n

/-- A volume between 0 and 100. -/
def clampVolume (n : Number) : Number := if n < 0 then 0 else if 100 < n then 100 else n

/-- Show or hide a window. -/
def showWindow (w : Window) (args : List Value) : Run Unit :=
  Run.callHost (.showWindow w ((numberArg? args 0).getD 0 != 0))

/-- Clear the line of input. -/
def clearInput : Run Unit := do
  Run.onScreen fun s => { s with userInput := "" }
  Run.callHost (.setInputText "")

/-- Run a statement that leaves control with the next one. -/
def act (c : Calls) (kind : StatementKind) (args : List Value) : Run Unit :=
  let text := textArg args 0
  match kind with
  | .implicit | .mainLine => Run.onScreen fun s => (s.appendMain text).appendMain "\n"
  | .statPrint => Run.onScreen (·.appendStat text)
  | .statLine => Run.onScreen fun s => (s.appendStat text).appendStat "\n"
  | .statNewLine => Run.onScreen fun s => (s.appendStat "\n").appendStat text
  | .mainPrint => Run.onScreen (·.appendMain text)
  | .mainNewLine => Run.onScreen fun s => (s.appendMain "\n").appendMain text
  | .clearStat => Run.onScreen Screen.clearStat
  | .clearMain => Run.onScreen Screen.clearMain
  | .clearScreen => do
    Run.onScreen fun s => s.clearStat.clearMain.clearActions
    clearInput
  | .clearInput => clearInput
  | .clearActions => Run.onScreen Screen.clearActions
  | .deleteAction => Run.onScreen (·.removeAction text)
  | .addObject =>
    match numberArg? args 2 with
    | none => addObject c args none
    | some n =>
      match ordinal? n with
      | some position => addObject c args (some position)
      | none => pure ()
  | .deleteObject => fun m =>
    match m.screen.objectIndex? text with
    | some index => removeObject c index m
    | none => .done () m
  | .killObject =>
    match numberArg? args 0 with
    | none => removeObjects c
    | some n =>
      match ordinal? n with
      | some index => removeObject c index
      | none => pure ()
  | .unselect => Run.onScreen fun s => { s with selectedObject := none }
  | .killVariable => killVariable args
  | .killAll => do
    Run.modify fun m => { m with vars := m.vars.clear }
    removeObjects c
  | .copyArray => copyArray args
  | .setTimer => Run.callHost (.setTimer (clampLow ((numberArg? args 0).getD 0)))
  | .wait => do
    Run.callHost (.refresh true)
    Run.callHost (.sleep (clampLow ((numberArg? args 0).getD 0)))
  | .showActions => showWindow .actions args
  | .showObjects => showWindow .objects args
  | .showStat => showWindow .stat args
  | .showInput => showWindow .input args
  | .refresh => Run.callHost (.refresh true)
  | .view => Run.callHost (.showPicture text)
  | .message => Run.callHost (.message text)
  | .menu => showMenu c args
  | .play => Run.callHost (.play text (clampVolume ((numberArg? args 1).getD 100)))
  | .close => Run.callHost (.closeFile (textArg? args 0))
  | .closeAll => Run.callHost (.closeFile none)
  | .openGame => Run.callHost (.openGame (textArg? args 0))
  | .saveGame => Run.callHost (.saveGame (textArg? args 0))
  | .openQuest => Run.callHost (.openQuest text false)
  | .includeLibrary => Run.callHost (.openQuest text true)
  | .freeLibrary => pure ()
  | .exec => Run.callHost (.exec text)
  | .gosub => do
    let _ ← callLocation c text args.tail false
  | .goto => do
    goTo c text args.tail true
    Run.failWith .locationChanged
  | .xgoto => do
    goTo c text args.tail false
    Run.failWith .locationChanged
  | .dynamic => do
    let _ ← callCode c text args.tail
  | _ => Run.failWith .badSyntax

/-- Run a statement with evaluated arguments. -/
def runStatement (c : Calls) (kind : StatementKind) (args : List Value) : Run Flow :=
  match kind with
  | .exit => pure .exit
  | .jump =>
    pure (.jump (String.ofList (Text.upper (Text.trim (textArg args 0).toList))))
  | kind => do
    act c kind args
    return .next

/-- The evaluated and converted arguments of a statement, from the `index`-th on. -/
def evalArgs (c : Calls) (line : Line) (kind : StatementKind) (index : Nat) :
    List Span → Run (List Value)
  | [] => pure []
  | span :: rest => do
    let v ← c.eval (line.slice span)
    let v ← Run.ofExcept ((kind.argType index).coerce v)
    let vs ← evalArgs c line kind (index + 1) rest
    return v :: vs

/-- The evaluated arguments of a statement. -/
def statementArgs (c : Calls) (line : Line) (s : Statement) : Run (List Value) := do
  checkScanned s
  evalArgs c line s.kind 0 s.args

end Machine

end QuestScript
