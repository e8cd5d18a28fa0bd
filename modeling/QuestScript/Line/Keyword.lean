import QuestScript.Bisection
import QuestScript.Expr.Op
import QuestScript.Text.Scan

/-!
# Statements by keyword

A statement starts with a keyword, which ends at a delimiter or at the end of the text. Keywords
stand in three tables that are tried in order. Within a table no keyword is the beginning of another
one, so a search by halving finds at most one; a keyword stands in an earlier table than the keywords
it begins with, so the longest one wins. A text that starts with no keyword is an assignment or a
value to show.
-/

namespace QuestScript

/-- The kinds of statements. -/
inductive StatementKind where
  | unknown
  | label
  | comment
  /-- A bare expression: its value is shown. -/
  | implicit
  | assign
  | declare
  | ifThen
  | elseIf
  | otherwise
  | endBlock
  | act
  | loop
  | forTo
  | exit
  | jump
  | gosub
  | goto
  | xgoto
  | dynamic
  | statPrint
  | statLine
  | statNewLine
  | mainPrint
  | mainLine
  | mainNewLine
  | clearStat
  | clearMain
  | clearScreen
  | clearInput
  | clearActions
  | deleteAction
  | addObject
  | deleteObject
  | killObject
  | unselect
  | killVariable
  | killAll
  | copyArray
  | setTimer
  | wait
  | showActions
  | showObjects
  | showStat
  | showInput
  | refresh
  | view
  | message
  | menu
  | play
  | close
  | closeAll
  | openGame
  | saveGame
  | openQuest
  | includeLibrary
  | freeLibrary
  | exec
deriving DecidableEq, Repr

namespace StatementKind

/-! ## Keywords -/

/-- The tables of keywords, each in ascending order. -/
def tables : List (List (String × StatementKind)) :=
  [[("PLAY", play)],
    [("*PL", mainLine), ("CLOSE ALL", closeAll), ("ELSEIF", elseIf), ("PL", statLine),
      ("SETTIMER", setTimer), ("UNSELECT", unselect)],
    [("*CLEAR", clearMain), ("*CLR", clearMain), ("*NL", mainNewLine), ("*P", mainPrint),
      ("ACT", act), ("ADD OBJ", addObject), ("ADDOBJ", addObject), ("CLA", clearActions),
      ("CLEAR", clearStat), ("CLOSE", close), ("CLR", clearStat), ("CLS", clearScreen),
      ("CMDCLEAR", clearInput), ("CMDCLR", clearInput), ("COPYARR", copyArray),
      ("DEL ACT", deleteAction), ("DEL OBJ", deleteObject), ("DELACT", deleteAction),
      ("DELOBJ", deleteObject), ("DYNAMIC", dynamic), ("ELSE", otherwise), ("END", endBlock),
      ("EXEC", exec), ("EXIT", exit), ("FOR", forTo), ("FREELIB", freeLibrary), ("GOSUB", gosub),
      ("GOTO", goto), ("GS", gosub), ("GT", goto), ("IF", ifThen), ("INCLIB", includeLibrary),
      ("JUMP", jump), ("KILLALL", killAll), ("KILLOBJ", killObject), ("KILLVAR", killVariable),
      ("LET", assign), ("LOCAL", declare), ("LOOP", loop), ("MENU", menu), ("MSG", message),
      ("NL", statNewLine), ("OPENGAME", openGame), ("OPENQST", openQuest), ("P", statPrint),
      ("REFINT", refresh), ("SAVEGAME", saveGame), ("SET", assign), ("SHOWACTS", showActions),
      ("SHOWINPUT", showInput), ("SHOWOBJS", showObjects), ("SHOWSTAT", showStat),
      ("UNSEL", unselect), ("VIEW", view), ("WAIT", wait), ("XGOTO", xgoto), ("XGT", xgoto)]]

/-- All keywords; a keyword stands before every keyword it begins with. -/
def keywords : List (String × StatementKind) := tables.flatten

/-- How a keyword compares with the beginning of a text, as long as the keyword or all of it. -/
def compareStart (cs : List Char) (keyword : String × StatementKind) : Ordering :=
  compare keyword.1.toList (cs.take keyword.1.length)

/-- The keyword of a table that a text starts with, if it ends there. -/
def find? (cs : List Char) (table : List (String × StatementKind)) : Option (String × StatementKind) :=
  (Bisection.find? (compareStart cs) table).filter fun keyword =>
    Text.atBoundary (cs.drop keyword.1.length)

/-- Whether a text starts with a keyword that ends there. -/
def startsWith (keyword : String) (cs : List Char) : Bool :=
  keyword.toList.isPrefixOf cs && Text.atBoundary (cs.drop keyword.length)

/-- The kind of the statement at the start of a text in upper case and the length of its keyword. A
label and a comment are told by their first character and have no keyword. -/
def ofText : List Char → StatementKind × Option Nat
  | [] => (unknown, none)
  | ':' :: _ => (label, none)
  | '!' :: _ => (comment, none)
  | cs =>
    match tables.findSome? (find? cs) with
    | some (keyword, kind) => (kind, some keyword.length)
    | none => (unknown, none)

/-! ## Arguments -/

/-- Least and greatest number of arguments. -/
def arity : StatementKind → Nat × Nat
  | implicit | ifThen | elseIf => (1, 1)
  | act => (1, 2)
  | addObject => (1, 3)
  | copyArray => (2, 4)
  | deleteAction | deleteObject | exec | includeLibrary | jump | message | openQuest | statPrint
  | mainPrint => (1, 1)
  | dynamic | gosub | goto | xgoto => (1, 20)
  | killObject => (0, 1)
  | killVariable => (0, 2)
  | menu => (1, 3)
  | statLine | statNewLine | mainLine | mainNewLine => (0, 1)
  | openGame | saveGame | view | close => (0, 1)
  | play => (1, 2)
  | setTimer | wait | showActions | showObjects | showStat | showInput => (1, 1)
  | _ => (0, 0)

/-- Types of the arguments; the last one repeats. -/
def argTypes : StatementKind → List ArgType
  | implicit => [.any]
  | ifThen | elseIf | killObject => [.number]
  | act => [.text, .text]
  | addObject => [.text, .text, .number]
  | copyArray => [.text, .text, .number, .number]
  | dynamic | gosub | goto | xgoto | killVariable => [.text, .any]
  | menu => [.text, .number, .number]
  | play => [.text, .number]
  | setTimer | wait | showActions | showObjects | showStat | showInput => [.number]
  | _ => [.text]

/-- The type the `index`-th argument is converted to. -/
def argType (kind : StatementKind) (index : Nat) : ArgType := ArgType.nth kind.argTypes index

/-! ## Blocks -/

/-- Whether the header of the statement ends at a colon. -/
def endsAtColon : StatementKind → Bool
  | ifThen | elseIf | act | loop | forTo => true
  | _ => false

/-- Whether the statement opens a block that `END` closes when its code is on the next lines. -/
def opensBlock : StatementKind → Bool
  | ifThen | act | loop | forTo => true
  | _ => false

/-! ## Names in listings -/

/-- The kind as listings show it. -/
def tag : StatementKind → String
  | unknown => "Unknown"
  | label => "Label"
  | comment => "Comment"
  | implicit => "Implicit"
  | assign => "Set"
  | declare => "Local"
  | ifThen => "If"
  | elseIf => "ElseIf"
  | otherwise => "Else"
  | endBlock => "End"
  | act => "Act"
  | loop => "Loop"
  | forTo => "For"
  | exit => "Exit"
  | jump => "Jump"
  | gosub => "GoSub"
  | goto => "GoTo"
  | xgoto => "XGoTo"
  | dynamic => "Dynamic"
  | statPrint => "P"
  | statLine => "Pl"
  | statNewLine => "Nl"
  | mainPrint => "MP"
  | mainLine => "MPl"
  | mainNewLine => "MNl"
  | clearStat => "Clear"
  | clearMain => "MClear"
  | clearScreen => "Cls"
  | clearInput => "CmdClear"
  | clearActions => "Cla"
  | deleteAction => "DelAct"
  | addObject => "AddObj"
  | deleteObject => "DelObj"
  | killObject => "KillObj"
  | unselect => "Unselect"
  | killVariable => "KillVar"
  | killAll => "KillAll"
  | copyArray => "CopyArr"
  | setTimer => "SetTimer"
  | wait => "Wait"
  | showActions => "ShowActs"
  | showObjects => "ShowObjs"
  | showStat => "ShowStat"
  | showInput => "ShowInput"
  | refresh => "RefInt"
  | view => "View"
  | message => "Msg"
  | menu => "Menu"
  | play => "Play"
  | close => "Close"
  | closeAll => "CloseAll"
  | openGame => "OpenGame"
  | saveGame => "SaveGame"
  | openQuest => "OpenQst"
  | includeLibrary => "IncLib"
  | freeLibrary => "FreeLib"
  | exec => "Exec"

end StatementKind

end QuestScript
