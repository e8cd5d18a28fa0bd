import QuestScript.Value

/-!
# Operations

What an instruction of a compiled expression can do: put a value on the stack, jump, apply an
operator or call a function. Operators and functions have a priority, a range of argument counts and
the types their arguments are converted to.
-/

namespace QuestScript

/-! ## Argument types -/

/-- How an argument is converted before an operation or a statement sees it. Code is text. -/
inductive ArgType where
  | number
  | text
  | code
  | any
deriving DecidableEq, Repr

namespace ArgType

/-- Convert an argument. -/
def coerce (ty : ArgType) (v : Value) : Except Error Value :=
  match ty with
  | number => Value.number <$> v.toNumber
  | text | code => .ok (.text v.display)
  | any => .ok v

/-- The type of the `index`-th argument when the last one listed repeats. -/
def nth (types : List ArgType) (index : Nat) : ArgType :=
  (types[index]?.or types.getLast?).getD any

end ArgType

/-! ## Operations -/

/-- An operation of a compiled expression. -/
inductive Op where
  /-- Put the literal on the stack. -/
  | push
  /-- Put the literal text on the stack, its embedded expressions replaced by their values. -/
  | format
  /-- Read an item of the variable the literal names; an argument is the index. -/
  | var
  /-- Read the last item of the variable the literal names. -/
  | lastVar
  | tuple
  | jump (target : Nat)
  /-- Take a condition and jump when it is false. -/
  | jumpUnless (target : Nat)
  /-- Take the left side of `AND`; when it is false, put 0 and jump. -/
  | andJump (target : Nat)
  /-- Take the left side of `OR`; when it is true, put 1 and jump. -/
  | orJump (target : Nat)
  /-- Replace the value on top by 1 or 0. -/
  | truth
  /-- Convert the value on top. -/
  | cast (ty : ValueType)
  | neg
  | add
  | sub
  | mul
  | div
  | mod
  | append
  | eq
  | ne
  | lt
  | gt
  | le
  | ge
  | and
  | or
  | not
  | loc
  | obj
  | arrItem
  | min
  | max
  | rand
  | iif
  | rgb
  | len
  | isNum
  | lcase
  | ucase
  | input
  | str
  | val
  | arrSize
  | isPlay
  | desc
  | trim
  | getObj
  | mid
  | arrPos
  | arrComp
  | instr
  | replace
  | strComp
  | strFind
  | strPos
  /-- Call a location; a type picks that part of its result. -/
  | func (part : Option ValueType)
  /-- Run a text as code; a type picks that part of its result. -/
  | dynEval (part : Option ValueType)
  | rnd
  | countObj
  | msecsCount
  | version
  | userText
  | curLoc
  | selObj
  | selAct
  | mainText
  | statText
  | curActs
  | curObjs
deriving DecidableEq, Repr

/-- Most arguments an operation takes. -/
def maxArgs : Nat := 20

namespace Op

/-- The priority of brackets, tuples and the start of an expression, which no operator passes. -/
def barrier : Nat := 127

/-- What is known about an operation before it runs. -/
structure Info where
  priority : Nat
  minArgs : Nat
  maxArgs : Nat
  /-- Types of the arguments; the last one repeats. -/
  args : List ArgType
  /-- `none` when the type of the result depends on the arguments. -/
  result : Option ValueType
deriving DecidableEq, Repr

/-- The table of operations. -/
def info : Op → Info
  | push | format | lastVar => ⟨0, 0, 0, [], none⟩
  | var => ⟨30, 0, 1, [.any], none⟩
  | tuple => ⟨barrier, 0, QuestScript.maxArgs, [.any], some .tuple⟩
  | jump _ | jumpUnless _ | andJump _ | orJump _ => ⟨0, 0, 0, [], none⟩
  | truth => ⟨0, 1, 1, [.number], some .number⟩
  | cast ty => ⟨0, 1, 1, [.any], some ty⟩
  | neg => ⟨18, 1, 1, [.number], some .number⟩
  | mul | div => ⟨17, 2, 2, [.any], none⟩
  | mod => ⟨16, 2, 2, [.number], some .number⟩
  | add | sub => ⟨14, 2, 2, [.any], none⟩
  | append => ⟨12, 2, 2, [.any], none⟩
  | loc | obj => ⟨11, 1, 1, [.text], some .number⟩
  | eq | ne | lt | gt | le | ge => ⟨10, 2, 2, [.any], some .number⟩
  | not => ⟨8, 1, 1, [.number], some .number⟩
  | and => ⟨7, 2, 2, [.number], some .number⟩
  | or => ⟨6, 2, 2, [.number], some .number⟩
  | arrItem => ⟨30, 1, 2, [.text, .any], none⟩
  | min | max => ⟨30, 1, QuestScript.maxArgs, [.any], none⟩
  | rand => ⟨30, 1, 2, [.number], some .number⟩
  | iif => ⟨30, 3, 3, [.number, .any], none⟩
  | rgb => ⟨30, 3, 4, [.number], some .number⟩
  | len | isNum | val => ⟨30, 1, 1, [.any], some .number⟩
  | lcase | ucase | input | str | desc | trim => ⟨30, 1, 1, [.text], some .text⟩
  | arrSize | isPlay => ⟨30, 1, 1, [.text], some .number⟩
  | getObj => ⟨30, 1, 1, [.number], some .text⟩
  | mid => ⟨30, 2, 3, [.text, .number], some .text⟩
  | arrPos => ⟨30, 2, 3, [.text, .any, .number], some .number⟩
  | arrComp => ⟨30, 2, 3, [.text, .text, .number], some .number⟩
  | instr => ⟨30, 2, 3, [.any], some .number⟩
  | replace => ⟨30, 2, 3, [.text], some .text⟩
  | strComp => ⟨30, 2, 2, [.text], some .number⟩
  | strFind => ⟨30, 2, 3, [.text, .text, .number], some .text⟩
  | strPos => ⟨30, 2, 3, [.text, .text, .number], some .number⟩
  | func _ => ⟨30, 1, QuestScript.maxArgs, [.text, .any], none⟩
  | dynEval _ => ⟨30, 1, QuestScript.maxArgs, [.code, .any], none⟩
  | rnd | countObj | msecsCount => ⟨30, 0, 0, [], some .number⟩
  | version => ⟨30, 0, 1, [.text], some .text⟩
  | userText | curLoc | selObj | selAct | mainText | statText => ⟨30, 0, 0, [], some .text⟩
  | curActs | curObjs => ⟨30, 0, 0, [], some .text⟩

def priority (op : Op) : Nat := op.info.priority

/-- The type the `index`-th argument is converted to. -/
def argType (op : Op) (index : Nat) : ArgType := ArgType.nth op.info.args index

/-- Whether the operation has a name and takes its arguments in brackets. -/
def isFunction : Op → Bool
  | push | format | var | lastVar | tuple | jump _ | jumpUnless _ | andJump _ | orJump _ | truth
  | cast _ | neg | add | sub | mul | div | mod | append | eq | ne | lt | gt | le | ge | and
  | or => false
  | _ => true

/-- Whether the operation is a unary operator spelled as a word. -/
def isWordOperator : Op → Bool
  | not | loc | obj => true
  | _ => false

/-- Whether the operation may run scripts or ask the host, so that the location may have changed
when it returns. -/
def mayRefresh : Op → Bool
  | func _ | dynEval _ | input | desc => true
  | _ => false

/-! ## Names in listings -/

/-- A type as listings show it. -/
def typeTag : ValueType → String
  | .number => "Number"
  | .text => "String"
  | .tuple => "Tuple"

/-- An optional type as listings show it. -/
def partTag : Option ValueType → String
  | none => "None"
  | some ty => "Some(" ++ typeTag ty ++ ")"

/-- The operation as listings show it. -/
def tag : Op → String
  | push => "Push"
  | format => "Format"
  | var => "Var"
  | lastVar => "LastVar"
  | tuple => "Tuple"
  | jump n => "Jump(" ++ toString n ++ ")"
  | jumpUnless n => "JumpUnless(" ++ toString n ++ ")"
  | andJump n => "AndJump(" ++ toString n ++ ")"
  | orJump n => "OrJump(" ++ toString n ++ ")"
  | truth => "Truth"
  | cast ty => "Cast(" ++ typeTag ty ++ ")"
  | neg => "Neg"
  | add => "Add"
  | sub => "Sub"
  | mul => "Mul"
  | div => "Div"
  | mod => "Mod"
  | append => "Append"
  | eq => "Eq"
  | ne => "Ne"
  | lt => "Lt"
  | gt => "Gt"
  | le => "Le"
  | ge => "Ge"
  | and => "And"
  | or => "Or"
  | not => "Not"
  | loc => "Loc"
  | obj => "Obj"
  | arrItem => "ArrItem"
  | min => "Min"
  | max => "Max"
  | rand => "Rand"
  | iif => "Iif"
  | rgb => "Rgb"
  | len => "Len"
  | isNum => "IsNum"
  | lcase => "LCase"
  | ucase => "UCase"
  | input => "Input"
  | str => "Str"
  | val => "Val"
  | arrSize => "ArrSize"
  | isPlay => "IsPlay"
  | desc => "Desc"
  | trim => "Trim"
  | getObj => "GetObj"
  | mid => "Mid"
  | arrPos => "ArrPos"
  | arrComp => "ArrComp"
  | instr => "Instr"
  | replace => "Replace"
  | strComp => "StrComp"
  | strFind => "StrFind"
  | strPos => "StrPos"
  | func p => "Func(" ++ partTag p ++ ")"
  | dynEval p => "DynEval(" ++ partTag p ++ ")"
  | rnd => "Rnd"
  | countObj => "CountObj"
  | msecsCount => "MsecsCount"
  | version => "QspVer"
  | userText => "UserText"
  | curLoc => "CurLoc"
  | selObj => "SelObj"
  | selAct => "SelAct"
  | mainText => "MainText"
  | statText => "StatText"
  | curActs => "CurActs"
  | curObjs => "CurObjs"

end Op

end QuestScript
