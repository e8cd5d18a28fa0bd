import QuestScript.Expr.Op
import QuestScript.Text.Part
import QuestScript.Value.Arithmetic

/-!
# Operations on values

The operations whose result depends on nothing but their arguments. The arguments have been
converted to the types the operation takes; one that is missing counts as zero or as the empty text.
-/

namespace QuestScript

/-! ## Arguments -/

/-- The argument at an index. -/
def argAt (args : List Value) (index : Nat) : Value := args[index]?.getD (.number 0)

/-- The argument at an index as a number. -/
def numberAt (args : List Value) (index : Nat) : Number := (args[index]?.bind Value.number?).getD 0

/-- The argument at an index as a number, if it is given. -/
def numberAt? (args : List Value) (index : Nat) : Option Number :=
  args[index]?.map fun _ => numberAt args index

/-- The argument at an index, which is a text. -/
def textAt (args : List Value) (index : Nat) : String :=
  match args[index]? with
  | some (.text s) => s
  | _ => ""

/-! ## Operations -/

namespace Op

/-- Whether a comparison holds of an order. -/
def holdsOf (op : Op) (order : Ordering) : Bool :=
  match op with
  | eq => order == .eq
  | ne => order != .eq
  | lt => order == .lt
  | gt => order == .gt
  | le => order != .gt
  | _ => order != .lt

/-- A number between 0 and 255. -/
def channel (n : Number) : Number := if n < 0 then 0 else if 255 < n then 255 else n

/-- A colour in one number, from red in the lowest eight bits to opacity in the highest. -/
def colour (red green blue alpha : Number) : Number :=
  channel alpha * 16777216 + channel blue * 65536 + channel green * 256 + channel red

/-- Number of items of a tuple, or of characters of the text of another value. -/
def length : Value → Number
  | .tuple items => Number.ofCount items.length
  | v => Number.ofCount v.display.length

/-- The position of a text in another one. The start comes last; it may come first if it is a number
and the last argument is none. -/
def instrOf (args : List Value) : Except Error Number :=
  let find (text needle : Value) (start : Number) : Number :=
    Text.find text.display.toList needle.display.toList start
  match args with
  | [.number start, text, .text needle] => .ok (find text (.text needle) start)
  | [.number start, text, .tuple needle] => .ok (find text (.tuple needle) start)
  | [text, needle, start] => do return find text needle (← start.toNumber)
  | _ => .ok (find (argAt args 0) (argAt args 1) 1)

/-- The version of the engine, or the name of its platform. -/
def versionOf (query : String) : String :=
  if query.toLower == "platform" then "rust" else "0.1.0"

/-- The result of an operation that depends on its arguments alone; `none` for all others. -/
def compute? (op : Op) (args : List Value) : Option (Except Error Value) :=
  let number (n : Number) : Option (Except Error Value) := some (.ok (.number n))
  let text (s : String) : Option (Except Error Value) := some (.ok (.text s))
  let chars (cs : List Char) : Option (Except Error Value) := text (String.ofList cs)
  let bool (b : Bool) : Option (Except Error Value) := some (.ok (.ofBool b))
  let a := argAt args 0
  let b := argAt args 1
  let s := textAt args 0
  match op with
  | tuple => some (.ok (.tuple args))
  | neg => number (-numberAt args 0)
  | add => some (Arithmetic.add.apply a b)
  | sub => some (Arithmetic.sub.apply a b)
  | mul => some (Arithmetic.mul.apply a b)
  | div => some (Arithmetic.div.apply a b)
  | mod => some (.number <$> Value.remainder (numberAt args 0) (numberAt args 1))
  | append => some (.ok (a.append b))
  | eq | ne | lt | gt | le | ge => bool (op.holdsOf (a.compare b))
  | and => bool (numberAt args 0 != 0 && numberAt args 1 != 0)
  | or => bool (numberAt args 0 != 0 || numberAt args 1 != 0)
  | not => bool (numberAt args 0 == 0)
  | iif => some (a.toTruth.map fun yes => if yes then b else argAt args 2)
  | rgb =>
    let alpha := (numberAt? args 3).getD 255
    number (colour (numberAt args 0) (numberAt args 1) (numberAt args 2) alpha)
  | len => number (args.head?.elim 0 length)
  | isNum => bool (args.head?.any Value.isNumeric)
  | val => number (numberAt args 0)
  | str => text s
  | lcase => text (Text.lowercased s)
  | ucase => text (Text.uppercased s)
  | trim => chars (Text.trim s.toList)
  | mid => chars (Text.mid s.toList (numberAt args 1) (numberAt? args 2))
  | instr => some (.number <$> instrOf args)
  | replace => chars (Text.replace s.toList (textAt args 1).toList (textAt args 2).toList)
  | version => text (versionOf s)
  | _ => none

end Op

end QuestScript
