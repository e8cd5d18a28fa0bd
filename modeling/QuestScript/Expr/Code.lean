import QuestScript.Expr.Op

/-!
# Compiled expressions

An expression becomes a flat list of instructions for a stack machine, operands before their
operator. `AND`, `OR` and the choice between two values become jumps.
-/

namespace QuestScript

/-- An instruction: an operation, the literal it works on and the number of values it takes. -/
structure Instruction where
  op : Op
  literal : Option Value := none
  argCount : Nat := 0
deriving DecidableEq, Repr

/-- A compiled expression. -/
abbrev Code := Array Instruction

/-- Most instructions of an expression. -/
def maxInstructions : Nat := 200

/-- Most operators and brackets that may be open at once while an expression is read. -/
def maxPending : Nat := 30

namespace Instruction

/-- A line of a listing. -/
def line (index : Nat) (i : Instruction) : String :=
  let args := if i.argCount > 0 then "/" ++ toString i.argCount else ""
  let literal :=
    match i.literal with
    | some (.text s) => " " ++ Text.singleQuoted s
    | some v => " " ++ v.display
    | none => ""
  Text.padLeft 3 (toString index) ++ ": " ++ i.op.tag ++ args ++ literal ++ "\n"

end Instruction

/-- The instructions, one a line, each with its index. -/
def Code.listing (code : Code) : String :=
  String.join (code.toList.zipIdx.map fun (i, n) => i.line n)

end QuestScript
