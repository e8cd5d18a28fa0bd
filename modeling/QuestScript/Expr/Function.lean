import QuestScript.Expr.Op

/-!
# Function names

Functions are looked up by name in upper case. A function whose result is a text also goes by its
name with `$` in front. One whose result depends on its arguments goes by its name with `$` or `%`
too: the calls of locations and of code then pick that part of the result, all others convert it.
Operators spelled as words take no such sign.
-/

namespace QuestScript

/-- A function name: what it calls, and what the result is converted to. -/
structure Function where
  name : String
  op : Op
  cast : Option ValueType := none
deriving DecidableEq, Repr

namespace Function

/-- The names without a sign. -/
def base : List (String × Op) :=
  [("ARRCOMP", .arrComp), ("ARRITEM", .arrItem), ("ARRPOS", .arrPos), ("ARRSIZE", .arrSize),
    ("COUNTOBJ", .countObj), ("CURACTS", .curActs), ("CURLOC", .curLoc), ("CUROBJS", .curObjs),
    ("DESC", .desc), ("DYNEVAL", .dynEval none), ("FUNC", .func none), ("GETOBJ", .getObj),
    ("IIF", .iif), ("INPUT", .input), ("INSTR", .instr), ("ISNUM", .isNum), ("ISPLAY", .isPlay),
    ("LCASE", .lcase), ("LEN", .len), ("LOC", .loc), ("MAINTXT", .mainText), ("MAX", .max),
    ("MID", .mid), ("MIN", .min), ("MSECSCOUNT", .msecsCount), ("NO", .not), ("OBJ", .obj),
    ("QSPVER", .version), ("RAND", .rand), ("REPLACE", .replace), ("RGB", .rgb), ("RND", .rnd),
    ("SELACT", .selAct), ("SELOBJ", .selObj), ("STATTXT", .statText), ("STR", .str),
    ("STRCOMP", .strComp), ("STRFIND", .strFind), ("STRPOS", .strPos), ("TRIM", .trim),
    ("UCASE", .ucase), ("USER_TEXT", .userText), ("USRTXT", .userText), ("VAL", .val)]

/-- What a name with the sign of a type in front calls. -/
def signed (name : String) (op : Op) (ty : ValueType) : Function :=
  match op with
  | .func _ => { name, op := .func (some ty) }
  | .dynEval _ => { name, op := .dynEval (some ty) }
  | op => { name, op, cast := some ty }

/-- All names of one function. -/
def spellings (name : String) (op : Op) : List Function :=
  { name, op } ::
    if op.isWordOperator then []
    else
      match op.info.result with
      | some .text => [{ name := "$" ++ name, op }]
      | some _ => []
      | none => [signed ("$" ++ name) op .text, signed ("%" ++ name) op .tuple]

/-- All function names. -/
def table : List Function := base.flatMap fun (name, op) => spellings name op

/-- The function a name in any case calls. -/
def find? (name : String) : Option Function :=
  let upper := Text.uppercased name
  table.find? fun f => f.name == upper

/-- The binary operators spelled as words. -/
def wordOperator? (name : String) : Option Op :=
  match Text.uppercased name with
  | "AND" => some .and
  | "OR" => some .or
  | "MOD" => some .mod
  | _ => none

end Function

end QuestScript
