import QuestScript.Value
import QuestScript.Text.Scan
import QuestScript.Text.Quoted

/-!
# Names of variables

A name may start with `$` or `%`, which selects the text or the tuple part of the variable; without a
sign the number part is meant. The rest, in upper case, is the key under which all three parts are
kept.
-/

namespace QuestScript

/-- A parsed name: the key of the variable and the part that is meant. -/
structure VarName where
  key : String
  type : ValueType
deriving DecidableEq, Repr

namespace VarName

/-- Whether a text without its sign is a name: it has no delimiter and does not start with a digit. -/
def isValid : List Char → Bool
  | [] => false
  | c :: cs => !Number.isDigit c && !(c :: cs).any Text.isDelimiter

/-- A name without the sign of its type. -/
def bare (type : ValueType) (cs : List Char) : List Char :=
  match type with
  | .number => cs
  | _ => cs.drop 1

/-- Read a name; blanks around it do not matter. -/
def read (cs : List Char) : Except Error VarName :=
  let trimmed := Text.trim cs
  let type := ValueType.ofName trimmed
  let name := bare type trimmed
  if isValid name then .ok ⟨String.ofList (Text.upper name), type⟩
  else .error ⟨.badName, some (Text.quoted (String.ofList cs))⟩

end VarName

end QuestScript
