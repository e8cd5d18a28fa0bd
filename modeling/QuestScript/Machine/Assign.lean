import QuestScript.Machine.Eval

/-!
# Assignments

An assignment has one or more targets, each a name or a name with an index, and one value. Several
targets share a tuple: each takes an item, the last one all that remain, and those for which nothing
is left are emptied. Any other value goes to all of them.
-/

namespace QuestScript

/-! ## Targets -/

namespace Target

/-- The targets of a list, which are separated by commas. -/
def split (cs : List Char) : Except Error (List (List Char)) :=
  match _h : Text.cutAtDelimiter? cs ',' with
  | none =>
    let name := Text.trim cs
    if name.isEmpty then .error ⟨.badSyntax, none⟩ else .ok [name]
  | some (before, after) =>
    let name := Text.trim before
    if name.isEmpty then .error ⟨.badSyntax, none⟩
    else (split after).map (name :: ·)
termination_by cs.length
decreasing_by exact Text.cutAtDelimiter?_length_lt _h

/-- A target without its index. -/
def base (target : List Char) : List Char := Text.trim (target.takeWhile (· != '['))

/-- What an index says: nothing, so that the value is appended; an expression; or an expression that
is the only item of a tuple. -/
inductive Index where
  | append
  | value (source : List Char)
  | single (source : List Char)
deriving DecidableEq, Repr

/-- The index between two brackets. A comma at its end makes a tuple of it, which matters only if
there is no other comma. -/
def Index.read (cs : List Char) : Index :=
  let index := Text.trim cs
  if index.isEmpty then .append
  else if index.getLast? == some ',' then
    let items := index.dropLast
    if (Text.delimiterPos? items ',').isSome then .value items else .single items
  else .value index

/-- The name and the index of a target; a target without brackets has the index zero. -/
def read (target : List Char) : Except Error (VarName × Option Index) :=
  match target.span (· != '[') with
  | (_, []) => do return (← VarName.read target, none)
  | (name, rest) => do
    let name ← VarName.read name
    match Text.delimiterPos? rest ']' with
    | none => throw ⟨.missingBracket, none⟩
    | some close =>
      match Text.splitBytes rest close with
      | some (inner, _) => return (name, some (Index.read inner.tail))
      | none => throw ⟨.missingBracket, none⟩

end Target

namespace Machine

/-- The value of an index; `none` appends. -/
def indexValue (c : Calls) : Option Target.Index → Run (Option Value)
  | none => pure (some (.number 0))
  | some .append => pure none
  | some (.value source) => do return some (← c.eval source)
  | some (.single source) => do return some (.tuple [← c.eval source])

/-- Assign to one target. -/
def assignTarget (c : Calls) (target : List Char) (op : AssignOp) (v : Value) : Run Unit := do
  let (name, index) ← Run.ofExcept (Target.read target)
  match ← indexValue c index with
  | some index => Run.onVars (·.assignIndex name index op v)
  | none => Run.onVars fun vars => vars.assign name (some (vars.size name.key)) op v

/-! ## Several targets -/

/-- Assign a value to each target. -/
def assignEach (c : Calls) (op : AssignOp) (v : Value) : List (List Char) → Run Unit
  | [] => pure ()
  | target :: rest => do
    assignTarget c target op v
    assignEach c op v rest

/-- The item for a target, or the empty value of its type. -/
def itemFor (target : List Char) : Option Value → Run Value
  | some v => pure v
  | none => do return Value.empty (← Run.name (Target.base target)).type

/-- What the last target takes of the remaining items. -/
def remainder : List Value → Option Value
  | [] => none
  | [v] => some v
  | vs => some (.tuple vs)

/-- Spread items over targets. -/
def assignItems (c : Calls) (op : AssignOp) : List Value → List (List Char) → Run Unit
  | _, [] => pure ()
  | items, [target] => do assignTarget c target op (← itemFor target (remainder items))
  | items, target :: rest => do
    assignTarget c target op (← itemFor target items.head?)
    assignItems c op items.tail rest

/-- Assign a value to targets. -/
def assignAll (c : Calls) (targets : List (List Char)) (op : AssignOp) (v : Value) : Run Unit :=
  match targets, v with
  | [], _ => Run.failWith .badSyntax
  | [target], v => assignTarget c target op v
  | targets, .tuple items => assignItems c op items targets
  | targets, v => assignEach c op v targets

/-! ## Statements -/

/-- The error found when a statement was scanned, if there is one. -/
def checkScanned (s : Statement) : Run Unit :=
  match s.error with
  | some kind => Run.failWith kind
  | none => pure ()

/-- An assignment: targets, a sign and a value. -/
def assign (c : Calls) (line : Line) (s : Statement) : Run Unit := do
  checkScanned s
  if s.args.length < 3 then Run.failWith .missingEquals
  else
    match AssignOp.ofSymbol? (String.ofList (line.arg s 1)) with
    | none => Run.failWith .badSyntax
    | some op => do
      let v ← c.eval (line.arg s 2)
      let targets ← Run.ofExcept (Target.split (line.arg s 0))
      assignAll c targets op v

/-- Save the variables of targets. -/
def localizeAll : List (List Char) → Run Unit
  | [] => pure ()
  | target :: rest => do
    let name ← Run.name (Target.base target)
    Run.localize name.key
    localizeAll rest

/-- The targets of a declaration and the value they get, if there is one. -/
def declared (c : Calls) (line : Line) (s : Statement) : Run (List (List Char) × Option Value) := do
  checkScanned s
  if s.args.length ≤ 1 then
    let targets ← Run.ofExcept (Target.split (line.arg s 0))
    return (targets, none)
  else if line.arg s 1 != ['='] then Run.failWith .badSyntax
  else
    let v ← c.eval (line.arg s 2)
    let targets ← Run.ofExcept (Target.split (line.arg s 0))
    return (targets, some v)

/-- A declaration of local variables, with a value or without. -/
def declare (c : Calls) (line : Line) (s : Statement) : Run Unit := do
  let (targets, v) ← declared c line s
  localizeAll targets
  match v with
  | some v => assignAll c targets .set v
  | none => pure ()

end Machine

end QuestScript
