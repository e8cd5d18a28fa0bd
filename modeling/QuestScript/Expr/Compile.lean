import QuestScript.Expr.Token
import QuestScript.Expr.Function
import QuestScript.Expr.Code

/-!
# Compiling expressions

One pass over the tokens alternates between places where a value is expected and places where an
operator is. Operators wait on a stack until one of lower or equal priority arrives; brackets, tuples
and the start of the expression are barriers that only their closing token removes.

`AND` and `OR` leave a jump behind their left side, the choice `IIF` one behind its condition and one
behind its first value; each jump gets its target when the instructions it skips are known.

## Termination

Every step uses up a token, and a name in value position may take along the bracket after it.
-/

namespace QuestScript

/-! ## What waits on the stack -/

/-- An operator or an open bracket. -/
inductive Pending.Kind where
  | start
  | openRound
  | openSquare
  | op (o : Op)
deriving DecidableEq, Repr

/-- An operator or bracket that waits, with the number of its operands read so far. -/
structure Pending where
  kind : Pending.Kind
  args : Nat := 0
  literal : Option Value := none
  /-- The jump that still needs its target. -/
  patch : Option Nat := none
  cast : Option ValueType := none
deriving DecidableEq, Repr

namespace Pending

def priority (p : Pending) : Nat :=
  match p.kind with
  | .op o => o.priority
  | _ => Op.barrier

/-- Whether a function waits for its arguments. -/
def Kind.isFunction : Kind → Bool
  | op o => o.isFunction
  | _ => false

end Pending

/-- The instructions emitted so far and what waits, innermost first. -/
structure Compiler where
  out : Code := #[]
  stack : List Pending := []

namespace Compiler

/-- An error without detail. -/
def fail {α : Type} (kind : ErrorKind) (span : Span) : Except SourceError α :=
  .error (.expression ⟨kind, none⟩ span)

/-- An error about a name. -/
def failAt {α : Type} (kind : ErrorKind) (name : String) (span : Span) : Except SourceError α :=
  .error (.expression ⟨kind, some name⟩ span)

/-! ## Emitting instructions -/

/-- Add an instruction. -/
def emit (out : Code) (i : Instruction) (span : Span) : Except SourceError Code :=
  if maxInstructions ≤ out.size then fail .tooManyItems span else .ok (out.push i)

/-- The same jump with another target; other operations stay as they are. -/
def retarget (target : Nat) : Op → Op
  | .jump _ => .jump target
  | .jumpUnless _ => .jumpUnless target
  | .andJump _ => .andJump target
  | .orJump _ => .orJump target
  | op => op

/-- Let an earlier jump lead to the next instruction. -/
def patch (out : Code) : Option Nat → Code
  | none => out
  | some index => out.modify index fun i => { i with op := retarget out.size i.op }

/-- Emit a waiting operator whose operands are complete. -/
def emitOp (out : Code) (p : Pending) (op : Op) (span : Span) : Except SourceError Code :=
  match op with
  | .and | .or => do
    let out ← emit out { op := .truth, argCount := 1 } span
    return patch out p.patch
  | .iif => .ok (patch out p.patch)
  | op => emit out { op, literal := p.literal, argCount := p.args } span

/-- Emit what waits on top of the stack, with the conversion its name asks for. -/
def emitPending (out : Code) (p : Pending) (span : Span) : Except SourceError Code :=
  match p.kind with
  | .op op => do
    let out ← emitOp out p op span
    match p.cast with
    | some ty => emit out { op := .cast ty, argCount := 1 } span
    | none => return out
  | _ => fail .badSyntax span

/-! ## The stack -/

/-- Put an operator or a bracket on the stack. -/
def push (c : Compiler) (p : Pending) (span : Span) : Except SourceError Compiler :=
  if maxPending ≤ c.stack.length then fail .stackOverflow span
  else .ok { c with stack := p :: c.stack }

/-- What waits on top. -/
def top (stack : List Pending) : Pending.Kind :=
  match stack with
  | p :: _ => p.kind
  | [] => .start

/-- Emit the operators on top that bind at least as tightly as the given priority. -/
def reduce (priority : Nat) (span : Span) : List Pending → Code → Except SourceError Compiler
  | [], out => .ok ⟨out, []⟩
  | p :: ps, out =>
    if p.priority == Op.barrier || p.priority < priority then .ok ⟨out, p :: ps⟩
    else do
      let out ← emitPending out p span
      reduce priority span ps out

/-- Emit the tuple on top, if there is one, with the item just read. -/
def closeTuple (c : Compiler) (span : Span) : Except SourceError Compiler :=
  match c.stack with
  | p :: ps =>
    if p.kind = .op .tuple then
      if maxArgs < p.args + 1 then fail .argumentCount span
      else do return ⟨← emit c.out { op := .tuple, argCount := p.args + 1 } span, ps⟩
    else .ok c
  | [] => .ok c

/-- An index has been read: count it for the variable on top. -/
def countIndex : List Pending → List Pending
  | p :: ps => if p.kind = .op .var then { p with args := p.args + 1 } :: ps else p :: ps
  | [] => []

/-! ## Operator position -/

/-- What stands where an operator is expected. -/
inductive Incoming where
  | binary (op : Op)
  | closeRound
  | closeSquare
  | comma

def Incoming.priority : Incoming → Nat
  | binary op => op.priority
  | _ => 0

/-- Whether a character may follow an operator spelled as a word. -/
def separates (c : Char) : Bool := Text.isBlank c || Text.isQuote c || c == '{' || c == '(' || c == '['

/-- A word operator needs a separator after it. -/
def checkSpacing (source : List Char) (span : Span) : Except SourceError Unit :=
  match Text.charAt? source span.stop with
  | some c => if separates c then .ok () else fail .badSyntax span
  | none => fail .badSyntax span

/-- The meaning of a token in operator position. -/
def incoming (source : List Char) (span : Span) : Token → Except SourceError Incoming
  | .closeRound => .ok .closeRound
  | .closeSquare => .ok .closeSquare
  | .comma => .ok .comma
  | .plus => .ok (.binary .add)
  | .minus => .ok (.binary .sub)
  | .star => .ok (.binary .mul)
  | .slash => .ok (.binary .div)
  | .ampersand => .ok (.binary .append)
  | .equal => .ok (.binary .eq)
  | .notEqual => .ok (.binary .ne)
  | .less => .ok (.binary .lt)
  | .greater => .ok (.binary .gt)
  | .lessEqual => .ok (.binary .le)
  | .greaterEqual => .ok (.binary .ge)
  | .name s =>
    match Function.wordOperator? s with
    | some op => do
      checkSpacing source span
      return .binary op
    | none => failAt .unknownAction s span
  | .colon => fail .unknownAction span
  | _ => fail .badSyntax span

/-- A closing round bracket: the last argument of a function, or the end of a group. -/
def closeRound (c : Compiler) (span : Span) : Except SourceError Compiler :=
  match c.stack with
  | p :: ps =>
    if p.kind ≠ .openRound then fail .missingBracket span
    else
      match ps with
      | f :: rest =>
        match f.kind with
        | .op op =>
          if op.isFunction then
            let args := f.args + 1
            if args < op.info.minArgs || op.info.maxArgs < args then fail .argumentCount span
            else .ok { c with stack := { f with args } :: rest }
          else .ok { c with stack := ps }
        | _ => .ok { c with stack := ps }
      | [] => .ok { c with stack := [] }
  | [] => fail .missingBracket span

/-- A closing square bracket: the end of an index or of a tuple. -/
def closeSquare (c : Compiler) (span : Span) : Except SourceError Compiler :=
  match c.stack with
  | p :: ps =>
    if p.kind ≠ .openSquare then fail .missingBracket span
    else .ok { c with stack := countIndex ps }
  | [] => fail .missingBracket span

/-- A comma between the arguments of the function `f`, whose bracket `bracket` is on top. -/
def functionComma (out : Code) (bracket f : Pending) (op : Op) (rest : List Pending) (span : Span) :
    Except SourceError Compiler :=
  let args := f.args + 1
  if op.info.maxArgs < args then fail .argumentCount span
  else if op = .iif then
    if args = 1 then do
      let out' ← emit out { op := .jumpUnless 0 } span
      return ⟨out', bracket :: { f with args, patch := some out.size } :: rest⟩
    else do
      let out' ← emit out { op := .jump 0 } span
      return ⟨patch out' f.patch, bracket :: { f with args, patch := some out.size } :: rest⟩
  else .ok ⟨out, bracket :: { f with args } :: rest⟩

/-- A comma between the items of a tuple, which the first comma opens. -/
def tupleComma (c : Compiler) (span : Span) : Except SourceError Compiler := do
  let c ← if top c.stack = .op .tuple then pure c else c.push { kind := .op .tuple } span
  match c.stack with
  | p :: ps =>
    if maxArgs < p.args + 1 then fail .argumentCount span
    else return { c with stack := { p with args := p.args + 1 } :: ps }
  | [] => return c

/-- A comma. -/
def comma (c : Compiler) (span : Span) : Except SourceError Compiler :=
  match c.stack with
  | bracket :: f :: rest =>
    match bracket.kind, f.kind with
    | .openRound, .op op =>
      if op.isFunction then functionComma c.out bracket f op rest span else tupleComma c span
    | _, _ => tupleComma c span
  | _ => tupleComma c span

/-- A binary operator; `AND` and `OR` leave a jump behind their left side. -/
def binary (c : Compiler) (op : Op) (span : Span) : Except SourceError Compiler :=
  let p : Pending := { kind := .op op, args := op.info.minArgs }
  match op with
  | .and => do
    let out ← emit c.out { op := .andJump 0 } span
    push { c with out } { p with patch := some c.out.size } span
  | .or => do
    let out ← emit c.out { op := .orJump 0 } span
    push { c with out } { p with patch := some c.out.size } span
  | _ => c.push p span

/-- Handle a token in operator position; the flag says that an operator is expected next. -/
def operatorStep (source : List Char) (token : Token) (span : Span) (c : Compiler) :
    Except SourceError (Bool × Compiler) := do
  let inc ← incoming source span token
  let c ← reduce inc.priority span c.stack c.out
  match inc with
  | .closeRound => return (true, ← closeRound (← closeTuple c span) span)
  | .closeSquare => return (true, ← closeSquare (← closeTuple c span) span)
  | .comma => return (false, ← comma c span)
  | .binary op => return (false, ← binary c op span)

/-- The end of the expression. -/
def finish (c : Compiler) (span : Span) : Except SourceError Code := do
  let c ← reduce 0 span c.stack c.out
  let c ← closeTuple c span
  if 1 < c.stack.length then fail .missingBracket span else return c.out

/-! ## Value position -/

/-- What a step in value position leaves: whether an operator is expected next, and how many further
tokens it has used. -/
structure Step where
  operatorNext : Bool
  skip : Nat := 0
  compiler : Compiler

/-- Emit an instruction that puts a value on the stack. -/
def value (c : Compiler) (i : Instruction) (span : Span) : Except SourceError Step := do
  return { operatorNext := true, compiler := { c with out := ← emit c.out i span } }

/-- Open an operator or a bracket and expect a value. -/
def opening (c : Compiler) (p : Pending) (span : Span) : Except SourceError Step := do
  return { operatorNext := false, compiler := ← c.push p span }

/-- A number; a minus sign right before it becomes part of it. -/
def numberValue (c : Compiler) (n : Number) (span : Span) : Except SourceError Step :=
  match c.stack with
  | p :: ps =>
    if p.kind = .op .neg then
      value { c with stack := ps } { op := .push, literal := some (.number (-n)) } span
    else value c { op := .push, literal := some (.number n) } span
  | [] => value c { op := .push, literal := some (.number n) } span

/-- The error for a missing value: a function lacks arguments, anything else is malformed. -/
def missingValue {α : Type} (c : Compiler) (span : Span) : Except SourceError α :=
  fail (if (top c.stack).isFunction then .argumentCount else .badSyntax) span

/-- A closing round bracket right after its opening one: a call without arguments or the empty
tuple. -/
def emptyRound (c : Compiler) (span : Span) : Except SourceError Step :=
  match c.stack with
  | p :: ps =>
    if p.kind ≠ .openRound then missingValue c span
    else
      match ps with
      | f :: _ =>
        match f.kind with
        | .op op =>
          if op.isFunction then
            if f.args < op.info.minArgs then fail .argumentCount span
            else .ok { operatorNext := true, compiler := { c with stack := ps } }
          else value { c with stack := ps } { op := .tuple } span
        | _ => value { c with stack := ps } { op := .tuple } span
      | [] => value { c with stack := [] } { op := .tuple } span
  | [] => missingValue c span

/-- A closing square bracket in value position: an empty tuple, or one after a trailing comma. -/
def emptySquare (c : Compiler) (span : Span) : Except SourceError Step :=
  match c.stack with
  | p :: ps =>
    if p.kind ≠ .op .tuple then fail .badSyntax span
    else do
      let out ← emit c.out { op := .tuple, argCount := p.args } span
      match ps with
      | b :: rest =>
        if b.kind ≠ .openSquare then fail .missingBracket span
        else return { operatorNext := true, compiler := ⟨out, countIndex rest⟩ }
      | [] => fail .missingBracket span
  | [] => fail .badSyntax span

/-- Open a call whose name has been read; a round bracket after the name is used up. -/
def call (c : Compiler) (f : Pending) (span : Span) : Except SourceError Step := do
  let c ← c.push f span
  let c ← c.push { kind := .openRound } span
  return { operatorNext := false, skip := 1, compiler := c }

/-- A call of a location by name, `@name`. -/
def locationCall (c : Compiler) (location : List Char) (next : Option Token) (span : Span) :
    Except SourceError Step :=
  if location.isEmpty then fail .badSyntax span
  else do
    let out ← emit c.out { op := .push, literal := some (.text (String.ofList location)) } span
    let f : Pending := { kind := .op (.func none), args := 1 }
    if next = some .openRound then call { c with out } f span
    else return { operatorNext := true, compiler := ← push { c with out } f span }

/-- A function name. Without a bracket after it, a function takes no argument or the next value. -/
def functionCall (c : Compiler) (source : List Char) (s : String) (f : Function)
    (next : Option Token) (span : Span) : Except SourceError Step := do
  if f.op.isWordOperator then checkSpacing source span
  let p : Pending := { kind := .op f.op, cast := f.cast }
  if next = some .openRound then call c p span
  else
    match f.op.info.minArgs with
    | 0 => return { operatorNext := true, compiler := ← c.push p span }
    | 1 => opening c { p with args := 1 } span
    | _ => failAt .missingBrackets s span

/-- A variable: as it is, with an index, or with empty brackets for its last item. -/
def variableRead (c : Compiler) (s : String) (next after : Option Token) (span : Span) :
    Except SourceError Step :=
  let literal := some (.text s)
  if next = some .openSquare then
    if after = some .closeSquare then do
      let step ← value c { op := .lastVar, literal } span
      return { step with skip := 2 }
    else do
      let c ← c.push { kind := .op .var, literal } span
      let c ← c.push { kind := .openSquare } span
      return { operatorNext := false, skip := 1, compiler := c }
  else value c { op := .var, literal } span

/-- A name in value position, with the two tokens after it. -/
def nameValue (c : Compiler) (source : List Char) (s : String) (next after : Option Token)
    (span : Span) : Except SourceError Step :=
  match s.toList with
  | '@' :: location => locationCall c location next span
  | _ =>
    match Function.find? s with
    | some f => functionCall c source s f next span
    | none => variableRead c s next after span

/-- Handle a token in value position. -/
def valueStep (source : List Char) (token : Token) (span : Span) (next after : Option Token)
    (c : Compiler) : Except SourceError Step :=
  match token with
  | .number n => numberValue c n span
  | .text s =>
    value c { op := if s.isEmpty then .push else .format, literal := some (.text s) } span
  | .code s => value c { op := .push, literal := some (.text s) } span
  | .minus => opening c { kind := .op .neg, args := 1 } span
  | .plus => .ok { operatorNext := false, compiler := c }
  | .openRound => opening c { kind := .openRound } span
  | .closeRound => emptyRound c span
  | .openSquare => do
    let c ← c.push { kind := .openSquare } span
    opening c { kind := .op .tuple } span
  | .closeSquare => emptySquare c span
  | .name s => nameValue c source s next after span
  | _ => fail .badSyntax span

/-! ## The whole expression -/

/-- Compile the tokens; the flag says that an operator is expected first. -/
def run (source : List Char) (operatorNext : Bool) (c : Compiler) (tokens : List (Token × Span)) :
    Except SourceError Code :=
  match tokens with
  | [] =>
    let stop := Text.byteSize source
    if operatorNext then finish c ⟨stop, stop⟩ else missingValue c ⟨stop, stop⟩
  | (token, span) :: rest =>
    if operatorNext then do
      let (next, c) ← operatorStep source token span c
      run source next c rest
    else do
      let step ← valueStep source token span (rest[0]?.map (·.1)) (rest[1]?.map (·.1)) c
      run source step.operatorNext step.compiler (rest.drop step.skip)
termination_by tokens.length
decreasing_by
  · simp only [List.length_cons]
    omega
  · simp only [List.length_cons, List.length_drop]
    omega

end Compiler

/-- Compile an expression. -/
def compile (source : List Char) : Except SourceError Code := do
  let tokens ← Token.tokenize source
  Compiler.run source false { stack := [{ kind := .start }] } tokens

end QuestScript
