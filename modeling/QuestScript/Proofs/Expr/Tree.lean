import QuestScript.Machine.Eval
import QuestScript.Proofs.Discipline

/-!
# Expression trees

What an expression means, apart from how it is compiled: a tree, its value, and its spellings as
tokens.

`Expr.eval` goes through the tree: operands from left to right, then the conversion of each, then
the operation. `AND`, `OR` and `IIF` evaluate only what they need. Nothing is said about
instructions, stacks or jumps.

`Spells` is the grammar. It has no levels for the priorities; a spelling carries two numbers
instead:

* its `head`, the priority of the operator it can be cut at from the left;
* its `tail`, the lowest priority of an operator whose last operand reaches to the end.

An operator takes a left operand whose tail is at least its priority and a right operand whose head
is above it. This is what the table of priorities and the order from left to right need, and
brackets may stand anywhere else.
-/

namespace QuestScript

/-- An expression. -/
inductive Expr where
  | number (n : Number)
  | text (s : String)
  | code (s : String)
  | var (name : String)
  | item (name : String) (index : Expr)
  | neg (e : Expr)
  | binary (op : Op) (l r : Expr)
  | call (f : Function) (args : List Expr)
  /-- The choice between two values, with the conversion its name asks for. -/
  | iif (cast : Option ValueType) (test yes no : Expr)
  | tuple (items : List Expr)

namespace Expr

/-! ## Values -/

/-- Convert the operands of an operation and run it. -/
def operate (c : Calls) (op : Op) (vs : List Value) : Run Value := do
  let args ← Run.ofExcept (Machine.coerceArgs op.argType 0 vs)
  Machine.applyOp c op args

/-- The truth of a value. -/
def truth (v : Value) : Run Bool := Run.ofExcept v.toTruth

/-- The conversion a name asks for. -/
def convert (v : Value) : Option ValueType → Run Value
  | none => pure v
  | some ty => Run.ofExcept (v.convert ty)

mutual

/-- The value of a tree. -/
def eval (c : Calls) : Expr → Run Value
  | number n => pure (.number n)
  | text s => .text <$> Machine.formatText c s
  | code s => pure (.text s)
  | var s => do
    let n ← Run.name s.toList
    Run.read (·.vars.get n (.number 0))
  | item s index => do
    let v ← eval c index
    let n ← Run.name s.toList
    Run.read (·.vars.get n v)
  | neg e => do
    let v ← eval c e
    operate c .neg [v]
  | binary .and l r => do
    if ← truth (← eval c l) then .ofBool <$> (eval c r >>= truth)
    else pure (.ofBool false)
  | binary .or l r => do
    if ← truth (← eval c l) then pure (.ofBool true)
    else .ofBool <$> (eval c r >>= truth)
  | binary op l r => do
    let x ← eval c l
    let y ← eval c r
    operate c op [x, y]
  | call f args => do
    let vs ← evalAll c args
    let v ← operate c f.op vs
    convert v f.cast
  | iif cast test yes no => do
    let v ← if ← truth (← eval c test) then eval c yes else eval c no
    convert v cast
  | tuple items => do
    let vs ← evalAll c items
    operate c .tuple vs

/-- The values of trees, the first one first. -/
def evalAll (c : Calls) : List Expr → Run (List Value)
  | [] => pure []
  | e :: es => do
    let v ← eval c e
    let vs ← evalAll c es
    return v :: vs

end

/-- A choice converts the value it has chosen. -/
theorem eval_iif (c : Calls) (cast : Option ValueType) (test yes no : Expr) :
    eval c (.iif cast test yes no)
      = (do if ← truth (← eval c test) then eval c yes else eval c no) >>= fun v => convert v cast := by
  rw [eval]
  simp only [bind_assoc]
  refine congrArg (eval c test >>= ·) (funext fun v => ?_)
  refine congrArg (truth v >>= ·) (funext fun b => ?_)
  cases b <;> rfl

end Expr

/-! ## Spellings -/

/-- The binary operator a token stands for. -/
def Token.operator? : Token → Option Op
  | plus => some .add
  | minus => some .sub
  | star => some .mul
  | slash => some .div
  | ampersand => some .append
  | equal => some .eq
  | notEqual => some .ne
  | less => some .lt
  | greater => some .gt
  | lessEqual => some .le
  | greaterEqual => some .ge
  | name s => Function.wordOperator? s
  | _ => none

/-- What tokens can spell. -/
inductive Phrase where
  /-- An expression with its head and its tail. -/
  | expr (e : Expr) (head tail : Nat)
  /-- Expressions with commas between them. -/
  | items (es : List Expr)
  /-- What fills a bracket or a text: an expression, or a tuple without brackets of its own. -/
  | whole (e : Expr)

open Op in
/-- The tokens that spell a phrase. -/
inductive Spells : Phrase → List (Token × Span) → Prop
  | number (n : Number) (sp : Span) : Spells (.expr (.number n) barrier barrier) [(.number n, sp)]
  | text (s : String) (sp : Span) : Spells (.expr (.text s) barrier barrier) [(.text s, sp)]
  | code (s : String) (sp : Span) : Spells (.expr (.code s) barrier barrier) [(.code s, sp)]
  | var {s : String} (sp : Span) :
      s.toList.head? ≠ some '@' → Function.find? s = none →
      Spells (.expr (.var s) barrier barrier) [(.name s, sp)]
  | item {s : String} {index : Expr} {t : List (Token × Span)} (sp sp₁ sp₂ : Span) :
      s.toList.head? ≠ some '@' → Function.find? s = none → Spells (.whole index) t →
      Spells (.expr (.item s index) barrier Op.var.priority)
        ((.name s, sp) :: (.openSquare, sp₁) :: (t ++ [(.closeSquare, sp₂)]))
  | neg {e : Expr} {head tail : Nat} {t : List (Token × Span)} (sp : Span) :
      Spells (.expr e head tail) t → Op.neg.priority < head →
      Spells (.expr (.neg e) barrier (min Op.neg.priority tail)) ((.minus, sp) :: t)
  /-- An operator spelled as a word, in front of its operand. -/
  | word {s : String} {f : Function} {e : Expr} {head tail : Nat} {t : List (Token × Span)}
      (sp : Span) :
      Function.find? s = some f → f.op.isWordOperator = true → Spells (.expr e head tail) t →
      f.op.priority < head →
      Spells (.expr (.call f [e]) barrier (min f.op.priority tail)) ((.name s, sp) :: t)
  | binary {l r : Expr} {op : Op} {token : Token} {head tail head' tail' : Nat}
      {t t' : List (Token × Span)} (sp : Span) :
      token.operator? = some op → Spells (.expr l head tail) t → op.priority ≤ tail →
      Spells (.expr r head' tail') t' → op.priority < head' →
      Spells (.expr (.binary op l r) op.priority (min op.priority tail')) (t ++ (token, sp) :: t')
  | call {s : String} {f : Function} {args : List Expr} {t : List (Token × Span)}
      (sp sp₁ sp₂ : Span) :
      Function.find? s = some f → f.op ≠ .iif → Spells (.items args) t →
      f.op.info.minArgs ≤ args.length → args.length ≤ f.op.info.maxArgs →
      Spells (.expr (.call f args) barrier f.op.priority)
        ((.name s, sp) :: (.openRound, sp₁) :: (t ++ [(.closeRound, sp₂)]))
  | iif {s : String} {f : Function} {test yes no : Expr} {t : List (Token × Span)}
      (sp sp₁ sp₂ : Span) :
      Function.find? s = some f → f.op = .iif → Spells (.items [test, yes, no]) t →
      Spells (.expr (.iif f.cast test yes no) barrier Op.iif.priority)
        ((.name s, sp) :: (.openRound, sp₁) :: (t ++ [(.closeRound, sp₂)]))
  | group {e : Expr} {t : List (Token × Span)} (sp sp₁ : Span) :
      Spells (.whole e) t →
      Spells (.expr e barrier barrier) ((.openRound, sp) :: (t ++ [(.closeRound, sp₁)]))
  | list {e : Expr} {es : List Expr} {t : List (Token × Span)} (sp sp₁ : Span) :
      Spells (.items (e :: es)) t →
      Spells (.expr (.tuple (e :: es)) barrier barrier)
        ((.openSquare, sp) :: (t ++ [(.closeSquare, sp₁)]))
  | none : Spells (.items []) []
  | one {e : Expr} {head tail : Nat} {t : List (Token × Span)} :
      Spells (.expr e head tail) t → Spells (.items [e]) t
  | more {e e' : Expr} {es : List Expr} {head tail : Nat} {t t' : List (Token × Span)} (sp : Span) :
      Spells (.expr e head tail) t → Spells (.items (e' :: es)) t' →
      Spells (.items (e :: e' :: es)) (t ++ (.comma, sp) :: t')
  | whole {e : Expr} {head tail : Nat} {t : List (Token × Span)} :
      Spells (.expr e head tail) t → Spells (.whole e) t
  | bare {es : List Expr} {t : List (Token × Span)} :
      Spells (.items es) t → 2 ≤ es.length → Spells (.whole (.tuple es)) t

/-! ## First tokens -/

/-- Whether a spelling can begin with the token. -/
def Token.begins : Token → Bool
  | number _ | text _ | code _ | name _ | minus | openRound | openSquare => true
  | _ => false

namespace Spells

theorem begins {ph : Phrase} {t : List (Token × Span)} (h : Spells ph t) (hph : ph ≠ .items []) :
    ∃ token sp t', t = (token, sp) :: t' ∧ token.begins = true := by
  induction h with
  | binary sp _ _ _ _ _ ih _ | more sp _ _ ih _ =>
    obtain ⟨token, sp', t', rfl, hb⟩ := ih nofun
    exact ⟨token, sp', _, rfl, hb⟩
  | none => exact absurd rfl hph
  | one _ ih | whole _ ih => exact ih nofun
  | @bare es t _ hlen ih =>
    refine ih ?_
    rintro ⟨⟩
    cases hlen
  | _ => exact ⟨_, _, _, rfl, rfl⟩

end Spells

end QuestScript
