import QuestScript.Pattern.Node

/-!
# Programs for matching

A pattern becomes a program whose steps either look at one character or say where to go on. Offsets
are relative to the step they stand in, so the program of a part does not depend on where it is put
and a repetition is a concatenation of copies.

A fork prefers its first way; greed is the order of the two. A repetition whose body may match
nothing is written as "the body at least once, or nothing": the shorter form would try the ways out
in the wrong order.
-/

namespace QuestScript.Pattern

/-- A step of a program. -/
inductive Step where
  | char (s : CharSet)
  | look (l : Look)
  | save (slot : Nat)
  | jump (offset : Int)
  | fork (first second : Int)
  | accept
deriving DecidableEq, Repr

namespace Step

/-- A fork between going on into a body and leaving it. -/
def branch (greedy : Bool) (into out : Int) : Step :=
  if greedy then fork into out else fork out into

end Step

/-! ## Code of repetitions -/

/-- The body any number of times. -/
def star (greedy nullable : Bool) (body : List Step) : List Step :=
  let n : Int := body.length
  if nullable then
    Step.branch greedy 1 (n + 2) :: body ++ [Step.branch greedy (-n) 1]
  else Step.branch greedy 1 (n + 2) :: body ++ [Step.jump (-(n + 1))]

/-- The body up to `n` times; every way out leads past all of them. -/
def optional (greedy : Bool) (body : List Step) : Nat → List Step
  | 0 => []
  | n + 1 =>
    let rest := body ++ optional greedy body n
    Step.branch greedy 1 (rest.length + 1) :: rest

/-- The body exactly `n` times. -/
def copies (body : List Step) (n : Nat) : List Step := (List.replicate n body).flatten

/-- The code of a repetition. -/
def loopCode (least : Nat) (most : Option Nat) (greedy nullable : Bool) (body : List Step) :
    List Step :=
  match most with
  | some most => copies body least ++ optional greedy body (most - least)
  | none =>
    if least == 0 then star greedy nullable body
    else copies body least ++ [Step.branch greedy (-(body.length : Int)) 1]

/-! ## Code of nodes -/

namespace Node

/-- The code of a node. -/
def code : Node → List Step
  | empty => []
  | set s => [.char s]
  | look l => [.look l]
  | loop least most greedy body => loopCode least most greedy body.isNullable body.code
  | capture index body => .save (2 * index) :: body.code ++ [.save (2 * index + 1)]
  | seq a b => a.code ++ b.code
  | either a b =>
    let first := a.code
    let second := b.code
    .fork 1 (first.length + 2) :: first ++ .jump (second.length + 1) :: second

/-- Room for a single step, in bytes. -/
def stepSize : Nat := 32

end Node

/-- Room for the steps that recognize a set, in bytes, by the kind of set. -/
def setSize : CharSet → Nat
  | .empty => Node.stepSize
  | .range _ last => Node.stepSize * last.utf8Size
  | .property .word | .property .alphabetic | .property (.mainCategory _) => 48000
  | .property (.category ⟨'N', 'd'⟩) => 8000
  | .property .whiteSpace => 1000
  | .property .any => 500
  | .property _ => 24000
  | .union a b | .inter a b => setSize a + setSize b
  | .compl a => 500 + setSize a
  | .folded a => 2 * setSize a

/-- Room for the program of a node, in bytes. -/
def Node.size : Node → Nat
  | empty => stepSize
  | set s => setSize s
  | look _ => stepSize
  | loop least most _ body =>
    match most with
    | some most => max least most * (body.size + stepSize)
    | none => max least 1 * body.size + 2 * stepSize
  | capture _ body => body.size + 2 * stepSize
  | seq a b => a.size + b.size
  | either a b => a.size + b.size + stepSize

/-! ## Programs -/

/-- The steps of a program; the whole match is saved as group zero. -/
abbrev Program := Array Step

/-- The program of a node, unless it is too big. -/
def Program.ofNode (node : Node) : Except PatternError Program :=
  if PatternError.sizeLimit < node.size then .error .tooBig
  else .ok ((Node.capture 0 node).code ++ [Step.accept]).toArray

end QuestScript.Pattern
