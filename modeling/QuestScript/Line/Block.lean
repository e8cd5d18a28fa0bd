import QuestScript.Line

/-!
# Blocks

A block opens with a header whose code is on the following lines and closes with `END`. Blocks nest,
so the search for the `END` or the `ELSE` of a block counts the headers and the `END`s it passes.
-/

namespace QuestScript.Block

/-- What a line means to the search: it opens a block, it is an `END`, an `ELSE` or an `ELSEIF`, or
none of these. -/
inductive Role where
  | opening
  | closing
  | branch
  | plain
deriving DecidableEq, Repr

def role (l : Line) : Role :=
  if l.isMultiline && l.kind.opensBlock then .opening
  else
    match l.kind with
    | .endBlock => .closing
    | .otherwise | .elseIf => .branch
    | _ => .plain

/-- Index of the `END` that closes the innermost of `depth + 1` open blocks, counted from `index`. -/
def endFrom? (depth index : Nat) : List Line → Option Nat
  | [] => none
  | l :: ls =>
    match role l with
    | .opening => endFrom? (depth + 1) (index + 1) ls
    | .closing =>
      match depth with
      | 0 => some index
      | depth + 1 => endFrom? depth (index + 1) ls
    | _ => endFrom? depth (index + 1) ls

/-- Index of the next `ELSE` or `ELSEIF` of the outermost of `depth + 1` open blocks. -/
def elseFrom? (depth index : Nat) : List Line → Option Nat
  | [] => none
  | l :: ls =>
    match role l with
    | .opening => elseFrom? (depth + 1) (index + 1) ls
    | .branch => if depth == 0 then some index else elseFrom? depth (index + 1) ls
    | .closing =>
      match depth with
      | 0 => none
      | depth + 1 => elseFrom? depth (index + 1) ls
    | .plain => elseFrom? depth (index + 1) ls

/-- The lines from `start` up to, not including, `stop`. -/
def range (lines : List Line) (start stop : Nat) : List Line := (lines.take stop).drop start

/-- Index of the `END` of the block whose first line is `start`, before `stop`. -/
def end? (lines : List Line) (start stop : Nat) : Option Nat :=
  endFrom? 0 start (range lines start stop)

/-- Index of the next `ELSE` or `ELSEIF` of the block whose first line is `start`, before `stop`. -/
def else? (lines : List Line) (start stop : Nat) : Option Nat :=
  elseFrom? 0 start (range lines start stop)

/-- Index of the first line from `start` up to `stop` that carries a label. -/
def label? (lines : List Line) (start stop : Nat) (label : String) : Option Nat :=
  ((range lines start stop).findIdx? fun l => l.label == some label).map (· + start)

/-- Index of the `ELSE` of the inline `IF` that the statements follow, counted from `index`; every
`IF` on the way has an `ELSE` of its own first. -/
def inlineElse? (depth index : Nat) : List Statement → Option Nat
  | [] => none
  | s :: ss =>
    match s.kind with
    | .ifThen => inlineElse? (depth + 1) (index + 1) ss
    | .otherwise =>
      match depth with
      | 0 => some index
      | depth + 1 => inlineElse? depth (index + 1) ss
    | _ => inlineElse? depth (index + 1) ss

end QuestScript.Block
