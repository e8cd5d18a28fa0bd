import Std.Data.TreeMap
import QuestScript.Variable
import QuestScript.Variable.Name
import QuestScript.Value.Arithmetic

/-!
# The store of variables

All variables are global and live in one store, by key. The number of variables and the number of
items of a variable are limited. A variable that holds nothing may stay in the store until the room
is needed: then all of these go.

An index is a number, which is a position, or any other value, whose key leads to a position. A
write with an unknown key appends an item; a write to a negative position is ignored.

Operations that can fail give the error together with the store they leave.
-/

namespace QuestScript

/-- The signs of an assignment. -/
inductive AssignOp where
  | set
  | add
  | sub
  | mul
  | div
deriving DecidableEq, Repr

namespace AssignOp

/-- The sign as written. -/
def symbol : AssignOp → String
  | set => "="
  | add => "+="
  | sub => "-="
  | mul => "*="
  | div => "/="

/-- The sign a text spells. -/
def ofSymbol? (s : String) : Option AssignOp := [set, add, sub, mul, div].find? (·.symbol == s)

end AssignOp

/-- The variables by key, and the limits. -/
structure Store where
  vars : Std.TreeMap String Variable := {}
  maxVariables : Nat
  maxItems : Nat

namespace Store

/-! ## Reading -/

/-- The variable with a key; one that is not there is empty. -/
def var (s : Store) (key : String) : Variable := s.vars[key]?.getD {}

/-- Number of items of a variable. -/
def size (s : Store) (key : String) : Nat := (s.var key).size

/-- An item of a variable, all parts of it. -/
def slot? (s : Store) (key : String) (position : Nat) : Option Slot := (s.var key).values[position]?

/-- The position an index leads to. -/
def position? (s : Store) (key : String) : Value → Option Nat
  | .number n => n.position?
  | v => (s.var key).keyPosition? v.key

def getAt (s : Store) (name : VarName) (position : Nat) : Value :=
  (s.var name.key).get position name.type

/-- The item an index leads to; an unknown index leads to an empty one. -/
def get (s : Store) (name : VarName) (index : Value) : Value :=
  match s.position? name.key index with
  | some position => s.getAt name position
  | none => Value.empty name.type

/-- The last item of a variable. -/
def getLast (s : Store) (name : VarName) : Value :=
  match s.size name.key with
  | 0 => Value.empty name.type
  | n + 1 => s.getAt name n

/-- The keys of the variables that hold something, in ascending order. -/
def names (s : Store) : List String :=
  (s.vars.toList.filter fun (_, v) => !v.isEmpty).map (·.1)

/-- Number of variables that hold something. -/
def count (s : Store) : Nat := s.names.length

/-- The first position at or after `start` whose item has a property, or -1. -/
def findPosition (values : Array Slot) (start : Number) (p : Slot → Bool) : Number :=
  match (values.toList.drop start.count).findIdx? p with
  | some i => Number.ofCount (start.count + i)
  | none => -1

/-- The first position at or after `start` whose item equals a value, or -1. -/
def positionOf (s : Store) (name : VarName) (v : Value) (start : Number) : Except Error Number :=
  match s.vars[name.key]? with
  | none => .ok (-1)
  | some var => do
    let wanted ← v.convert name.type
    return findPosition var.values start fun slot => slot.get name.type == wanted

/-- The first position at or after `start` whose text satisfies `p`, or -1. -/
def positionMatching (s : Store) (key : String) (p : String → Bool) (start : Number) : Number :=
  findPosition (s.var key).values start fun slot => p slot.text

/-- The least or the greatest item of a variable, empty texts aside. The items are taken from the
last one to the first. -/
def extreme (s : Store) (name : VarName) (least : Bool) : Value :=
  let items := (s.var name.key).values.toList.reverse.map (·.get name.type)
  match items.filter (· != .text "") with
  | [] => Value.empty name.type
  | v :: vs => vs.foldl (Value.pickExtreme least) v

/-! ## Writing -/

/-- The store without the variables that hold nothing. -/
def prune (s : Store) : Store := { s with vars := s.vars.filter fun _ v => !v.isEmpty }

/-- Make sure that a variable is there to be written; the flag tells whether there is room. -/
def makeRoom (s : Store) (key : String) : Bool × Store :=
  if s.vars.contains key then (true, s)
  else
    let s := if s.vars.size < s.maxVariables then s else s.prune
    if s.vars.size < s.maxVariables then (true, { s with vars := s.vars.insert key {} })
    else (false, s)

/-- Change a variable, which is created if it is not there. -/
def update (s : Store) (key : String) (f : Variable → Variable) : Except Error Unit × Store :=
  match s.makeRoom key with
  | (true, s) => (.ok (), { s with vars := s.vars.modify key f })
  | (false, s) => (.error ⟨.tooManyVariables, none⟩, s)

/-- The error for a position past the limit. -/
def pastLimit (s : Store) (position : Nat) : Error :=
  ⟨.tooManyItems, some ("index " ++ toString position ++ " is past the limit of " ++
    toString s.maxItems ++ " items")⟩

/-- Whether a position is within the limit. -/
def checkPosition (s : Store) (position : Nat) : Except Error Unit :=
  if s.maxItems ≤ position then .error (s.pastLimit position) else .ok ()

/-- The position a write to an index goes to; an unknown key gets an item of its own, and a negative
position is none. -/
def positionForWrite (s : Store) (key : String) (index : Value) :
    Except Error (Option Nat) × Store :=
  match index with
  | .number n =>
    match n.position? with
    | some position =>
      match s.checkPosition position with
      | .ok _ => (.ok (some position), s)
      | .error e => (.error e, s)
    | none => (.ok none, s)
  | v =>
    match (s.var key).keyPosition? v.key with
    | some position => (.ok (some position), s)
    | none =>
      let position := s.size key
      match s.checkPosition position with
      | .error e => (.error e, s)
      | .ok _ =>
        match s.update key (·.appendKey v.key) with
        | (.ok _, s) => (.ok (some position), s)
        | (.error e, s) => (.error e, s)

/-- Store a value in the part of its type. -/
def putRaw (s : Store) (key : String) (position : Nat) (v : Value) : Except Error Unit × Store :=
  match s.checkPosition position with
  | .error e => (.error e, s)
  | .ok _ => s.update key (·.put position v)

/-- The value an assignment stores: the old item and the operand combined, as the name's type. -/
def combine (s : Store) (name : VarName) (position : Option Nat) (op : AssignOp) (v : Value) :
    Except Error Value :=
  let old :=
    match position with
    | some p => s.getAt name p
    | none => Value.empty name.type
  match op with
  | .set => v.convert name.type
  | .add => do (← Arithmetic.add.apply old v).convert name.type
  | .sub => do (← Arithmetic.sub.apply old v).convert name.type
  | .mul => do (← Arithmetic.mul.apply old v).convert name.type
  | .div => do (← Arithmetic.div.apply old v).convert name.type

/-- Store a converted value at a position; without a position nothing happens. -/
def storeAt (s : Store) (name : VarName) (position : Option Nat) (v : Value) :
    Except Error Unit × Store :=
  match position with
  | none => (.ok (), s)
  | some p => s.putRaw name.key p v

/-- Assign to the item at a position. -/
def assign (s : Store) (name : VarName) (position : Option Nat) (op : AssignOp) (v : Value) :
    Except Error Unit × Store :=
  match s.combine name position op v with
  | .error e => (.error e, s)
  | .ok w => s.storeAt name position w

/-- Assign to the item an index leads to. The value is computed before a key is created, so an
assignment that fails leaves the variable as it was. -/
def assignIndex (s : Store) (name : VarName) (index : Value) (op : AssignOp) (v : Value) :
    Except Error Unit × Store :=
  match s.combine name (s.position? name.key index) op v with
  | .error e => (.error e, s)
  | .ok w =>
    match s.positionForWrite name.key index with
    | (.error e, s) => (.error e, s)
    | (.ok position, s) => s.storeAt name position w

/-- Write a value to the item an index leads to. -/
def set (s : Store) (name : VarName) (index v : Value) : Except Error Unit × Store :=
  s.assignIndex name index .set v

/-! ## Removing and copying -/

/-- The empty store with the same limits. -/
def clear (s : Store) : Store := { s with vars := {} }

/-- Remove a variable. -/
def removeVar (s : Store) (key : String) : Store := { s with vars := s.vars.erase key }

/-- Remove an item of a variable. -/
def removeItem (s : Store) (key : String) (position : Nat) : Store :=
  { s with vars := s.vars.modify key (·.remove position) }

/-- Put back a variable that was taken out; an empty one leaves nothing. -/
def restore (s : Store) (key : String) (v : Variable) : Store :=
  if v.isEmpty then s.removeVar key else { s with vars := s.vars.insert key v }

/-- Replace a variable by a part of another one; a negative start or count is zero, and without a
count all items from the start are meant. -/
def copyArray (s : Store) (dest src : String) (start : Number) (count : Option Number) :
    Except Error Unit × Store :=
  if dest == src then (.ok (), s)
  else
    let source := s.var src
    let count := (count.map Number.count).getD source.size
    let copy := source.slice start.count count
    s.update dest fun _ => copy

end Store

end QuestScript
