import QuestScript.Value.Number

/-!
# Parts of texts

The functions of scripts that take a text apart. Positions count characters from one; a position
before the first character is the first.
-/

namespace QuestScript.Text

/-- How many characters are before a position. -/
def charsBefore (position : Number) : Nat := (position.toInt - 1).toNat

/-- The text from a position on, or the given number of its characters; a negative number of them
gives nothing. -/
def mid (cs : List Char) (start : Number) (count : Option Number) : List Char :=
  let rest := cs.drop (charsBefore start)
  match count with
  | some n => rest.take n.count
  | none => rest

/-- How many characters are before the first occurrence of `sub`. -/
def occurrence? (sub : List Char) : List Char → Option Nat
  | [] => if sub.isEmpty then some 0 else none
  | c :: cs =>
    if sub.isPrefixOf (c :: cs) then some 0 else (occurrence? sub cs).map (· + 1)

/-- The position of the first occurrence of `sub` at or after a position, or zero. -/
def find (cs sub : List Char) (start : Number) : Number :=
  let skipped := charsBefore start
  if cs.length < skipped then 0
  else
    match occurrence? sub (cs.drop skipped) with
    | some n => Number.ofCount (skipped + n + 1)
    | none => 0

/-- The text with every occurrence of `sub` replaced, from left to right; `skip` more characters
belong to an occurrence that has been replaced. -/
def replaceFrom (sub new : List Char) (skip : Nat) : List Char → List Char
  | [] => []
  | c :: cs =>
    match skip with
    | skip + 1 => replaceFrom sub new skip cs
    | 0 =>
      if sub.isPrefixOf (c :: cs) then new ++ replaceFrom sub new (sub.length - 1) cs
      else c :: replaceFrom sub new 0 cs

/-- The text with every occurrence of `sub` replaced; nothing occurs nowhere. -/
def replace (cs sub new : List Char) : List Char :=
  if sub.isEmpty then cs else replaceFrom sub new 0 cs

end QuestScript.Text
