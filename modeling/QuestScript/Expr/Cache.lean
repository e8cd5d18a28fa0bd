import Std.Data.TreeMap
import QuestScript.Expr.Compile

/-!
# The cache of expressions

An expression is compiled when it is first evaluated and kept by its text. Once the cache is full, it
is emptied before the next one is kept. A text that does not compile is not kept.

Like the cache of patterns, this one carries the proof that it keeps nothing but compiled
expressions under their own text, so that no evaluation can tell what it keeps (`get_fst`).
-/

namespace QuestScript.Code

/-- Compiled expressions by their text. -/
structure Cache where
  entries : Std.TreeMap String Code := {}
  /-- Every expression is kept under the text it is compiled from. -/
  sound : ∀ (source : String) (code : Code),
    entries[source]? = some code → compile source.toList = .ok code := by simp

namespace Cache

/-- Most expressions kept. -/
def capacity : Nat := 4096

/-- The cache with one more expression; a full one keeps nothing else. -/
def insert (c : Cache) (source : String) (code : Code) (h : compile source.toList = .ok code) :
    Cache where
  entries := (if capacity ≤ c.entries.size then {} else c.entries).insert source code
  sound other found he := by
    rw [Std.TreeMap.getElem?_insert] at he
    split at he
    · next heq =>
      cases he
      rw [← Std.compare_eq_iff_eq.mp heq]
      exact h
    · split at he
      · simp at he
      · exact c.sound other found he

/-- The compiled expression, from the cache if it is kept there. -/
def get (c : Cache) (source : String) : Except SourceError Code × Cache :=
  match c.entries[source]? with
  | some code => (.ok code, c)
  | none =>
    match h : compile source.toList with
    | .ok code => (.ok code, c.insert source code h)
    | .error e => (.error e, c)

/-- **A cache gives what compiling gives**, whatever it keeps. -/
theorem get_fst (c : Cache) (source : String) : (c.get source).1 = compile source.toList := by
  unfold get
  split
  · next h => exact (c.sound _ _ h).symm
  · split
    · next h => exact h.symm
    · next h => exact h.symm

end Cache

end QuestScript.Code
