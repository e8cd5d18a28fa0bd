import QuestScript.Value.Number

/-!
# Random numbers

A lagged Fibonacci generator over 32-bit words with lags 55 and 24, whose output goes through a
table of 256 words that shuffles it. The seed fixes the whole sequence, so a game can be replayed.
-/

namespace QuestScript

/-- The generator: the last 55 words, two places among them, the shuffling table and the word that
picks its next entry. -/
structure Generator where
  lags : Vector UInt32 55
  i : Fin 55
  j : Fin 55
  table : Vector UInt32 256
  pick : UInt32

namespace Generator

/-- Write all lags but the first `k + 2`, each one as the sum of the two in front of it. -/
def fillLags (lags : Vector UInt32 55) (k : Nat) : Vector UInt32 55 :=
  if h : k + 2 < 55 then fillLags (lags.set (k + 2) (lags[k + 1] + lags[k])) (k + 1) else lags
termination_by 55 - k

/-- The next word of the sequence. -/
def step (g : Generator) : UInt32 × Generator :=
  let i := g.i - 1
  let j := g.j - 1
  let word := g.lags[j] + g.lags[i]
  (word, { g with lags := g.lags.set j word, i, j })

/-- The generator after `n` words. -/
def skip (g : Generator) : Nat → Generator
  | 0 => g
  | n + 1 => skip g.step.2 n

/-- Fill the first `n` entries of the table, the last one first. -/
def fillTable (g : Generator) : Nat → Generator
  | 0 => g
  | n + 1 =>
    let (word, g) := g.step
    fillTable { g with table := g.table.setIfInBounds n word } n

/-- Start again with a seed: the lags are written anew, 256 words are left out, and then the table is
filled and the first entry picked. -/
def reseed (g : Generator) (seed : UInt32) : Generator :=
  let lags := fillLags ((g.lags.set 0 1).set 1 seed) 0
  let start : Generator := { g with lags, i := 23, j := 54 }
  let (pick, g) := (fillTable (start.skip 256) 256).step
  { g with pick }

/-- The generator for a seed. -/
def ofSeed (seed : UInt32) : Generator :=
  let blank : Generator :=
    { lags := Vector.replicate 55 0, i := 0, j := 0, table := Vector.replicate 256 0, pick := 0 }
  blank.reseed seed

/-- The entry of the table that a word picks: its highest eight bits. -/
def slot (word : UInt32) : Fin 256 := ⟨(word >>> 24).toNat % 256, Nat.mod_lt _ (by decide)⟩

/-- The next number, of 31 bits. -/
def next (g : Generator) : Number × Generator :=
  let s := slot g.pick
  let pick := g.table[s]
  let (word, g) := g.step
  (Number.ofCount (pick &&& 0x7fffffff).toNat, { g with table := g.table.set s word, pick })

/-- A number between two bounds, given in either order. An interval whose size is not representable
gives its lower bound and leaves the generator as it is. -/
def range (g : Generator) (a b : Number) : Number × Generator :=
  let low := if b < a then b else a
  let high := if b < a then a else b
  let size := high - low + 1
  if size ≤ 0 then (low, g)
  else
    let (n, g) := g.next
    (n % size + low, g)

end Generator

end QuestScript
