import QuestScript.Proofs.Random
import QuestScript.Proofs.Value.Number

/-!
# The generator with every access checked

The places of a `Generator` are in bounds by their types, and its sums are those of 64 bits. A `Checked`
generator has plain counters and arrays of any size. It has no answer when a word is read or written
outside of its array, or when a number that is drawn does not fit.

It always has an answer, the one of the generator it stands for, and its counters stay in bounds. That is
`random_in_bounds`, for every seed and whatever is asked of the generator.
-/

namespace QuestScript.Generator

/-! ## Using a generator -/

/-- What can be asked of a generator. -/
inductive Use where
  | next
  | range (a b : Number)
  | reseed (seed : UInt32)

/-- The number that a use gives, if any, and the generator after it. -/
def use (g : Generator) : Use → Option Number × Generator
  | .next => (some g.next.1, g.next.2)
  | .range a b => (some (g.range a b).1, (g.range a b).2)
  | .reseed seed => (none, g.reseed seed)

/-- What one use after the other gives, and the generator in the end. -/
def useAll (g : Generator) : List Use → List (Option Number) × Generator
  | [] => ([], g)
  | u :: uses =>
    let (n, g) := g.use u
    let (ns, g) := useAll g uses
    (n :: ns, g)

/-! ## The checked generator -/

/-- A generator that may have its places anywhere. -/
structure Checked where
  lags : Array UInt32
  i : Nat
  j : Nat
  table : Array UInt32
  pick : UInt32

/-- A generator without the proofs that its places are in bounds. -/
def checked (g : Generator) : Checked where
  lags := g.lags.toArray
  i := g.i
  j := g.j
  table := g.table.toArray
  pick := g.pick

namespace Checked

/-- Every place is inside of its array. -/
structure InBounds (c : Checked) : Prop where
  lags : c.lags.size = 55
  i : c.i < 55
  j : c.j < 55
  table : c.table.size = 256
  slot : (c.pick >>> 24).toNat < 256

/-- Write a word, if the place is there. -/
def write? (words : Array UInt32) (k : Nat) (word : UInt32) : Option (Array UInt32) :=
  if h : k < words.size then some (words.set k word) else none

/-- The place in front of a place of the lags, which is the last one for the first. -/
def back (k : Nat) : Nat := if k = 0 then 54 else k - 1

/-- One step back through the lags. -/
def step (c : Checked) : Option (UInt32 × Checked) := do
  let i := back c.i
  let j := back c.j
  let word := (← c.lags[j]?) + (← c.lags[i]?)
  let lags ← write? c.lags j word
  return (word, { c with lags, i, j })

/-- Some steps, whose words are dropped. -/
def skip (c : Checked) : Nat → Option Checked
  | 0 => some c
  | n + 1 => do
    let (_, c) ← c.step
    skip c n

/-- Write `n` lags from lag `k` on. -/
def fillLags (lags : Array UInt32) (k : Nat) : Nat → Option (Array UInt32)
  | 0 => some lags
  | n + 1 => do
    let word := (← lags[k - 1]?) + (← lags[k - 2]?)
    fillLags (← write? lags k word) (k + 1) n

/-- Fill the first `n` places of the table, the last of them first. -/
def fillTable (c : Checked) : Nat → Option Checked
  | 0 => some c
  | n + 1 => do
    let (word, c) ← c.step
    let table ← write? c.table n word
    fillTable { c with table } n

/-- Start again from a seed. -/
def reseed (c : Checked) (seed : UInt32) : Option Checked := do
  let lags ← write? c.lags 0 1
  let lags ← write? lags 1 seed
  let lags ← fillLags lags 2 53
  let c ← skip { c with lags, i := 23, j := 54 } 256
  let c ← c.fillTable 256
  let (pick, c) ← c.step
  return { c with pick }

/-- A new generator for a seed. -/
def ofSeed (seed : UInt32) : Option Checked :=
  let blank : Checked :=
    { lags := Array.replicate 55 0, i := 0, j := 0, table := Array.replicate 256 0, pick := 0 }
  blank.reseed seed

/-- The next number, taken from the table at the place that the last one has picked. -/
def next (c : Checked) : Option (Number × Checked) := do
  let slot := (c.pick >>> 24).toNat
  let pick ← c.table[slot]?
  let (word, c) ← c.step
  let table ← write? c.table slot word
  return (Number.ofCount (pick &&& 0x7fffffff).toNat, { c with table, pick })

/-- A number between two others, which has to fit into a number. -/
def range (c : Checked) (a b : Number) : Option (Number × Checked) :=
  let low := if b < a then b else a
  let high := if b < a then a else b
  let size := high - low + 1
  if size ≤ 0 then some (low, c)
  else do
    let (n, c) ← c.next
    let sum ← Number.ofInt? ((n % size).toInt + low.toInt)
    return (sum, c)

/-- One use, with every access checked. -/
def use (c : Checked) : Use → Option (Option Number × Checked)
  | .next => do
    let (n, c) ← c.next
    return (some n, c)
  | .range a b => do
    let (n, c) ← c.range a b
    return (some n, c)
  | .reseed seed => do
    let c ← c.reseed seed
    return (none, c)

/-- One use after the other. -/
def useAll (c : Checked) : List Use → Option (List (Option Number) × Checked)
  | [] => some ([], c)
  | u :: uses => do
    let (n, c) ← c.use u
    let (ns, c) ← useAll c uses
    return (n :: ns, c)

/-! ## No check fails -/

theorem read_toArray {n : Nat} (words : Vector UInt32 n) {k : Nat} (hk : k < n) :
    words.toArray[k]? = some words[k] := by
  rw [Vector.getElem?_toArray, Vector.getElem?_eq_getElem hk]

/-- In a vector of known size a write at a place below that size succeeds. -/
theorem write?_toArray {n : Nat} (words : Vector UInt32 n) {k : Nat} (hk : k < n) (word : UInt32) :
    write? words.toArray k word = some (words.set k word).toArray := by
  rw [write?, dif_pos (by simpa using hk), Vector.toArray_set]

/-- The place in front of a place, for counters that cannot leave the lags. -/
theorem back_eq (k : Fin 55) : back k = (k - 1 : Fin 55).val := by
  revert k
  decide

/-- A step is checked at the two lags that it reads and at the one that it writes. -/
theorem step_checked (g : Generator) : g.checked.step = some (g.step.1, g.step.2.checked) := by
  have hi := read_toArray g.lags (g.i - 1).isLt
  have hj := read_toArray g.lags (g.j - 1).isLt
  have hwrite := write?_toArray g.lags (g.j - 1).isLt (g.lags[g.j - 1] + g.lags[g.i - 1])
  simp only [step, checked, back_eq, hi, hj, Option.bind_eq_bind, Option.bind_some]
  exact congrArg (Option.bind · _) hwrite

theorem skip_checked (g : Generator) (n : Nat) : g.checked.skip n = some (g.skip n).checked := by
  induction n generalizing g with
  | zero => rfl
  | succ n ih =>
    rw [skip, step_checked]
    exact ih g.step.2

/-- By induction on the places of the table that are left. -/
theorem fillTable_checked {n : Nat} (hn : n ≤ 256) (g : Generator) :
    g.checked.fillTable n = some (g.fillTable n).checked := by
  induction n generalizing g with
  | zero => rfl
  | succ n ih =>
    have hwrite : write? g.step.2.checked.table n g.step.1
        = some (g.step.2.table.setIfInBounds n g.step.1).toArray := by
      have hsize : n < g.step.2.checked.table.size := by simp [checked]; omega
      rw [write?, dif_pos hsize, Vector.toArray_setIfInBounds, Array.setIfInBounds_def]
      exact congrArg some (dif_pos hsize).symm
    rw [fillTable, step_checked]
    simp only [hwrite, Option.bind_eq_bind, Option.bind_some]
    exact ih (by omega) { g.step.2 with table := g.step.2.table.setIfInBounds n g.step.1 }

/-- Writing on from lag `k + 2`, up to the end. -/
theorem fillLags_checked (lags : Vector UInt32 55) (k : Nat) :
    fillLags lags.toArray (k + 2) (53 - k) = some (Generator.fillLags lags k).toArray := by
  fun_induction Generator.fillLags lags k with
  | case1 lags k hk ih =>
    have hn : 53 - k = 53 - (k + 1) + 1 := by omega
    have hwrite := write?_toArray lags hk (lags[k + 1] + lags[k])
    have hone := read_toArray lags (show k + 1 < 55 by omega)
    have htwo := read_toArray lags (show k < 55 by omega)
    rw [hn, fillLags]
    simp only [show k + 2 - 1 = k + 1 by omega, Nat.add_sub_cancel, hone, htwo, hwrite,
      Option.bind_eq_bind, Option.bind_some]
    exact ih
  | case2 lags k hk =>
    have hn : 53 - k = 0 := by omega
    rw [hn, fillLags]

theorem reseed_checked (g : Generator) (seed : UInt32) :
    g.checked.reseed seed = some (g.reseed seed).checked := by
  let lags := Generator.fillLags ((g.lags.set 0 1).set 1 seed) 0
  let start : Generator := { g with lags, i := 23, j := 54 }
  let filled := (start.skip 256).fillTable 256
  have hreseed : g.reseed seed = { filled.step.2 with pick := filled.step.1 } := rfl
  have hzero : write? g.checked.lags 0 1 = some (g.lags.set 0 1).toArray :=
    write?_toArray g.lags (by decide) 1
  have hone : write? (g.lags.set 0 1).toArray 1 seed = some ((g.lags.set 0 1).set 1 seed).toArray :=
    write?_toArray (g.lags.set 0 1) (by decide) seed
  have hlags : fillLags ((g.lags.set 0 1).set 1 seed).toArray 2 53 = some lags.toArray :=
    fillLags_checked ((g.lags.set 0 1).set 1 seed) 0
  have hskip : skip { g.checked with lags := lags.toArray, i := 23, j := 54 } 256
      = some (start.skip 256).checked := skip_checked start 256
  have htable : (start.skip 256).checked.fillTable 256 = some filled.checked :=
    fillTable_checked (Nat.le_refl 256) (start.skip 256)
  -- what the table is filled with plays no part any more, and is not to be computed
  clear_value filled
  simp only [reseed, hreseed, hzero, hone, hlags, hskip, htable, step_checked, Option.bind_eq_bind,
    Option.bind_some]
  rfl

/-- The upper eight bits of a word are a place of the table. -/
theorem slot_eq (word : UInt32) : (word >>> 24).toNat = (slot word).val := by
  have hlt : (word >>> 24).toNat < 256 := by
    have := word.toNat_lt
    rw [UInt32.toNat_shiftRight, Nat.shiftRight_eq_div_pow]
    simp
    omega
  exact (Nat.mod_eq_of_lt hlt).symm

theorem next_checked (g : Generator) : g.checked.next = some (g.next.1, g.next.2.checked) := by
  have hslot : (g.checked.pick >>> 24).toNat = (slot g.pick).val := slot_eq g.pick
  have hread : g.checked.table[(slot g.pick).val]? = some g.table[slot g.pick] :=
    read_toArray g.table (slot g.pick).isLt
  have hwrite : write? g.step.2.checked.table (slot g.pick).val g.step.1
      = some (g.step.2.table.set (slot g.pick).val g.step.1).toArray :=
    write?_toArray g.step.2.table (slot g.pick).isLt g.step.1
  simp only [next, hslot, hread, step_checked, hwrite, Option.bind_eq_bind, Option.bind_some]
  rfl

/-- What is added to the lower number fits, because the remainder is smaller than the size of the range. -/
theorem range_checked (g : Generator) (a b : Number) :
    g.checked.range a b = some ((g.range a b).1, (g.range a b).2.checked) := by
  by_cases h : 9223372036854775807 < max a.toInt b.toInt - min a.toInt b.toInt + 1
  · obtain ⟨hsize, hrange⟩ := range_of_overflow h g
    rw [hrange]
    exact if_pos hsize
  · obtain ⟨hpos, hrange⟩ := range_of_fits h g
    have hdraw := toInt_draw (next_bounds g).1 (by rw [toInt_low, toInt_high]; omega) hpos
    have hsum := Number.ofInt?_eq_some_iff.mpr hdraw.1
    unfold range
    simp only [if_neg hpos, next_checked, hrange, hsum, Option.bind_eq_bind, Option.bind_some]
    rfl

theorem use_checked (g : Generator) (u : Use) :
    g.checked.use u = some ((g.use u).1, (g.use u).2.checked) := by
  cases u with
  | next => simp [use, Generator.use, next_checked]
  | range a b => simp [use, Generator.use, range_checked]
  | reseed seed => simp [use, Generator.use, reseed_checked]

/-- By induction on the uses. Each of them leaves a generator whose places are in bounds. -/
theorem useAll_checked (g : Generator) (uses : List Use) :
    g.checked.useAll uses = some ((g.useAll uses).1, (g.useAll uses).2.checked) := by
  induction uses generalizing g with
  | nil => rfl
  | cons u uses ih => simp [useAll, Generator.useAll, use_checked, ih]

theorem ofSeed_checked (seed : UInt32) : ofSeed seed = some (Generator.ofSeed seed).checked := by
  let blank : Generator :=
    { lags := Vector.replicate 55 0, i := 0, j := 0, table := Vector.replicate 256 0, pick := 0 }
  exact reseed_checked blank seed

theorem inBounds_checked (g : Generator) : g.checked.InBounds where
  lags := g.lags.size_toArray
  i := g.i.isLt
  j := g.j.isLt
  table := g.table.size_toArray
  slot := slot_eq g.pick ▸ (slot g.pick).isLt

end Checked

/-! ## Every run stays in bounds -/

/-- **Random numbers stay in bounds.** Whatever is asked of the generator for a seed, no check of the
checked generator fails on the way, and its answers are the same; its counters are in bounds. The next
number then has 31 bits. A number between two bounds is between them, and the generator stays as it is
if and only if the size of the interval is greater than all numbers; then the lower bound is given.
Starting any generator again gives the one for the seed. -/
theorem random_in_bounds (seed : UInt32) (uses : List Use) :
    let run := (ofSeed seed).useAll uses
    let g := run.2
    (Checked.ofSeed seed).bind (·.useAll uses) = some (run.1, g.checked) ∧
      g.checked.InBounds ∧
      (0 ≤ g.next.1.toInt ∧ g.next.1.toInt ≤ 0x7FFFFFFF) ∧
      (∀ a b : Number,
        let least := min a.toInt b.toInt
        let greatest := max a.toInt b.toInt
        (least ≤ (g.range a b).1.toInt ∧ (g.range a b).1.toInt ≤ greatest) ∧
          ((g.range a b).2 = g ↔ 9223372036854775807 < greatest - least + 1) ∧
          ((g.range a b).2 = g → (g.range a b).1.toInt = least)) ∧
      ∀ (g : Generator) (seed : UInt32), g.reseed seed = ofSeed seed := by
  intro run g
  refine ⟨?_, Checked.inBounds_checked g, next_bounds g, fun a b => ?_, reseed_eq_ofSeed⟩
  · rw [Checked.ofSeed_checked]
    exact Checked.useAll_checked (ofSeed seed) uses
  · intro least greatest
    refine ⟨range_bounds g a b, range_eq_self_iff g a b, fun hsame => ?_⟩
    have hover := (range_eq_self_iff g a b).mp hsame
    rw [(range_of_overflow hover g).2]
    exact toInt_low a b

end QuestScript.Generator
