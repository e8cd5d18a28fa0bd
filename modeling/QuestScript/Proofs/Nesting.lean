import QuestScript.Proofs.Endless

/-!
# How deep evaluations nest

An expression calls locations with `FUNC` and `@name` and code with `DYNEVAL`, and these evaluate
expressions again. Every such call goes through `Run.nested`, which counts the open calls and fails
when there are as many as the configuration allows. So nothing is ever evaluated with more calls open
(`Machine.NestsWithinLimit`).

To say so, the calls are tied a second time, with a stranger in charge of all that would start beyond
the limit (`Calls.capped`). Whoever the stranger is, all runs stay the same, so it is never asked.

Besides opening calls, an evaluation goes into literals, which get shorter, and into descriptions. In a
world without code there are no other ways (`Proofs/Ends.lean`), and an evaluation ends because it
meets the limit or ever shorter texts. Two things have to be left out (`Proofs/Endless.lean`):

* the code of `DYNEVAL`, which may loop like any other code;
* `DESC` in descriptions. It formats a description without opening a call, so descriptions that ask
  for one another are not counted, and one that asks for itself is formatted forever.
-/

namespace QuestScript

/-! ## Nothing runs beyond the limit -/

/-- Equal machines with no more calls open than allowed. -/
def withinLimit : Likeness where
  ok m m' := m = m' ∧ m.callDepth ≤ m.config.maxCallDepth
  err _ m m' := m = m' ∧ m.callDepth ≤ m.config.maxCallDepth
  agrees := by
    rintro m _ ⟨rfl, -⟩
    exact .refl m
  agrees_err := by
    rintro _ m _ ⟨rfl, -⟩
    exact .refl m
  moves := by
    rintro m₁ _ m₂ _ ⟨rfl, -⟩ ⟨rfl, -⟩
    exact Iff.rfl
  fail _ h := h
  bindings _ _ h := ⟨by rw [h.1], h.2⟩
  bindings_err _ _ h := ⟨by rw [h.1], h.2⟩
  screen _ h := ⟨by rw [h.1], h.2⟩
  host _ _ h := ⟨by rw [h.1], h.2⟩
  rng _ h := ⟨by rw [h.1], h.2⟩
  expressions _ h := ⟨by rw [h.1], h.2⟩
  patterns _ h := ⟨by rw [h.1], h.2⟩
  site _ h := ⟨by rw [h.1], h.2⟩
  back h₁ h₂ := ⟨by rw [h₁.1, h₂.1], h₂.2⟩
  back_err h₁ h₂ := ⟨by rw [h₁.1, h₂.1], h₂.2⟩
  mark := by
    rintro e m _ ⟨rfl, h⟩
    refine ⟨rfl, ?_⟩
    unfold Machine.markError
    split
    · exact h
    · exact h
  -- a call is entered only below the limit: of all steps this one alone could pass it
  enter hlt h := ⟨by rw [h.1], hlt⟩
  exit h := ⟨by rw [h.1], Nat.le_trans (Nat.sub_le _ _) h.2⟩
  exit_err h := ⟨by rw [h.1], Nat.le_trans (Nat.sub_le _ _) h.2⟩
  move h := ⟨by rw [h.1], h.2⟩

/-- Runs that go alike in equal machines are equal. -/
theorem Outcome.Alike.eq {α : Type} {r r' : Outcome α} (h : r.Alike withinLimit r') : r = r' := by
  cases h with
  | done a h => rw [h.1]
  | failed e h => rw [h.1]
  | outOfFuel => rfl

/-- A run that is left to `other` in machines with too many calls open. -/
def Run.capped {α : Type} (x other : Run α) : Run α := fun m =>
  if m.config.maxCallDepth < m.callDepth then other m else x m

theorem Run.Alike.capped {α : Type} {x y : Run α} (h : Run.Alike withinLimit x y) (other : Run α) :
    Run.Alike withinLimit x (y.capped other) := by
  intro m m' hm
  obtain ⟨rfl, hle⟩ := hm
  unfold Run.capped
  rw [if_neg (Nat.not_lt.mpr hle)]
  exact h m m ⟨rfl, hle⟩

/-- The calls in which all that starts with too many calls open is left to `other`. -/
def Calls.capped (other : Calls) : Nat → Calls
  | 0 => Calls.ofFuel 0
  | n + 1 =>
    { turns := n
      eval := fun source =>
        (Machine.evalSource (capped other n) source).capped (other.eval source)
      lines := fun lines start stop top =>
        (Machine.runLines (capped other n) lines start stop top).capped
          (other.lines lines start stop top)
      statements := fun line start stop =>
        (Machine.runStatements (capped other n) line start stop).capped
          (other.statements line start stop) }

/-- Nothing is left to `other`. -/
theorem Calls.ofFuel_alike_capped (other : Calls) (n : Nat) :
    (Calls.ofFuel n).Alike withinLimit (Calls.capped other n) := by
  induction n with
  | zero => exact ofFuel_zero_alike _
  | succ n ih =>
    unfold capped
    exact ⟨rfl, fun source => (Machine.evalSource_alike ih source).capped _,
      fun lines start stop top => (Machine.runLines_alike ih lines start stop top).capped _,
      fun line start stop => (Machine.runStatements_alike ih line start stop).capped _⟩

/-! ## Calls are counted -/

/-- A run that is left to `other` unless exactly `depth` calls are open. -/
def Run.atDepth {α : Type} (x : Run α) (depth : Nat) (other : Run α) : Run α := fun m =>
  if m.callDepth = depth then x m else other m

/-- One run after another depends only on how the second one goes where it is started. -/
theorem Run.bind_congr_of_done {α β : Type} {x : Run α} {f g : α → Run β} {m : Machine}
    (h : ∀ a m', x m = .done a m' → f a m' = g a m') : (x >>= f) m = (x >>= g) m := by
  show x.andThen f m = x.andThen g m
  unfold andThen
  cases hx : x m with
  | done a m' => exact h a m' hx
  | failed e m' => rfl
  | outOfFuel => rfl

namespace Machine

/-- A call runs its callee with one more call open. -/
theorem calling_atDepth (args : List Value) (body other : Run Unit) (m : Machine) :
    calling args (body.atDepth (m.callDepth + 1) other) m = calling args body m := by
  unfold calling Run.nested
  split
  · rfl
  · unfold Run.grouped
    dsimp only
    rw [Run.bind_congr_of_done (g := fun _ => do
      body
      Run.read fun m => m.vars.slot? "RESULT" 0)]
    intro a m' hm'
    -- binding the arguments opens no call
    have hdepth := ((bindArgs_obeys (D := frame) args).ok hm').2.1
    show (body.atDepth (m.callDepth + 1) other).andThen _ m' = body.andThen _ m'
    have hbody : body.atDepth (m.callDepth + 1) other m' = body m' := if_pos hdepth
    unfold Run.andThen
    rw [hbody]

/-- No further call is opened when as many are open as allowed. -/
theorem calling_refused (args : List Value) (body : Run Unit) {m : Machine}
    (h : m.config.maxCallDepth ≤ m.callDepth) :
    calling args body m = .failed ⟨.stackOverflow, none⟩ m := if_pos h

end Machine

/-- Whether an operation opens a call: `FUNC` and `@name` one of a location, `DYNEVAL` one of
code. -/
def Op.opensCall : Op → Bool
  | func _ | dynEval _ => true
  | _ => false

namespace Machine

theorem applyOp_refused (c : Calls) {op : Op} (hop : op.opensCall = true) (args : List Value)
    {m : Machine} (h : m.config.maxCallDepth ≤ m.callDepth) :
    applyOp c op args m = .failed ⟨.stackOverflow, none⟩ m := by
  cases op with
  | func part =>
    show (callLocation c (textAt args 0) args.tail false).andThen _ m = _
    unfold Run.andThen callLocation
    rw [calling_refused _ _ h]
  | dynEval part =>
    show (callCode c (textAt args 0) args.tail).andThen _ m = _
    unfold Run.andThen callCode
    rw [calling_refused _ _ h]
  | _ => cases hop

/-- Evaluations in a machine never hold more calls open than its configuration allows. -/
structure NestsWithinLimit (m : Machine) : Prop where
  /-- Whatever were done with more calls open, no evaluation comes to do it. -/
  unreached (other : Calls) (n : Nat) (source : List Char) :
    (Calls.ofFuel n).eval source m = (Calls.capped other n).eval source m
  /-- Every call counts: its callee is run with one more call open. -/
  counted (args : List Value) (body other : Run Unit) :
    calling args (body.atDepth (m.callDepth + 1) other) m = calling args body m
  /-- When as many calls are open as allowed, the next one fails. -/
  refused (c : Calls) {op : Op} (args : List Value) :
    m.config.maxCallDepth ≤ m.callDepth → op.opensCall = true →
      applyOp c op args m = .failed ⟨.stackOverflow, none⟩ m

theorem nestsWithinLimit {m : Machine} (h : m.callDepth ≤ m.config.maxCallDepth) :
    m.NestsWithinLimit where
  unreached other n source := ((Calls.ofFuel_alike_capped other n).eval source m m ⟨rfl, h⟩).eq
  counted args body other := calling_atDepth args body other m
  refused c _ args hfull hop := applyOp_refused c hop args hfull

/-! ## Evaluations are bounded -/

/-- **Calls nest only so deep, and without code every evaluation ends.** In every world, no evaluation
holds more calls open than allowed, and the next call fails. Where no location has code, an
expression ends with a value or an error, however its literals and the descriptions call locations,
as long as no code is run as text and no description asks for another one. -/
theorem nesting_bounded (m : Machine) (h : m.callDepth ≤ m.config.maxCallDepth) :
    m.NestsWithinLimit ∧
    ∀ source, m.world.IsBlank → ¬Uses Op.runsCode source → ¬m.world.Uses Op.runsCode →
      ¬m.world.Uses Op.describes →
      ∃ enough, ∀ n, enough ≤ n → (Calls.ofFuel n).eval source m ≠ .outOfFuel := by
  refine ⟨nestsWithinLimit h, fun source hblank hsource hcode hdesc => ?_⟩
  let blocks := m.config.maxCallDepth + 1
  have hcalls : m.config.maxCallDepth - m.callDepth < blocks := by omega
  refine ⟨blocks * (m.world.extent + 3) + source.length + 1, fun n hn => ?_⟩
  have hends := eval_ends hblank hcode hdesc hsource (Nat.le_of_lt hcalls) (fun _ => hcalls) hn
  exact (hends m ⟨rfl, rfl, rfl⟩).ne_outOfFuel

/-- A location that calls itself from its description and from an action: two calls are allowed. -/
theorem nesting_bounded_sample :
    let a : Location :=
      { name := "A", description := "<<FUNC('A')>>", actions := [⟨"<<@A>>", none, []⟩]
        code := Line.ofSource [] }
    let m : Machine := { Machine.new { maxCallDepth := 2 } {} with world := World.add {} a }
    m.NestsWithinLimit ∧
      ∃ enough, ∀ n, enough ≤ n → (Calls.ofFuel n).eval "DESC('A') & @A".toList m ≠ .outOfFuel := by
  intro a m
  obtain ⟨hlimit, hends⟩ := nesting_bounded m (by decide)
  exact ⟨hlimit, hends _ (by decide +kernel) (by decide +kernel) (by decide +kernel)
    (by decide +kernel)⟩

/-- What is left out is not bounded. Three descriptions are formatted inside one another where no call
at all is allowed, and one that asks for itself is formatted forever. And a loop that is run as text
never ends, though there is no location at all. -/
theorem nesting_not_bounded :
    let location (name description : String) : Location :=
      { name, description, code := Line.ofSource [] }
    let chain := ((World.add {} (location "A" "<<DESC 'B'>>")).add (location "B" "<<DESC 'C'>>")).add
      (location "C" "end")
    let circle := World.add {} (location "A" "<<DESC 'A'>>")
    let config : Config := { maxCallDepth := 0 }
    (((Engine.new config {}).load chain).eval "DESC 'A'").1 = .done (.text "end") ∧
    (∀ n, (Calls.ofFuel n).eval "DESC 'A'".toList
      { Machine.new config {} with world := circle } = .outOfFuel) ∧
    ∀ n, (Calls.ofFuel n).eval "DYNEVAL \x7bLOOP WHILE 1:\nEND\x7d".toList (Machine.new {} {})
      = .outOfFuel := by
  intro location chain circle config
  have hfind : circle.find? "A" = some (location "A" "<<DESC 'A'>>") := by decide +kernel
  refine ⟨by decide +kernel, fun n => ?_, fun n => eval_endless n (by decide)⟩
  exact eval_circle (m := { Machine.new config {} with world := circle }) hfind rfl n

end Machine

end QuestScript
