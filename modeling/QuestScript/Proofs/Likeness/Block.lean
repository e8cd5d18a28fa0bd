import QuestScript.Machine.Block
import QuestScript.Proofs.Likeness.Statement

/-!
# Blocks go alike

The rest of the way from calls that go alike to lines and blocks that do, and the induction on the
fuel that closes the circle: `Calls.ofFuel_alike`. A turn of a loop and a line of a range are first
written as one run after another, so that the rule for sequences applies to them.
-/

namespace QuestScript

namespace Machine

open Run

/-! ## Loops as sequences -/

/-- One turn, written with what comes after it as a continuation. In this form the rule for sequences
applies. -/
theorem turnWhile_succ (c : Calls) (h : LoopHeader) (body : Run Flow) (n : Nat) :
    turnWhile c h body (n + 1) = (do
      let v ← c.eval h.condition
      let yes ← Run.ofExcept v.toTruth
      if yes then
        match ← turn c body h.step with
        | .next => turnWhile c h body n
        | flow => pure flow
      else pure .next) := by
  rw [← bind_assoc]
  funext m
  show _ = Run.andThen _ _ m
  simp only [turnWhile, Run.andThen]
  split
  · next hm => rw [hm]
  · next hm => rw [hm]
  · next hm => rw [hm]; rfl
  · next m' hm =>
    rw [hm]
    show _ = Run.andThen _ _ m'
    simp only [Run.andThen]
    cases turn c body h.step m' with
    | done flow m'' =>
      cases flow with
      | next => rfl
      | exit => rfl
      | jump label => rfl
    | failed e m'' => rfl
    | outOfFuel => rfl

/-- The same for a counting loop. -/
theorem countUp_succ (c : Calls) (h : ForHeader) (body : Run Flow) (n : Nat) :
    countUp c h body (n + 1) = (do
      match ← nextStep c h with
      | none => pure .next
      | some step =>
        match ← body.grouped with
        | .next => do
          increment h.name step
          countUp c h body n
        | flow => pure flow) := by
  funext m
  show _ = Run.andThen _ _ m
  simp only [countUp, Run.andThen]
  cases nextStep c h m with
  | failed e m' => rfl
  | outOfFuel => rfl
  | done step m' =>
    cases step with
    | none => rfl
    | some step =>
      show _ = Run.andThen _ _ m'
      simp only [Run.andThen]
      cases body.grouped m' with
      | failed e m'' => rfl
      | outOfFuel => rfl
      | done flow m'' =>
        cases flow with
        | next =>
          show _ = Run.andThen _ _ m''
          simp only [Run.andThen]
          cases increment h.name step m'' with
          | done a m => rfl
          | failed e m => rfl
          | outOfFuel => rfl
        | exit => rfl
        | jump label => rfl

/-- Where a range of lines goes on after one of them. -/
def afterLine (c : Calls) (lines : List Line) (start stop : Nat) (top : Bool) (n : Nat) :
    Cursor → Run Flow
  | .line next => linesFrom c lines start stop top n next
  | .leave (.jump label) =>
    match Block.label? lines start stop label with
    | some target => linesFrom c lines start stop top n target
    | none => if top then (Run.fail (missingLabel label)).marked else pure (.jump label)
  | .leave flow => pure flow

/-- The same for lines: one line is run, and then what its cursor asks for. -/
theorem linesFrom_succ (c : Calls) (lines : List Line) (start stop : Nat) (top : Bool) (n i : Nat) :
    linesFrom c lines start stop top (n + 1) i = (
      if stop ≤ i then pure .next
      else
        match lines[i]? with
        | none => pure .next
        | some line => do
          Run.modify fun m => { m with site.line := line.number }
          let cursor ← (runLine c lines i stop line).marked
          afterLine c lines start stop top n cursor) := by
  funext m
  simp only [linesFrom]
  split
  · rfl
  · cases lines[i]? with
    | none => rfl
    | some line =>
      show _ = Run.andThen _ _ { m with site.line := line.number }
      simp only [Run.andThen]
      cases (runLine c lines i stop line).marked { m with site.line := line.number } with
      | failed e m' => rfl
      | outOfFuel => rfl
      | done cursor m' =>
        cases cursor with
        | line next => rfl
        | leave flow =>
          cases flow with
          | next => rfl
          | exit => rfl
          | jump label =>
            simp only [afterLine]
            cases Block.label? lines start stop label with
            | some target => rfl
            | none =>
              cases top with
              | true => rfl
              | false => rfl

variable {L : Likeness} {c d : Calls}

/-! ## Conditions and actions -/

theorem requireColon_alike (line : Line) (s : Statement) :
    Alike L (requireColon line s) (requireColon line s) := alike_ite (alike_pure _) (alike_failWith _)

theorem condition_alike (hc : c.Alike L d) (line : Line) (s : Statement) :
    Alike L (condition c line s) (condition d line s) :=
  (statementArgs_alike hc line s).bind fun _ => alike_pure _

theorem addAction_alike (hc : c.Alike L d) (line : Line) (s : Statement) (code : List Line) :
    Alike L (addAction c line s code) (addAction d line s code) :=
  (statementArgs_alike hc line s).bind fun _ =>
    Alike.bind (alike_read fun ha => ha.location) fun _ => alike_addAction _

theorem inlineAction_alike (hc : c.Alike L d) (line : Line) (index stop : Nat) (s : Statement) :
    Alike L (inlineAction c line index stop s) (inlineAction d line index stop s) :=
  (requireColon_alike line s).bind fun _ =>
    alike_ite (alike_failWith _) (addAction_alike hc line s _)

/-- Which branch runs depends on the condition, and that is the same on both sides. -/
theorem inlineIf_alike (hc : c.Alike L d) (line : Line) (index stop : Nat) (s : Statement) :
    Alike L (inlineIf c line index stop s) (inlineIf d line index stop s) := by
  refine (requireColon_alike line s).bind fun _ => ?_
  refine alike_ite (alike_failWith _) ((condition_alike hc line s).bind fun yes => ?_)
  refine alike_ite (hc.statements line _ _).grouped ?_
  split
  · exact (hc.statements line _ _).grouped
  · exact alike_pure _

/-! ## Loops -/

theorem runPart_alike (hc : c.Alike L d) (line : Line) : Alike L (runPart c line) (runPart d line) :=
  hc.statements line 0 _

theorem turn_alike (hc : c.Alike L d) {body body' : Run Flow} (hb : Alike L body body')
    (step : Option Line) : Alike L (turn c body step) (turn d body' step) := by
  refine hb.grouped.bind fun flow => ?_
  split
  · split
    · exact (runPart_alike hc _).grouped
    · exact alike_pure _
  · exact alike_pure _

/-- By induction on the turns that are left, by the rule for sequences. -/
theorem turnWhile_alike (hc : c.Alike L d) (h : LoopHeader) {body body' : Run Flow}
    (hb : Alike L body body') (n : Nat) :
    Alike L (turnWhile c h body n) (turnWhile d h body' n) := by
  induction n with
  | zero => exact alike_outOfFuel
  | succ n ih =>
    rw [turnWhile_succ, turnWhile_succ]
    refine (hc.eval _).bind fun v => (alike_ofExcept _).bind fun yes => ?_
    refine alike_ite ((turn_alike hc hb h.step).bind fun flow => ?_) (alike_pure _)
    split
    · exact ih
    · exact alike_pure _

theorem runLoop_alike (hc : c.Alike L d) (line : Line) (s : Statement) {body body' : Run Flow}
    (hb : Alike L body body') : Alike L (runLoop c line s body) (runLoop d line s body') := by
  refine (requireColon_alike line s).bind fun _ => ?_
  split
  · exact alike_failWith _
  · next h _ =>
    refine Alike.grouped (Alike.bind ?_ fun flow => ?_)
    · split
      · exact runPart_alike hc _
      · exact alike_pure _
    · split
      · rw [hc.turns]
        exact turnWhile_alike hc h hb d.turns
      · exact alike_pure _

theorem evalNumber_alike (hc : c.Alike L d) (source : List Char) :
    Alike L (evalNumber c source) (evalNumber d source) :=
  (hc.eval source).bind fun _ => alike_ofExcept _

theorem counter_alike (name : VarName) : Alike L (counter name) (counter name) := by
  intro m m' h
  unfold counter
  rw [← (L.agrees h).vars]
  exact alike_ofExcept _ m m' h

/-- Bound, step and variable are numbers that both sides find alike. -/
theorem nextStep_alike (hc : c.Alike L d) (h : ForHeader) :
    Alike L (nextStep c h) (nextStep d h) := by
  refine (evalNumber_alike hc _).bind fun limit => ?_
  dsimp only
  split
  · exact (evalNumber_alike hc _).bind fun _ => (counter_alike _).bind fun _ => alike_pure _
  · exact (alike_pure _).bind fun _ => (counter_alike _).bind fun _ => alike_pure _

theorem increment_alike (name : VarName) (step : Number) :
    Alike L (increment name step) (increment name step) :=
  (counter_alike name).bind fun _ => alike_onVars _

/-- By induction on the turns. Both sides make as many. -/
theorem countUp_alike (hc : c.Alike L d) (h : ForHeader) {body body' : Run Flow}
    (hb : Alike L body body') (n : Nat) : Alike L (countUp c h body n) (countUp d h body' n) := by
  induction n with
  | zero => exact alike_outOfFuel
  | succ n ih =>
    rw [countUp_succ, countUp_succ]
    refine (nextStep_alike hc h).bind fun step => ?_
    split
    · exact alike_pure _
    · refine hb.grouped.bind fun flow => ?_
      split
      · exact (increment_alike _ _).bind fun _ => ih
      · exact alike_pure _

/-- Both sides localize the variable and give it the same first value. -/
theorem runFor_alike (hc : c.Alike L d) (line : Line) (s : Statement) {body body' : Run Flow}
    (hb : Alike L body body') : Alike L (runFor c line s body) (runFor d line s body') := by
  refine (requireColon_alike line s).bind fun _ => (alike_ofExcept _).bind fun h => ?_
  refine Alike.grouped ((hc.eval _).bind fun first => (alike_localize _).bind fun _ =>
    (alike_onVars _).bind fun _ => ?_)
  rw [hc.turns]
  exact countUp_alike hc h hb d.turns

/-! ## Statements of a line -/

/-- A statement without a block, by its kind. -/
theorem runSimple_alike (hc : c.Alike L d) (line : Line) (s : Statement) :
    Alike L (runSimple c line s) (runSimple d line s) := by
  unfold runSimple
  split
  · exact alike_pure _
  · exact alike_pure _
  · exact alike_pure _
  · exact alike_pure _
  · exact (assign_alike hc line s).bind fun _ => alike_pure _
  · exact (declare_alike hc line s).bind fun _ => alike_pure _
  · exact (statementArgs_alike hc line s).bind fun args => runStatement_alike hc _ args

/-- By induction on the statements. The blocks of a line are run by the calls of each side. -/
theorem statementsFrom_alike (hc : c.Alike L d) (line : Line) (stop index : Nat)
    (statements : List Statement) :
    Alike L (statementsFrom c line stop index statements)
      (statementsFrom d line stop index statements) := by
  induction statements generalizing index with
  | nil => exact alike_pure _
  | cons s rest ih =>
    unfold statementsFrom
    split
    · exact alike_pure _
    · exact alike_pure _
    · exact inlineIf_alike hc line index stop s
    · exact (inlineAction_alike hc line index stop s).bind fun _ => alike_pure _
    · exact runLoop_alike hc line s (hc.statements line _ _)
    · exact runFor_alike hc line s (hc.statements line _ _)
    · refine (runSimple_alike hc line s).bind fun flow => ?_
      split
      · exact ih (index + 1)
      · exact alike_pure _

theorem runStatements_alike (hc : c.Alike L d) (line : Line) (start stop : Nat) :
    Alike L (runStatements c line start stop) (runStatements d line start stop) :=
  statementsFrom_alike hc line _ _ _

/-! ## Lines -/

theorem blockEnd_alike (lines : List Line) (i stop : Nat) :
    Alike L (blockEnd lines i stop) (blockEnd lines i stop) := by
  unfold blockEnd
  split
  · exact alike_pure _
  · exact alike_failWith _

/-- A line without lines below it, or a branch reached from above. -/
theorem runSingle_alike (hc : c.Alike L d) (lines : List Line) (i stop : Nat) (line : Line) :
    Alike L (runSingle c lines i stop line) (runSingle d lines i stop line) := by
  unfold runSingle
  dsimp only
  split
  · next s _ _ _ =>
    refine (requireColon_alike line s).bind fun _ => (blockEnd_alike lines i stop).bind fun e =>
      (condition_alike hc line s).bind fun yes => alike_ite ?_ (alike_pure _)
    exact (hc.statements line _ _).grouped.bind fun _ => alike_pure _
  · refine (blockEnd_alike lines i stop).bind fun e => alike_ite ?_ ?_
    · exact (hc.statements line _ _).grouped.bind fun _ => alike_pure _
    · exact (hc.lines lines _ _ _).grouped.bind fun _ => alike_pure _
  · exact (hc.statements line _ _).bind fun _ => alike_pure _

/-- Where the block of a header ends is a matter of the lines alone. -/
theorem runHeader_alike (hc : c.Alike L d) (lines : List Line) (i stop : Nat) (line : Line) :
    Alike L (runHeader c lines i stop line) (runHeader d lines i stop line) := by
  refine (blockEnd_alike lines i stop).bind fun e => ?_
  have hbranch (s : Statement) (last next : Nat) :
      Alike L
        (do if ← condition c line s then
              return Cursor.after e (← (c.lines lines (i + 1) last false).grouped)
            else return .line next : Run Cursor)
        (do if ← condition d line s then
              return Cursor.after e (← (d.lines lines (i + 1) last false).grouped)
            else return .line next) :=
    (condition_alike hc line s).bind fun yes =>
      alike_ite ((hc.lines lines _ _ _).grouped.bind fun _ => alike_pure _) (alike_pure _)
  split
  · exact hbranch _ _ _
  · exact hbranch _ _ _
  · exact (addAction_alike hc line _ _).bind fun _ => alike_pure _
  · exact (runLoop_alike hc line _ (hc.lines lines _ _ _)).bind fun _ => alike_pure _
  · exact (runFor_alike hc line _ (hc.lines lines _ _ _)).bind fun _ => alike_pure _
  · exact runSingle_alike hc lines i stop line

theorem runLine_alike (hc : c.Alike L d) (lines : List Line) (i stop : Nat) (line : Line) :
    Alike L (runLine c lines i stop line) (runLine d lines i stop line) :=
  alike_ite (runHeader_alike hc lines i stop line) (runSingle_alike hc lines i stop line)

/-- By induction on the lines that may still be run; a jump finds its label on both sides or on neither. -/
theorem linesFrom_alike (hc : c.Alike L d) (lines : List Line) (start stop : Nat) (top : Bool)
    (n i : Nat) :
    Alike L (linesFrom c lines start stop top n i) (linesFrom d lines start stop top n i) := by
  induction n generalizing i with
  | zero => exact alike_outOfFuel
  | succ n ih =>
    have hafter (cursor : Cursor) :
        Alike L (afterLine c lines start stop top n cursor)
          (afterLine d lines start stop top n cursor) := by
      unfold afterLine
      split
      · exact ih _
      · split
        · exact ih _
        · exact alike_ite (alike_fail _).marked (alike_pure _)
      · exact alike_pure _
    rw [linesFrom_succ, linesFrom_succ]
    refine alike_ite (alike_pure _) ?_
    split
    · exact alike_pure _
    · next line _ =>
      refine Alike.bind (fun m m' h => .done () (L.line line.number h)) fun _ => ?_
      exact (runLine_alike hc lines i stop line).marked.bind hafter

theorem runLines_alike (hc : c.Alike L d) (lines : List Line) (start stop : Nat) (top : Bool) :
    Alike L (runLines c lines start stop top) (runLines d lines start stop top) := by
  unfold runLines
  rw [hc.turns]
  exact linesFrom_alike hc lines _ _ _ _ _

end Machine

/-! ## All calls -/

/-- Calls without fuel go alike. -/
theorem Calls.ofFuel_zero_alike (L : Likeness) : (Calls.ofFuel 0).Alike L (Calls.ofFuel 0) :=
  ⟨rfl, fun _ => Run.alike_outOfFuel, fun _ _ _ _ => Run.alike_outOfFuel,
    fun _ _ _ => Run.alike_outOfFuel⟩

/-- **All runs go alike in machines that are alike**, whatever fuel they are given. -/
theorem Calls.ofFuel_alike (L : Likeness) (n : Nat) : (Calls.ofFuel n).Alike L (Calls.ofFuel n) := by
  induction n with
  | zero => exact ofFuel_zero_alike L
  | succ n ih =>
    exact ⟨rfl, fun source => Machine.evalSource_alike ih source,
      fun lines start stop top => Machine.runLines_alike ih lines start stop top,
      fun line start stop => Machine.runStatements_alike ih line start stop⟩

end QuestScript
