import QuestScript.Machine.Block
import QuestScript.Proofs.Discipline.Statement

/-!
# Blocks keep every discipline

The rest of the way from calls that keep a discipline to lines and blocks that keep it, and the
induction on the fuel that closes the circle: `Calls.ofFuel_obey`.
-/

namespace QuestScript

namespace Machine

open Run

variable {D : Discipline} {c : Calls}

/-! ## Conditions and actions -/

/-- A header without its colon is an error before anything has changed. -/
theorem requireColon_obeys (line : Line) (s : Statement) : (requireColon line s).Obeys D := by
  unfold requireColon
  split
  · exact obeys_pure _
  · exact obeys_failWith _

theorem condition_obeys (hc : c.Obey D) (line : Line) (s : Statement) :
    (condition c line s).Obeys D :=
  (statementArgs_obeys hc line s).bind fun _ => obeys_pure _

theorem addAction_obeys (hc : c.Obey D) (line : Line) (s : Statement) (code : List Line) :
    (addAction c line s code).Obeys D :=
  (statementArgs_obeys hc line s).bind fun _ => (obeys_read _).bind fun _ => obeys_addAction _

theorem inlineAction_obeys (hc : c.Obey D) (line : Line) (index stop : Nat) (s : Statement) :
    (inlineAction c line index stop s).Obeys D := by
  refine (requireColon_obeys line s).bind fun _ => ?_
  split
  · exact obeys_failWith _
  · exact addAction_obeys hc line s _

/-- Each branch of a conditional in one line runs in a group of its own. -/
theorem inlineIf_obeys (hc : c.Obey D) (line : Line) (index stop : Nat) (s : Statement) :
    (inlineIf c line index stop s).Obeys D := by
  refine (requireColon_obeys line s).bind fun _ => ?_
  refine obeys_ite (obeys_failWith _) ((condition_obeys hc line s).bind fun yes => ?_)
  refine obeys_ite (hc.statements line _ _).grouped ?_
  split
  · exact (hc.statements line _ _).grouped
  · exact obeys_pure _

/-! ## Loops -/

theorem runPart_obeys (hc : c.Obey D) (line : Line) : (runPart c line).Obeys D :=
  hc.statements line 0 _

/-- One turn of a loop: the body in a group, and after it the step in another one. -/
theorem turn_obeys (hc : c.Obey D) {body : Run Flow} (hb : body.Obeys D) (step : Option Line) :
    (turn c body step).Obeys D := by
  refine hb.grouped.bind fun flow => ?_
  split
  · split
    · exact (runPart_obeys hc _).grouped
    · exact obeys_pure _
  · exact obeys_pure _

/-- By induction on the turns that are left, each of which adds to what was done before. -/
theorem turnWhile_obeys (hc : c.Obey D) (h : LoopHeader) {body : Run Flow} (hb : body.Obeys D)
    (n : Nat) : (turnWhile c h body n).Obeys D := by
  induction n with
  | zero => exact fun _ => trivial
  | succ n ih =>
    intro m
    have hcond : (do Run.ofExcept (← c.eval h.condition).toTruth : Run Bool).Obeys D :=
      (hc.eval _).bind fun _ => obeys_ofExcept _
    have h₁ := hcond m
    unfold turnWhile
    split
    · next hm => rw [hm] at h₁; exact h₁
    · trivial
    · next hm => rw [hm] at h₁; exact h₁
    · next m' hm =>
      rw [hm] at h₁
      have h₂ := (turn_obeys hc hb h.step m').trans h₁
      split
      · next m'' ht => rw [ht] at h₂; exact (ih m'').trans h₂
      · exact h₂

/-- The group of a loop holds what its first part localizes. -/
theorem runLoop_obeys (hc : c.Obey D) (line : Line) (s : Statement) {body : Run Flow}
    (hb : body.Obeys D) : (runLoop c line s body).Obeys D := by
  refine (requireColon_obeys line s).bind fun _ => ?_
  split
  · exact obeys_failWith _
  · next h _ =>
    refine Obeys.grouped (Obeys.bind ?_ fun flow => ?_)
    · split
      · exact runPart_obeys hc _
      · exact obeys_pure _
    · split
      · exact turnWhile_obeys hc h hb c.turns
      · exact obeys_pure _

theorem evalNumber_obeys (hc : c.Obey D) (source : List Char) : (evalNumber c source).Obeys D :=
  (hc.eval source).bind fun _ => obeys_ofExcept _

theorem counter_obeys (name : VarName) : (counter name).Obeys D := fun m => obeys_ofExcept _ m

/-- The bound and the step are evaluated before every turn, and the variable is read after them. -/
theorem nextStep_obeys (hc : c.Obey D) (h : ForHeader) : (nextStep c h).Obeys D := by
  refine (evalNumber_obeys hc _).bind fun limit => ?_
  dsimp only
  split
  · exact (evalNumber_obeys hc _).bind fun _ => (counter_obeys _).bind fun _ => obeys_pure _
  · exact (obeys_pure _).bind fun _ => (counter_obeys _).bind fun _ => obeys_pure _

theorem increment_obeys (name : VarName) (step : Number) : (increment name step).Obeys D :=
  (counter_obeys name).bind fun _ => obeys_onVars fun _ => .assign _ _ _ _

/-- By induction on the turns, as for a loop with a condition. The variable is written after each turn. -/
theorem countUp_obeys (hc : c.Obey D) (h : ForHeader) {body : Run Flow} (hb : body.Obeys D)
    (n : Nat) : (countUp c h body n).Obeys D := by
  induction n with
  | zero => exact fun _ => trivial
  | succ n ih =>
    intro m
    have h₁ := nextStep_obeys hc h m
    unfold countUp
    split
    · next hm => rw [hm] at h₁; exact h₁
    · trivial
    · next hm => rw [hm] at h₁; exact h₁
    · next step m' hm =>
      rw [hm] at h₁
      have h₂ := (hb.grouped m').trans h₁
      split
      · next ht => rw [ht] at h₂; exact h₂
      · trivial
      · next m'' ht =>
        rw [ht] at h₂
        have h₃ := (increment_obeys h.name step m'').trans h₂
        split
        · next hi => rw [hi] at h₃; exact h₃
        · trivial
        · next m₃ hi => rw [hi] at h₃; exact (ih m₃).trans h₃
      · next ht => rw [ht] at h₂; exact h₂

/-- The variable of a counting loop is local to the group of the loop. -/
theorem runFor_obeys (hc : c.Obey D) (line : Line) (s : Statement) {body : Run Flow}
    (hb : body.Obeys D) : (runFor c line s body).Obeys D := by
  refine (requireColon_obeys line s).bind fun _ => (obeys_ofExcept _).bind fun h => Obeys.grouped ?_
  refine (hc.eval _).bind fun first => (obeys_localize _).bind fun _ => Obeys.bind ?_ fun _ =>
    countUp_obeys hc h hb c.turns
  exact obeys_onVars fun _ => .assign _ _ _ _

/-! ## Statements of a line -/

theorem runSimple_obeys (hc : c.Obey D) (line : Line) (s : Statement) :
    (runSimple c line s).Obeys D := by
  unfold runSimple
  split
  · exact obeys_pure _
  · exact obeys_pure _
  · exact obeys_pure _
  · exact obeys_pure _
  · exact (assign_obeys hc line s).bind fun _ => obeys_pure _
  · exact (declare_obeys hc line s).bind fun _ => obeys_pure _
  · exact (statementArgs_obeys hc line s).bind fun args => runStatement_obeys hc _ args

/-- By induction on the statements of the line. A block takes all that follow it. -/
theorem statementsFrom_obeys (hc : c.Obey D) (line : Line) (stop index : Nat)
    (statements : List Statement) : (statementsFrom c line stop index statements).Obeys D := by
  induction statements generalizing index with
  | nil => exact obeys_pure _
  | cons s rest ih =>
    unfold statementsFrom
    split
    · exact obeys_pure _
    · exact obeys_pure _
    · exact inlineIf_obeys hc line index stop s
    · exact (inlineAction_obeys hc line index stop s).bind fun _ => obeys_pure _
    · exact runLoop_obeys hc line s (hc.statements line _ _)
    · exact runFor_obeys hc line s (hc.statements line _ _)
    · refine (runSimple_obeys hc line s).bind fun flow => ?_
      split
      · exact ih (index + 1)
      · exact obeys_pure _

theorem runStatements_obeys (hc : c.Obey D) (line : Line) (start stop : Nat) :
    (runStatements c line start stop).Obeys D := statementsFrom_obeys hc line _ _ _

/-! ## Lines -/

theorem blockEnd_obeys (lines : List Line) (i stop : Nat) : (blockEnd lines i stop).Obeys D := by
  unfold blockEnd
  split
  · exact obeys_pure _
  · exact obeys_failWith _

/-- A line without a block on the lines below it, or a branch that is reached from above. -/
theorem runSingle_obeys (hc : c.Obey D) (lines : List Line) (i stop : Nat) (line : Line) :
    (runSingle c lines i stop line).Obeys D := by
  unfold runSingle
  dsimp only
  split
  · next s _ _ _ =>
    refine (requireColon_obeys line s).bind fun _ => (blockEnd_obeys lines i stop).bind fun e =>
      (condition_obeys hc line s).bind fun yes => ?_
    split
    · exact (hc.statements line _ _).grouped.bind fun _ => obeys_pure _
    · exact obeys_pure _
  · refine (blockEnd_obeys lines i stop).bind fun e => ?_
    split
    · exact (hc.statements line _ _).grouped.bind fun _ => obeys_pure _
    · exact (hc.lines lines _ _ _).grouped.bind fun _ => obeys_pure _
  · exact (hc.statements line _ _).bind fun _ => obeys_pure _

/-- The header of a block: the end of the block is looked for before anything is run. -/
theorem runHeader_obeys (hc : c.Obey D) (lines : List Line) (i stop : Nat) (line : Line) :
    (runHeader c lines i stop line).Obeys D := by
  refine (blockEnd_obeys lines i stop).bind fun e => ?_
  split
  · refine (condition_obeys hc line _).bind fun yes => ?_
    split
    · exact (hc.lines lines _ _ _).grouped.bind fun _ => obeys_pure _
    · exact obeys_pure _
  · refine (condition_obeys hc line _).bind fun yes => ?_
    split
    · exact (hc.lines lines _ _ _).grouped.bind fun _ => obeys_pure _
    · exact obeys_pure _
  · exact (addAction_obeys hc line _ _).bind fun _ => obeys_pure _
  · exact (runLoop_obeys hc line _ (hc.lines lines _ _ _)).bind fun _ => obeys_pure _
  · exact (runFor_obeys hc line _ (hc.lines lines _ _ _)).bind fun _ => obeys_pure _
  · exact runSingle_obeys hc lines i stop line

theorem runLine_obeys (hc : c.Obey D) (lines : List Line) (i stop : Nat) (line : Line) :
    (runLine c lines i stop line).Obeys D := by
  unfold runLine
  split
  · exact runHeader_obeys hc lines i stop line
  · exact runSingle_obeys hc lines i stop line

/-- By induction on how many lines may still be run: what one line does, and the others from there. -/
theorem linesFrom_obeys (hc : c.Obey D) (lines : List Line) (start stop : Nat) (top : Bool)
    (n i : Nat) : (linesFrom c lines start stop top n i).Obeys D := by
  induction n generalizing i with
  | zero => exact fun _ => trivial
  | succ n ih =>
    intro m
    unfold linesFrom
    split
    · exact D.ok_refl m
    · split
      · exact D.ok_refl m
      · next line _ =>
        have h₁ := ((runLine_obeys hc lines i stop line).marked _).trans
          (D.site m { m.site with line := line.number })
        split
        · next hm => rw [hm] at h₁; exact h₁
        · trivial
        · next next m' hm => rw [hm] at h₁; exact (ih next m').trans h₁
        · next label m' hm =>
          rw [hm] at h₁
          split
          · next target _ => exact (ih target m').trans h₁
          · split
            · exact (obeys_fail (α := Flow) (missingLabel label)).marked m' |>.trans h₁
            · exact h₁
        · next hm => rw [hm] at h₁; exact h₁

theorem runLines_obeys (hc : c.Obey D) (lines : List Line) (start stop : Nat) (top : Bool) :
    (runLines c lines start stop top).Obeys D := linesFrom_obeys hc lines _ _ _ _ _

end Machine

/-! ## All calls -/

/-- **Every run keeps every discipline**, whatever fuel it is given. -/
theorem Calls.ofFuel_obey (D : Discipline) (n : Nat) : (Calls.ofFuel n).Obey D := by
  induction n with
  | zero => exact ⟨fun _ _ => trivial, fun _ _ _ _ _ => trivial, fun _ _ _ _ => trivial⟩
  | succ n ih =>
    exact ⟨fun source => Machine.evalSource_obeys ih source,
      fun lines start stop top => Machine.runLines_obeys ih lines start stop top,
      fun line start stop => Machine.runStatements_obeys ih line start stop⟩

end QuestScript
