import QuestScript.Machine.Eval
import QuestScript.Proofs.Discipline

/-!
# Evaluation keeps every discipline

The step from calls that keep a discipline to expressions and to calls of locations and of code that
keep it: one lemma for each function of the evaluator.
-/

namespace QuestScript.Machine

open Run

variable {D : Discipline} {c : Calls}

/-! ## Texts with expressions -/

/-- By induction on the parts of the text: only those that are code run anything. -/
theorem fill_obeys (hc : c.Obey D) (parts : List Text.Part) : (fill c parts).Obeys D := by
  induction parts with
  | nil => exact obeys_pure _
  | cons part rest ih =>
    cases part with
    | plain text => exact ih.bind fun _ => obeys_pure _
    | code source => exact (hc.eval source).bind fun _ => ih.bind fun _ => obeys_pure _
    | unclosed => exact obeys_failWith _

theorem formatText_obeys (hc : c.Obey D) (text : String) : (formatText c text).Obeys D :=
  fill_obeys hc _

/-! ## Calls -/

/-- A location that is not there is an error of a machine that has not changed. -/
theorem findLocation_obeys (name : String) : (findLocation name).Obeys D := by
  intro m
  unfold findLocation
  split
  · exact D.ok_refl m
  · exact D.err_refl m

/-- By induction on the arguments, each of which is one write. -/
theorem putArgs_obeys (args : List Value) (i : Nat) : (putArgs i args).Obeys D := by
  induction args generalizing i with
  | nil => exact obeys_pure _
  | cons v vs ih => exact (obeys_onVars fun _ => .putRaw "ARGS" i v).bind fun _ => ih (i + 1)

theorem bindArgs_obeys (args : List Value) : (bindArgs args).Obeys D :=
  (obeys_localize _).bind fun _ => (obeys_localize _).bind fun _ => putArgs_obeys args 0

/-- A call is nested and in a group, and everything it does happens inside of both. -/
theorem calling_obeys (args : List Value) {body : Run Unit} (hb : body.Obeys D) :
    (calling args body).Obeys D := by
  refine Obeys.nested (Obeys.grouped ?_)
  exact (bindArgs_obeys args).bind fun _ => hb.bind fun _ => obeys_read _

/-- All that the calls have to say about the lines of a body is that they keep the discipline. -/
theorem runBody_obeys (hc : c.Obey D) (lines : List Line) : (runBody c lines).Obeys D :=
  (hc.lines lines 0 lines.length true).bind fun _ => obeys_pure _

/-- By induction on the actions. An error in one of them is marked, which a discipline allows. -/
theorem showActions_obeys (hc : c.Obey D) (location : String) (actions : List LocationAction) :
    (showActions c location actions).Obeys D := by
  induction actions with
  | nil => exact obeys_pure _
  | cons a rest ih =>
    exact (formatText_obeys hc _).marked.bind fun _ =>
      (obeys_addAction _).marked.bind fun _ => ih

/-- A description is put on the screen in one of two ways, each of which is one change. -/
theorem introduce_obeys (hc : c.Obey D) (l : Location) (replace : Bool) :
    (introduce c l replace).Obeys D := by
  refine (formatText_obeys hc _).marked.bind fun text => ?_
  refine Obeys.bind (obeys_onScreen fun s => ?_) fun _ => showActions_obeys hc _ _
  cases replace with
  | true => exact .setMain text
  | false => exact .appendMain text

theorem showLocation_obeys (hc : c.Obey D) (l : Location) (replace : Bool) :
    (showLocation c l replace).Obeys D :=
  (introduce_obeys hc l replace).bind fun _ => runBody_obeys hc _

theorem runLocation_obeys (hc : c.Obey D) (name : String) (replace : Bool) :
    (runLocation c name replace).Obeys D :=
  (findLocation_obeys name).bind fun l => (showLocation_obeys hc l replace).atSite _

theorem callLocation_obeys (hc : c.Obey D) (name : String) (args : List Value) (replace : Bool) :
    (callLocation c name args replace).Obeys D :=
  calling_obeys args (runLocation_obeys hc name replace)

theorem callCode_obeys (hc : c.Obey D) (code : String) (args : List Value) :
    (callCode c code args).Obeys D :=
  calling_obeys args (runBody_obeys hc _)

theorem describe_obeys (hc : c.Obey D) (name : String) : (describe c name).Obeys D :=
  (findLocation_obeys name).bind fun _ => formatText_obeys hc _

/-! ## Operations -/

/-- One case for each operation that is more than a computation. -/
theorem perform_obeys (hc : c.Obey D) (op : Op) (args : List Value) : (perform c op args).Obeys D := by
  fun_cases perform
  · exact (obeys_random _ _).map _
  · exact (obeys_random _ _).map _
  · exact (obeys_name _).bind fun _ => (obeys_pattern _).bind fun _ => obeys_read _
  · exact (obeys_pattern _).bind fun _ => obeys_pure _
  · exact (obeys_pattern _).bind fun _ => obeys_pure _
  · exact (obeys_pattern _).bind fun _ => obeys_pure _
  · exact (callLocation_obeys hc _ _ _).bind fun _ => obeys_pure _
  · exact (callCode_obeys hc _ _).bind fun _ => obeys_pure _
  · exact (describe_obeys hc _).map _
  · exact fun m => D.host m _
  · exact fun m => D.host m _
  · exact obeys_msecs.map _
  · exact obeys_failWith _

/-- What can be computed from the arguments, or read off the machine, changes nothing. -/
theorem applyOp_obeys (hc : c.Obey D) (op : Op) (args : List Value) : (applyOp c op args).Obeys D := by
  unfold applyOp
  split
  · exact obeys_ofExcept _
  · intro m
    dsimp only
    split
    · exact obeys_ofExcept _ m
    · exact perform_obeys hc op args m

/-! ## Instructions -/

theorem stepOp_obeys (hc : c.Obey D) (stamp : Nat) (i : Instruction) (stack : List Value) :
    (stepOp c stamp i stack).Obeys D := by
  unfold stepOp
  split
  · exact obeys_fail _
  · refine (obeys_ofExcept _).bind fun args => (applyOp_obeys hc i.op args).bind fun v => ?_
    split
    · exact (obeys_checkMoves stamp).bind fun _ => obeys_pure _
    · exact obeys_pure _

/-- Most instructions only move values on the stack. Variables are read, texts are formatted, and
operations are applied. -/
theorem step_obeys (hc : c.Obey D) (stamp : Nat) (i : Instruction) (stack : List Value) :
    (step c stamp i stack).Obeys D := by
  unfold step
  split
  · exact obeys_pure _
  · exact (formatText_obeys hc _).bind fun _ => (obeys_checkMoves stamp).bind fun _ => obeys_pure _
  · split
    · exact (obeys_name _).bind fun _ => (obeys_read _).bind fun _ => obeys_pure _
    · exact obeys_fail _
    · exact (obeys_name _).bind fun _ => (obeys_read _).bind fun _ => obeys_pure _
  · exact (obeys_name _).bind fun _ => (obeys_read _).bind fun _ => obeys_pure _
  · exact obeys_pure _
  · exact (obeys_ofExcept _).bind fun _ => obeys_pure _
  · exact (obeys_ofExcept _).bind fun _ => obeys_pure _
  · exact (obeys_ofExcept _).bind fun _ => obeys_pure _
  · exact (obeys_ofExcept _).bind fun _ => obeys_pure _
  · exact (obeys_ofExcept _).bind fun _ => obeys_pure _
  · exact obeys_fail _
  · exact obeys_fail _
  · exact obeys_fail _
  · exact obeys_fail _
  · exact obeys_fail _
  · exact (stepOp_obeys hc stamp i _).bind fun _ => obeys_pure _

/-- By induction on the code that is left; a jump goes forward, so that it only passes some of it by. -/
theorem runCode_obeys (hc : c.Obey D) (stamp pc resume : Nat) (stack : List Value)
    (code : List Instruction) : (runCode c stamp pc resume stack code).Obeys D := by
  induction code generalizing pc resume stack with
  | nil =>
    cases stack with
    | nil => exact obeys_fail _
    | cons v stack => exact obeys_pure v
  | cons i rest ih =>
    unfold runCode
    split
    · exact ih _ _ _
    · exact (step_obeys hc stamp i stack).bind fun _ => ih _ _ _

theorem evaluate_obeys (hc : c.Obey D) (code : Code) : (evaluate c code).Obeys D :=
  fun m => runCode_obeys hc m.moves 0 0 [] code.toList m

theorem evalSource_obeys (hc : c.Obey D) (source : List Char) : (evalSource c source).Obeys D :=
  (obeys_compiled source).bind fun code => evaluate_obeys hc code

end QuestScript.Machine
