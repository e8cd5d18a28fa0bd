import QuestScript.Machine.Eval
import QuestScript.Proofs.Likeness

/-!
# Evaluations go alike

The step from calls that go alike to expressions and to calls of locations and of code that do: one
lemma for each function of the evaluator.
-/

namespace QuestScript.Machine

open Run

variable {L : Likeness} {c d : Calls}

/-! ## Texts with expressions -/

/-- By induction on the parts, as for disciplines: expressions are run by the calls of both sides. -/
theorem fill_alike (hc : c.Alike L d) (parts : List Text.Part) :
    Alike L (fill c parts) (fill d parts) := by
  induction parts with
  | nil => exact alike_pure _
  | cons part rest ih =>
    cases part with
    | plain text => exact ih.bind fun _ => alike_pure _
    | code source => exact (hc.eval source).bind fun _ => ih.bind fun _ => alike_pure _
    | unclosed => exact alike_failWith _

theorem formatText_alike (hc : c.Alike L d) (text : String) :
    Alike L (formatText c text) (formatText d text) := fill_alike hc _

/-! ## Calls -/

/-- Both machines have the same world. -/
theorem findLocation_alike (name : String) : Alike L (findLocation name) (findLocation name) := by
  intro m m' h
  unfold findLocation
  rw [← (L.agrees h).world]
  split
  · exact .done _ h
  · exact .failed _ (L.fail _ h)

theorem putArgs_alike (args : List Value) (i : Nat) : Alike L (putArgs i args) (putArgs i args) := by
  induction args generalizing i with
  | nil => exact alike_pure _
  | cons v vs ih => exact (alike_onVars _).bind fun _ => ih (i + 1)

theorem bindArgs_alike (args : List Value) : Alike L (bindArgs args) (bindArgs args) :=
  (alike_localize _).bind fun _ => (alike_localize _).bind fun _ => putArgs_alike args 0

/-- The bodies may differ, as long as they go alike. -/
theorem calling_alike (args : List Value) {body body' : Run Unit} (hb : Alike L body body') :
    Alike L (calling args body) (calling args body') := by
  refine Alike.nested (Alike.grouped ?_)
  refine (bindArgs_alike args).bind fun _ => hb.bind fun _ => alike_read fun ha => ?_
  rw [ha.vars]

theorem runBody_alike (hc : c.Alike L d) (lines : List Line) :
    Alike L (runBody c lines) (runBody d lines) :=
  (hc.lines lines 0 lines.length true).bind fun _ => alike_pure _

/-- Along the actions of a location, which both machines have from the same world. -/
theorem showActions_alike (hc : c.Alike L d) (location : String) (actions : List LocationAction) :
    Alike L (showActions c location actions) (showActions d location actions) := by
  induction actions with
  | nil => exact alike_pure _
  | cons a rest ih =>
    exact (formatText_alike hc _).marked.bind fun _ =>
      (alike_addAction _).marked.bind fun _ => ih

/-- The description is written in a way that looks at no flag. -/
theorem introduce_alike (hc : c.Alike L d) (l : Location) (replace : Bool) :
    Alike L (introduce c l replace) (introduce d l replace) := by
  refine (formatText_alike hc _).marked.bind fun text => ?_
  refine Alike.bind (alike_onScreen ?_) fun _ => showActions_alike hc _ _
  cases replace with
  | true => exact Screen.blind_setMain text
  | false => exact Screen.blind_appendMain text

theorem showLocation_alike (hc : c.Alike L d) (l : Location) (replace : Bool) :
    Alike L (showLocation c l replace) (showLocation d l replace) :=
  (introduce_alike hc l replace).bind fun _ => runBody_alike hc _

theorem runLocation_alike (hc : c.Alike L d) (name : String) (replace : Bool) :
    Alike L (runLocation c name replace) (runLocation d name replace) :=
  (findLocation_alike name).bind fun l => (showLocation_alike hc l replace).atSite _

theorem callLocation_alike (hc : c.Alike L d) (name : String) (args : List Value) (replace : Bool) :
    Alike L (callLocation c name args replace) (callLocation d name args replace) :=
  calling_alike args (runLocation_alike hc name replace)

theorem callCode_alike (hc : c.Alike L d) (code : String) (args : List Value) :
    Alike L (callCode c code args) (callCode d code args) :=
  calling_alike args (runBody_alike hc _)

theorem describe_alike (hc : c.Alike L d) (name : String) :
    Alike L (describe c name) (describe d name) :=
  (findLocation_alike name).bind fun _ => formatText_alike hc _

/-! ## Operations -/

/-- Nothing that an operation reads depends on the flags of the screen. -/
theorem inspect?_congr {m m' : Machine} (ha : m.Agrees m') (op : Op) (args : List Value) :
    inspect? op args m = inspect? op args m' := by
  have hs := Screen.eq_of_clearChanges ha.screen
  unfold inspect?
  rw [ha.world, ha.vars, ha.host, hs]
  rfl

/-- One case for each operation that is more than a computation. The answers of the host and the time are
the same on both sides. -/
theorem perform_alike (hc : c.Alike L d) (op : Op) (args : List Value) :
    Alike L (perform c op args) (perform d op args) := by
  cases op
  case rand => exact (alike_random _ _).map _
  case rnd => exact (alike_random _ _).map _
  case arrComp =>
    refine (alike_name _).bind fun _ => (alike_pattern _).bind fun _ => alike_read fun ha => ?_
    rw [ha.vars]
  case strComp => exact (alike_pattern _).bind fun _ => alike_pure _
  case strFind => exact (alike_pattern _).bind fun _ => alike_pure _
  case strPos => exact (alike_pattern _).bind fun _ => alike_pure _
  case func => exact (callLocation_alike hc _ _ _).bind fun _ => alike_pure _
  case dynEval => exact (callCode_alike hc _ _).bind fun _ => alike_pure _
  case desc => exact (describe_alike hc _).map _
  case input =>
    exact alike_askHost (fun host => Value.text (host.input (textAt args 0)).1)
      (fun host => (host.input (textAt args 0)).2) fun _ => rfl
  case isPlay =>
    exact alike_askHost (fun host => Value.ofBool (host.isPlaying (textAt args 0)).1)
      (fun host => (host.isPlaying (textAt args 0)).2) fun _ => rfl
  case msecsCount => exact alike_msecs.map _
  -- no other operation is performed
  all_goals exact alike_failWith _

/-- What an operation reads off the machine is the same in machines that agree. -/
theorem applyOp_alike (hc : c.Alike L d) (op : Op) (args : List Value) :
    Alike L (applyOp c op args) (applyOp d op args) := by
  unfold applyOp
  split
  · exact alike_ofExcept _
  · intro m m' h
    dsimp only
    rw [← inspect?_congr (L.agrees h)]
    split
    · exact alike_ofExcept _ _ _ h
    · exact perform_alike hc op args _ _ h

/-! ## Instructions -/

/-- An operation that may have changed the location is compared by its stamps. -/
theorem stepOp_alike (hc : c.Alike L d) {s s' : Nat} (hs : L.Stamps s s') (i : Instruction)
    (stack : List Value) : Alike L (stepOp c s i stack) (stepOp d s' i stack) := by
  unfold stepOp
  split
  · exact alike_fail _
  · refine (alike_ofExcept _).bind fun args => (applyOp_alike hc i.op args).bind fun v => ?_
    split
    · exact (alike_checkMoves hs).bind fun _ => alike_pure _
    · exact alike_pure _

/-- A variable that an instruction names is the same in both machines. -/
theorem readVar_alike {f : VarName → Machine → Value}
    (hf : ∀ n {m m' : Machine}, m.Agrees m' → f n m = f n m') (i : Instruction) (stack : List Value) :
    let x : Run Stepped := do
      let n ← Run.name (literalName i)
      let v ← Run.read (f n)
      return (v :: stack, none)
    Alike L x x :=
  (alike_name _).bind fun n => (alike_read fun ha => hf n ha).bind fun _ => alike_pure _

/-- Variables are read alike, since both machines have the same ones; the rest is on the stack. -/
theorem step_alike (hc : c.Alike L d) {s s' : Nat} (hs : L.Stamps s s') (i : Instruction)
    (stack : List Value) : Alike L (step c s i stack) (step d s' i stack) := by
  unfold step
  split
  · exact alike_pure _
  · exact (formatText_alike hc _).bind fun _ => (alike_checkMoves hs).bind fun _ => alike_pure _
  · split
    · exact readVar_alike (fun _ _ _ ha => by rw [ha.vars]) i _
    · exact alike_fail _
    · exact readVar_alike (fun _ _ _ ha => by rw [ha.vars]) i _
  · exact readVar_alike (fun _ _ _ ha => by rw [ha.vars]) i _
  · exact alike_pure _
  · exact (alike_ofExcept _).bind fun _ => alike_pure _
  · exact (alike_ofExcept _).bind fun _ => alike_pure _
  · exact (alike_ofExcept _).bind fun _ => alike_pure _
  · exact (alike_ofExcept _).bind fun _ => alike_pure _
  · exact (alike_ofExcept _).bind fun _ => alike_pure _
  · exact alike_fail _
  · exact alike_fail _
  · exact alike_fail _
  · exact alike_fail _
  · exact alike_fail _
  · exact (stepOp_alike hc hs i _).bind fun _ => alike_pure _

/-- By induction on the code that is left, with the same stack and the same jumps on both sides. -/
theorem runCode_alike (hc : c.Alike L d) {s s' : Nat} (hs : L.Stamps s s') (pc resume : Nat)
    (stack : List Value) (code : List Instruction) :
    Alike L (runCode c s pc resume stack code) (runCode d s' pc resume stack code) := by
  induction code generalizing pc resume stack with
  | nil =>
    cases stack with
    | nil => exact alike_fail _
    | cons v stack => exact alike_pure v
  | cons i rest ih =>
    unfold runCode
    split
    · exact ih _ _ _
    · exact (step_alike hc hs i stack).bind fun _ => ih _ _ _

/-- Each side counts from its own number of moves, and these two numbers belong together. -/
theorem evaluate_alike (hc : c.Alike L d) (code : Code) :
    Alike L (evaluate c code) (evaluate d code) :=
  fun m m' h => runCode_alike hc ⟨m, m', h, rfl, rfl⟩ 0 0 [] code.toList m m' h

theorem evalSource_alike (hc : c.Alike L d) (source : List Char) :
    Alike L (evalSource c source) (evalSource d source) :=
  (alike_compiled source).bind fun code => evaluate_alike hc code

end QuestScript.Machine
