import Mathlib.Logic.Relation
import QuestScript.Proofs.Block.Range

/-!
# Control with an explicit stack

Blocks, loops and branches run as nested calls, so the blocks that are open around a statement
cannot be seen in a machine. This file runs a body step by step and keeps them in a list of frames,
the innermost one first:

* a `Point` is a place in the code, with all that is left to run from there to the end of its
  stretch;
* a `Frame` is what is left to do when the stretch of code inside it has ended;
* a `Config` is a point, or the flow with which a stretch has ended, under its frames.

A step evaluates at most one header or one simple statement. `Config.outcome` is how a configuration
ends according to the functions of the machine, and `outcome_step` says that no step changes it. So
the steps from the first line of a body on are the run of that body.
-/

namespace QuestScript

namespace Control

open Machine

/-! ## Places in the code -/

/-- Code that a header leads into: lines of the body, or statements of a line. -/
inductive Stretch where
  | lines (start stop : Nat)
  | statements (line : Line) (start stop : Nat)

/-- Lines that are being run, with the fuel of the calls in them. -/
structure Range where
  fuel : Nat
  start : Nat
  stop : Nat
  top : Bool

/-- A loop that is being run: its header, its body and the fuel of the calls in them. -/
structure Loop (Header : Type) where
  fuel : Nat
  header : Header
  body : Stretch

/-- A place in the code. -/
inductive Point where
  /-- The lines of a range from `index` on, at most `n` of them. -/
  | lines (range : Range) (n index : Nat)
  /-- Statements of a line, the first of which is number `index`. -/
  | statements (fuel : Nat) (line : Line) (stop index : Nat) (rest : List Statement)
  /-- Turns of a loop, at most `n` of them. -/
  | turns (loop : Loop LoopHeader) (n : Nat)
  /-- Turns of a counting loop, at most `n` of them. -/
  | counts (loop : Loop ForHeader) (n : Nat)

/-- What is left to do when the code inside has ended. -/
inductive Frame where
  /-- Close the group that was opened at depth `mark`. -/
  | group (mark : Nat)
  /-- Go on in the range, at line `next` if nothing else is asked for. -/
  | line (range : Range) (n next : Nat)
  /-- The step of a loop after its body. -/
  | step (loop : Loop LoopHeader) (n : Nat)
  /-- The turns of a loop after what comes before them. -/
  | turns (loop : Loop LoopHeader) (n : Nat)
  /-- Add the step to the variable of a counting loop and go on counting. -/
  | count (loop : Loop ForHeader) (amount : Number) (n : Nat)

/-- Where the control is. -/
inductive Focus where
  | running (point : Point)
  | ended (flow : Flow)

/-- Code that has been entered, and the frames that were opened on the way. -/
structure Entry where
  focus : Focus
  frames : List Frame := []

/-- The same under further frames. -/
def Entry.push (e : Entry) (frames : List Frame) : Entry := { e with frames := e.frames ++ frames }

/-! ## What is left to run -/

def Stretch.run (c : Calls) (lines : List Line) : Stretch → Run Flow
  | .lines start stop => c.lines lines start stop false
  | .statements line start stop => c.statements line start stop

def Range.calls (r : Range) : Calls := Calls.ofFuel r.fuel

def Loop.calls {Header : Type} (l : Loop Header) : Calls := Calls.ofFuel l.fuel

def Range.run (lines : List Line) (r : Range) (n i : Nat) : Run Flow :=
  linesFrom r.calls lines r.start r.stop r.top n i

def Loop.turnWhile (lines : List Line) (l : Loop LoopHeader) (n : Nat) : Run Flow :=
  Machine.turnWhile l.calls l.header (l.body.run l.calls lines) n

def Loop.countUp (lines : List Line) (l : Loop ForHeader) (n : Nat) : Run Flow :=
  Machine.countUp l.calls l.header (l.body.run l.calls lines) n

/-- All that is left to run from a point on. -/
def Point.run (lines : List Line) : Point → Run Flow
  | .lines range n i => range.run lines n i
  | .statements fuel line stop index rest => statementsFrom (Calls.ofFuel fuel) line stop index rest
  | .turns loop n => loop.turnWhile lines n
  | .counts loop n => loop.countUp lines n

/-- What is left to run at the place of the next step. -/
def Focus.run (lines : List Line) : Focus → Run Flow
  | .running point => point.run lines
  | .ended flow => pure flow

/-- What a frame does with the flow with which the code inside it has ended. -/
def Frame.resume (lines : List Line) : Frame → Flow → Run Flow
  | .group mark, flow => do
    Run.modify (Run.release mark true)
    return flow
  | .line range n next, flow =>
    afterLine range.calls lines range.start range.stop range.top n (Cursor.after next flow)
  | .step loop n, .next => do
    match loop.header.step with
    | some part =>
      match ← (runPart loop.calls part).grouped with
      | .next => loop.turnWhile lines n
      | flow => pure flow
    | none => loop.turnWhile lines n
  | .turns loop n, .next => loop.turnWhile lines n
  | .count loop amount n, .next => do
    increment loop.header.name amount
    loop.countUp lines n
  | _, flow => pure flow

/-- What a frame does to the machine when the code inside it fails. -/
def Frame.spoil : Frame → Error → Machine → Machine
  | .group mark, _, m => Run.release mark false m
  | .line _ _ _, e, m => m.markError e
  | _, _, m => m

/-- How a frame ends, by how the code inside it does. -/
def Frame.close (lines : List Line) (f : Frame) : Outcome Flow → Outcome Flow
  | .done flow m => f.resume lines flow m
  | .failed e m => .failed e (f.spoil e m)
  | .outOfFuel => .outOfFuel

/-- How all frames end, the innermost one first. -/
def closeAll (lines : List Line) : List Frame → Outcome Flow → Outcome Flow
  | [], r => r
  | f :: fs, r => closeAll lines fs (f.close lines r)

/-- A run under open frames. -/
def under (lines : List Line) (frames : List Frame) (x : Run Flow) : Run Flow := fun m =>
  closeAll lines frames (x m)

/-- What is entered, and then what its frames do with the flow. -/
def Entry.run (lines : List Line) (e : Entry) : Run Flow := under lines e.frames (e.focus.run lines)

/-! ## Going into the code -/

/-- A point at the start of a stretch of code. -/
def Stretch.start (fuel : Nat) (lines : List Line) : Stretch → Point
  | .lines start stop =>
    .lines ⟨fuel, start, min stop lines.length, false⟩ (Calls.ofFuel fuel).turns start
  | .statements line start stop =>
    .statements fuel line (min stop line.statements.length) start
      ((line.statements.take (min stop line.statements.length)).drop start)

/-- Enter a stretch of code, which takes fuel. -/
def enter (lines : List Line) (code : Stretch) : Nat → Run Entry
  | 0 => fun _ => .outOfFuel
  | fuel + 1 => pure ⟨.running (code.start fuel lines), []⟩

/-- Enter code in a group of its own. -/
def inGroup (x : Run Entry) : Run Entry := fun m =>
  match x { m with saves := m.saves.allocate } with
  | .done entry m' => .done (entry.push [.group m.saves.depth]) m'
  | .failed e m' => .failed e (Run.release m.saves.depth false m')
  | .outOfFuel => .outOfFuel

/-- Enter code under a frame. -/
def inFrame (f : Frame) (x : Run Entry) : Run Entry := do return (← x).push [f]

/-- The statements of a part of a header. -/
def Stretch.part (line : Line) : Stretch := .statements line 0 line.statements.length

/-- Enter a loop: what comes before its turns, if there is something. -/
def enterLoop (lines : List Line) (fuel : Nat) (line : Line) (s : Statement) (body : Stretch) : Run Entry := do
  requireColon line s
  match LoopHeader.read (line.params s) line.number with
  | none => Run.failWith .missingWhile
  | some h =>
    let loop : Loop LoopHeader := ⟨fuel, h, body⟩
    inGroup (match h.init with
      | some init => inFrame (.turns loop loop.calls.turns) (enter lines (.part init) fuel)
      | none => return ⟨.running (.turns loop loop.calls.turns), []⟩)

/-- Enter a counting loop, with the first value of its variable. -/
def enterFor (fuel : Nat) (line : Line) (s : Statement) (body : Stretch) : Run Entry := do
  requireColon line s
  let h ← Run.ofExcept (ForHeader.read (line.params s))
  let loop : Loop ForHeader := ⟨fuel, h, body⟩
  inGroup do
    let first ← loop.calls.eval h.init
    Run.localize h.name.key
    Run.onVars (·.assign h.name (some 0) .set first)
    return ⟨.running (.counts loop loop.calls.turns), []⟩

/-- Enter a branch of a conditional on one line. -/
def enterIf (lines : List Line) (fuel : Nat) (line : Line) (index stop : Nat) (s : Statement) : Run Entry := do
  requireColon line s
  let branch := Block.inlineElse? 0 (index + 1) ((line.statements.take stop).drop (index + 1))
  let hollow :=
    match branch with
    | some e => e == index + 1 || e + 1 == stop
    | none => index + 1 == stop
  if hollow then Run.failWith .missingCode
  else if ← condition (Calls.ofFuel fuel) line s then
    inGroup (enter lines (.statements line (index + 1) (branch.getD stop)) fuel)
  else
    match branch with
    | some e => inGroup (enter lines (.statements line (e + 1) stop) fuel)
    | none => return ⟨.ended .next, []⟩

/-- The next of the statements of a line. -/
def enterStatement (lines : List Line) (fuel : Nat) (line : Line) (stop index : Nat) :
    List Statement → Run Entry
  | [] => return ⟨.ended .next, []⟩
  | s :: rest =>
    match s.kind with
    | .comment | .elseIf => return ⟨.ended .next, []⟩
    | .ifThen => enterIf lines fuel line index stop s
    | .act => do
      inlineAction (Calls.ofFuel fuel) line index stop s
      return ⟨.ended .next, []⟩
    | .loop => enterLoop lines fuel line s (.statements line (index + 1) stop)
    | .forTo => enterFor fuel line s (.statements line (index + 1) stop)
    | _ => do
      match ← runSimple (Calls.ofFuel fuel) line s with
      | .next => return ⟨.running (.statements fuel line stop (index + 1) rest), []⟩
      | flow => return ⟨.ended flow, []⟩

/-- What a line does first: it names the line to go on at, or enters code and names the line to go
on at after that. -/
inductive Opening where
  | line (next : Nat)
  | code (next : Nat) (entry : Entry)

/-- What is left of a line when it has been opened. -/
def Opening.run (lines : List Line) : Opening → Run Cursor
  | .line next => return .line next
  | .code next entry => return Cursor.after next (← entry.run lines)

/-- A line that is complete in itself, or a branch of a conditional reached from above. -/
def openSingle (lines : List Line) (fuel i stop : Nat) (line : Line) : Run Opening :=
  let count := line.statements.length
  match line.kind, line.statements with
  | .elseIf, s :: _ => do
    requireColon line s
    let e ← blockEnd lines i stop
    if ← condition (Calls.ofFuel fuel) line s then
      return .code e (← inGroup (enter lines (.statements line 1 count) fuel))
    else return .line ((Block.else? lines (i + 1) e).getD e)
  | .otherwise, _ => do
    let e ← blockEnd lines i stop
    if 1 < count then return .code e (← inGroup (enter lines (.statements line 1 count) fuel))
    else
      let last := (Block.else? lines (i + 1) e).getD e
      return .code e (← inGroup (enter lines (.lines (i + 1) last) fuel))
  | _, _ => return .code (i + 1) (← enter lines (.statements line 0 count) fuel)

/-- A header with its block. -/
def openHeader (lines : List Line) (fuel i stop : Nat) (line : Line) : Run Opening := do
  let e ← blockEnd lines i stop
  match line.kind, line.statements with
  | .ifThen, s :: _ | .elseIf, s :: _ =>
    let branch := Block.else? lines (i + 1) e
    if ← condition (Calls.ofFuel fuel) line s then
      return .code e (← inGroup (enter lines (.lines (i + 1) (branch.getD e)) fuel))
    else return .line (branch.getD e)
  | .act, s :: _ => do
    addAction (Calls.ofFuel fuel) line s (Block.range lines (i + 1) e)
    return .line e
  | .loop, s :: _ => return .code e (← enterLoop lines fuel line s (.lines (i + 1) e))
  | .forTo, s :: _ => return .code e (← enterFor fuel line s (.lines (i + 1) e))
  | _, _ => openSingle lines fuel i stop line

/-- What a line does first. -/
def openLine (lines : List Line) (fuel i stop : Nat) (line : Line) : Run Opening :=
  if line.isMultiline then openHeader lines fuel i stop line else openSingle lines fuel i stop line

/-- Go on in a range after what a line does first. -/
def Range.follow (r : Range) (n : Nat) : Opening → Entry
  | .line next => ⟨.running (.lines r n next), []⟩
  | .code next entry => entry.push [.line r n next]

/-! ## Steps -/

/-- What a point does first. -/
def Point.advance (lines : List Line) : Point → Run Entry
  | .lines _ 0 _ => fun _ => .outOfFuel
  | .lines range (n + 1) i =>
    if range.stop ≤ i then return ⟨.ended .next, []⟩
    else
      match lines[i]? with
      | none => return ⟨.ended .next, []⟩
      | some line => do
        Run.modify fun m => { m with site.line := line.number }
        return range.follow n (← (openLine lines range.fuel i range.stop line).marked)
  | .statements fuel line stop index rest => enterStatement lines fuel line stop index rest
  | .turns _ 0 => fun _ => .outOfFuel
  | .turns loop (n + 1) => do
    let v ← loop.calls.eval loop.header.condition
    if ← Run.ofExcept v.toTruth then
      inFrame (.step loop n) (inGroup (enter lines loop.body loop.fuel))
    else return ⟨.ended .next, []⟩
  | .counts _ 0 => fun _ => .outOfFuel
  | .counts loop (n + 1) => do
    match ← nextStep loop.calls loop.header with
    | none => return ⟨.ended .next, []⟩
    | some amount => inFrame (.count loop amount n) (inGroup (enter lines loop.body loop.fuel))

/-- What a frame does first with the flow with which the code inside it has ended. -/
def Frame.advance (lines : List Line) : Frame → Flow → Run Entry
  | .group mark, flow => do
    Run.modify (Run.release mark true)
    return ⟨.ended flow, []⟩
  | .line range n next, .next => return ⟨.running (.lines range n next), []⟩
  | .line range n _, .jump label =>
    match Block.label? lines range.start range.stop label with
    | some target => return ⟨.running (.lines range n target), []⟩
    | none => if range.top then (Run.fail (missingLabel label)).marked else return ⟨.ended (.jump label), []⟩
  | .step loop n, .next =>
    match loop.header.step with
    | some part => inFrame (.turns loop n) (inGroup (enter lines (.part part) loop.fuel))
    | none => return ⟨.running (.turns loop n), []⟩
  | .turns loop n, .next => return ⟨.running (.turns loop n), []⟩
  | .count loop amount n, .next => do
    increment loop.header.name amount
    return ⟨.running (.counts loop n), []⟩
  | _, flow => return ⟨.ended flow, []⟩

/-- A place in the code of a body, the frames that are open around it, and the machine. -/
structure Config where
  focus : Focus
  frames : List Frame
  machine : Machine

/-- What comes of a step. -/
inductive Progress where
  | on (config : Config)
  | over (r : Outcome Flow)

/-- Go on under open frames. -/
def Progress.under (lines : List Line) (frames : List Frame) : Outcome Entry → Progress
  | .done entry m => .on ⟨entry.focus, entry.frames ++ frames, m⟩
  | .failed e m => .over (closeAll lines frames (.failed e m))
  | .outOfFuel => .over .outOfFuel

/-- One step: the point goes on, or the innermost frame takes the flow. -/
def Config.step (lines : List Line) : Config → Progress
  | ⟨.running point, frames, m⟩ => .under lines frames (point.advance lines m)
  | ⟨.ended flow, frame :: frames, m⟩ => .under lines frames (frame.advance lines flow m)
  | ⟨.ended flow, [], m⟩ => .over (.done flow m)

/-- How a configuration ends. -/
def Config.outcome (lines : List Line) (c : Config) : Outcome Flow :=
  closeAll lines c.frames (c.focus.run lines c.machine)

/-- What a step says of the end. -/
def Progress.outcome (lines : List Line) : Progress → Outcome Flow
  | .on config => config.outcome lines
  | .over r => r

/-! ## Entering code is the first part of running it -/

/-- A run is a first part and then what that part leaves. -/
def Splits {α β : Type} (go : α → Run β) (first : Run α) (x : Run β) : Prop := first >>= go = x

section

variable {α β γ : Type} {go : α → Run β}

theorem splits_pure (a : α) : Splits go (pure a) (go a) := pure_bind a go

theorem splits_fail (e : Error) : Splits go (Run.fail e) (Run.fail e) := rfl

/-- What both runs do first stays as it is, and they are compared for what follows. -/
theorem splits_bind (x : Run γ) {first : γ → Run α} {f : γ → Run β} (h : ∀ a, Splits go (first a) (f a)) :
    Splits go (x >>= first) (x >>= f) := by
  unfold Splits
  rw [bind_assoc]
  exact congrArg _ (funext h)

theorem splits_ite {p : Prop} [Decidable p] {first first' : Run α} {x x' : Run β} (h : Splits go first x)
    (h' : Splits go first' x') : Splits go (if p then first else first') (if p then x else x') := by
  split
  · exact h
  · exact h'

end

variable (lines : List Line)

/-- The inner frames are closed first, and then the outer ones. -/
theorem closeAll_append (fs gs : List Frame) (r : Outcome Flow) :
    closeAll lines (fs ++ gs) r = closeAll lines gs (closeAll lines fs r) := by
  induction fs generalizing r with
  | nil => rfl
  | cons f fs ih => exact ih _

theorem closeAll_outOfFuel (fs : List Frame) : closeAll lines fs .outOfFuel = .outOfFuel := by
  induction fs with
  | nil => rfl
  | cons f fs ih => exact ih

/-- A frame put around the code takes what the code ends with. -/
theorem run_push (e : Entry) (f : Frame) (m : Machine) :
    (e.push [f]).run lines m = f.close lines (e.run lines m) := closeAll_append lines e.frames [f] _

/-- Code in a group is entered there. -/
theorem Splits.grouped {first : Run Entry} {x : Run Flow} (h : Splits (Entry.run lines) first x) :
    Splits (Entry.run lines) (inGroup first) x.grouped := by
  unfold Splits at h ⊢
  rw [← h]
  funext m
  show Run.andThen (inGroup first) _ m = Run.grouped (first.andThen _) m
  unfold Run.grouped inGroup Run.andThen
  dsimp only
  cases first { m with saves := m.saves.allocate } with
  | done e m' =>
    -- The group is open from here on, and its frame closes it.
    dsimp only
    rw [run_push]
    cases e.run lines m' with
    | done flow m'' => rfl
    | failed error m'' => rfl
    | outOfFuel => rfl
  | failed e m' => rfl
  | outOfFuel => rfl

/-- A frame that only waits for a flow is what comes after the code in it. -/
theorem Splits.inFrame {first : Run Entry} {x : Run Flow} (h : Splits (Entry.run lines) first x) {f : Frame}
    (hf : ∀ e m, f.spoil e m = m) : Splits (Entry.run lines) (inFrame f first) (x >>= f.resume lines) := by
  unfold Splits at h ⊢
  rw [← h, Control.inFrame, bind_assoc, bind_assoc]
  refine congrArg _ (funext fun e => funext fun m => ?_)
  rw [pure_bind, run_push]
  show _ = Run.andThen _ _ m
  unfold Run.andThen Frame.close
  cases e.run lines m with
  | done flow m' => rfl
  | failed error m' =>
    dsimp only
    rw [hf]
  | outOfFuel => rfl

variable (fuel : Nat) (line : Line)

/-- Entering a stretch takes as much fuel as running it by a call. -/
theorem enter_splits (code : Stretch) :
    Splits (Entry.run lines) (enter lines code fuel) (code.run (Calls.ofFuel fuel) lines) := by
  cases fuel with
  | zero =>
    cases code with
    | lines start stop => rfl
    | statements line start stop => rfl
  | succ fuel =>
    cases code with
    | lines start stop => rfl
    | statements line start stop => rfl

theorem enterGroup_splits (code : Stretch) :
    Splits (Entry.run lines) (inGroup (enter lines code fuel)) (code.run (Calls.ofFuel fuel) lines).grouped :=
  (enter_splits lines fuel code).grouped

/-- The group of the loop and its first part are frames when the first part is entered. -/
theorem enterLoop_splits (s : Statement) (body : Stretch) :
    Splits (Entry.run lines) (enterLoop lines fuel line s body)
      (runLoop (Calls.ofFuel fuel) line s (body.run (Calls.ofFuel fuel) lines)) := by
  refine splits_bind _ fun _ => ?_
  cases LoopHeader.read (line.params s) line.number with
  | none => exact splits_fail _
  | some h =>
    refine Splits.grouped lines ?_
    cases h.init with
    | none => exact splits_pure _
    | some init =>
      have hinit := (enter_splits lines fuel (.part init)).inFrame lines
        (f := .turns ⟨fuel, h, body⟩ (Calls.ofFuel fuel).turns) fun _ _ => rfl
      unfold Splits at hinit ⊢
      refine hinit.trans (congrArg _ (funext fun flow => ?_))
      cases flow with
      | next => rfl
      | exit => rfl
      | jump label => rfl

/-- The first value is assigned before any frame but the group is there. -/
theorem enterFor_splits (s : Statement) (body : Stretch) :
    Splits (Entry.run lines) (enterFor fuel line s body)
      (runFor (Calls.ofFuel fuel) line s (body.run (Calls.ofFuel fuel) lines)) := by
  refine splits_bind _ fun _ => splits_bind _ fun h => Splits.grouped lines ?_
  exact splits_bind _ fun first => splits_bind _ fun _ => splits_bind _ fun _ => splits_pure _

/-- Both make the same choice, and the branch is entered in a group. -/
theorem enterIf_splits (index stop : Nat) (s : Statement) :
    Splits (Entry.run lines) (enterIf lines fuel line index stop s)
      (inlineIf (Calls.ofFuel fuel) line index stop s) := by
  refine splits_bind _ fun _ => splits_ite (splits_fail _) (splits_bind _ fun yes => ?_)
  refine splits_ite (enterGroup_splits lines fuel _) ?_
  cases Block.inlineElse? 0 (index + 1) ((line.statements.take stop).drop (index + 1)) with
  | some e => exact enterGroup_splits lines fuel _
  | none => exact splits_pure _

/-- By the kind of the first statement, as the run of a line decides. -/
theorem enterStatement_splits (stop index : Nat) (rest : List Statement) :
    Splits (Entry.run lines) (enterStatement lines fuel line stop index rest)
      (statementsFrom (Calls.ofFuel fuel) line stop index rest) := by
  cases rest with
  | nil => exact splits_pure _
  | cons s rest =>
    rw [enterStatement, statementsFrom]
    cases s.kind with
    | comment => exact splits_pure _
    | elseIf => exact splits_pure _
    | ifThen => exact enterIf_splits lines fuel line index stop s
    | act => exact splits_bind _ fun _ => splits_pure _
    | loop => exact enterLoop_splits lines fuel line s _
    | forTo => exact enterFor_splits lines fuel line s _
    | _ =>
      refine splits_bind _ fun flow => ?_
      cases flow with
      | next => exact splits_pure _
      | exit => exact splits_pure _
      | jump label => exact splits_pure _

theorem splits_code {first : Run Entry} {x : Run Flow} (h : Splits (Entry.run lines) first x) (next : Nat) :
    Splits (Opening.run lines) (do return .code next (← first)) (do return Cursor.after next (← x)) := by
  unfold Splits
  rw [← show first >>= Entry.run lines = x from h, bind_assoc, bind_assoc]
  rfl

/-- A line that is complete in itself, or a branch. -/
theorem openSingle_splits (i stop : Nat) :
    Splits (Opening.run lines) (openSingle lines fuel i stop line)
      (runSingle (Calls.ofFuel fuel) lines i stop line) := by
  unfold openSingle runSingle
  dsimp only
  have hgroup (code : Stretch) (next : Nat) := splits_code lines (enterGroup_splits lines fuel code) next
  cases line.kind with
  | elseIf =>
    cases line.statements with
    | nil => exact splits_code lines (enter_splits lines fuel _) _
    | cons s rest =>
      refine splits_bind _ fun _ => splits_bind _ fun e => splits_bind _ fun yes => ?_
      exact splits_ite (hgroup (.statements line 1 _) _) (splits_pure _)
  | otherwise =>
    refine splits_bind _ fun e => ?_
    exact splits_ite (hgroup (.statements line 1 _) e) (hgroup (.lines (i + 1) _) e)
  | _ => exact splits_code lines (enter_splits lines fuel (.statements line 0 _)) _

/-- A header, whose block is entered with the line after it as what follows. -/
theorem openHeader_splits (i stop : Nat) :
    Splits (Opening.run lines) (openHeader lines fuel i stop line)
      (runHeader (Calls.ofFuel fuel) lines i stop line) := by
  refine splits_bind _ fun e => ?_
  have hbranch (s : Statement) (last next : Nat) :
      Splits (Opening.run lines)
        (do if ← condition (Calls.ofFuel fuel) line s then
              return .code e (← inGroup (enter lines (.lines (i + 1) last) fuel))
            else return .line next : Run Opening)
        (do if ← condition (Calls.ofFuel fuel) line s then
              return Cursor.after e (← ((Calls.ofFuel fuel).lines lines (i + 1) last false).grouped)
            else return .line next) :=
    splits_bind _ fun yes => splits_ite (splits_code lines (enterGroup_splits lines fuel _) e) (splits_pure _)
  have hsingle := openSingle_splits lines fuel line i stop
  cases line.statements with
  | nil =>
    cases line.kind with
    | _ => exact hsingle
  | cons s rest =>
    cases line.kind with
    | ifThen => exact hbranch s _ _
    | elseIf => exact hbranch s _ _
    | act => exact splits_bind _ fun _ => splits_pure _
    | loop => exact splits_code lines (enterLoop_splits lines fuel line s _) e
    | forTo => exact splits_code lines (enterFor_splits lines fuel line s _) e
    | _ => exact hsingle

theorem openLine_splits (i stop : Nat) :
    Splits (Opening.run lines) (openLine lines fuel i stop line)
      (runLine (Calls.ofFuel fuel) lines i stop line) :=
  splits_ite (openHeader_splits lines fuel line i stop) (openSingle_splits lines fuel line i stop)

/-! ## Steps keep the outcome -/

/-- What a line leaves, with its mark, is what its range goes on with. -/
theorem follow_run (r : Range) (n : Nat) (o : Opening) :
    (r.follow n o).run lines = (o.run lines).marked >>= afterLine r.calls lines r.start r.stop r.top n := by
  cases o with
  | line next => rfl
  | code next entry =>
    -- The frame of the line marks the errors of the code in it.
    funext m
    rw [Range.follow, run_push, Opening.run, Run.marked_bind, bind_assoc]
    show _ = Run.andThen _ _ m
    unfold Run.andThen Run.marked
    cases entry.run lines m with
    | done flow m' => rfl
    | failed e m' => rfl
    | outOfFuel => rfl

/-- A turn of a loop is its body and then its step. -/
theorem turn_bind (loop : Loop LoopHeader) (n : Nat) :
    (loop.body.run loop.calls lines).grouped >>= (Frame.step loop n).resume lines = (do
      match ← turn loop.calls (loop.body.run loop.calls lines) loop.header.step with
      | .next => loop.turnWhile lines n
      | flow => pure flow) := by
  unfold turn
  rw [bind_assoc]
  refine congrArg _ (funext fun flow => ?_)
  cases flow with
  | next =>
    rw [Frame.resume]
    cases loop.header.step with
    | some part => rfl
    | none => rfl
  | exit => rfl
  | jump label => rfl

/-- **What a point does first is the first part of running it.** -/
theorem advance_splits (p : Point) : Splits (Entry.run lines) (p.advance lines) (p.run lines) := by
  cases p with
  | lines r n i =>
    cases n with
    | zero => rfl
    | succ n =>
      show Splits _ _ (linesFrom r.calls lines r.start r.stop r.top (n + 1) i)
      rw [linesFrom_succ]
      refine splits_ite (splits_pure _) ?_
      cases lines[i]? with
      | none => exact splits_pure _
      | some line =>
        refine splits_bind _ fun _ => ?_
        have hline : _ = runLine r.calls lines i r.stop line := openLine_splits lines r.fuel line i r.stop
        unfold Splits
        simp only [bind_assoc, pure_bind, follow_run]
        rw [← hline, Run.marked_bind, bind_assoc]
  | statements fuel line stop index rest => exact enterStatement_splits lines fuel line stop index rest
  | turns loop n =>
    cases n with
    | zero => rfl
    | succ n =>
      show Splits _ _ (Machine.turnWhile loop.calls loop.header (loop.body.run loop.calls lines) (n + 1))
      rw [turnWhile_succ]
      refine splits_bind _ fun v => splits_bind _ fun yes => splits_ite ?_ (splits_pure _)
      -- the frame of the step is what a turn does after its body
      have hturn := (enterGroup_splits lines loop.fuel loop.body).inFrame lines (f := .step loop n)
        fun _ _ => rfl
      exact Eq.trans hturn (turn_bind lines loop n)
  | counts loop n =>
    cases n with
    | zero => rfl
    | succ n =>
      show Splits _ _ (Machine.countUp loop.calls loop.header (loop.body.run loop.calls lines) (n + 1))
      rw [countUp_succ]
      refine splits_bind _ fun step => ?_
      cases step with
      | none => exact splits_pure _
      | some amount =>
        have hturn := (enterGroup_splits lines loop.fuel loop.body).inFrame lines (f := .count loop amount n)
          fun _ _ => rfl
        refine Eq.trans hturn (congrArg _ (funext fun flow => ?_))
        cases flow with
        | next => rfl
        | exit => rfl
        | jump label => rfl

/-- **What a frame does first is the first part of taking up the flow.** -/
theorem resume_splits (f : Frame) (flow : Flow) :
    Splits (Entry.run lines) (f.advance lines flow) (f.resume lines flow) := by
  cases f with
  | group mark => exact splits_bind _ fun _ => splits_pure _
  | line r n next =>
    cases flow with
    | next => exact splits_pure _
    | exit => exact splits_pure _
    | jump label =>
      show Splits _ _ (afterLine r.calls lines r.start r.stop r.top n (.leave (.jump label)))
      rw [Frame.advance, afterLine]
      cases Block.label? lines r.start r.stop label with
      | some target => exact splits_pure _
      | none => exact splits_ite rfl (splits_pure _)
  | step loop n =>
    cases flow with
    | next =>
      rw [Frame.advance, Frame.resume]
      cases loop.header.step with
      | some part =>
        have hstep := (enterGroup_splits lines loop.fuel (.part part)).inFrame lines (f := .turns loop n)
          fun _ _ => rfl
        refine Eq.trans hstep (congrArg _ (funext fun flow => ?_))
        cases flow with
        | next => rfl
        | exit => rfl
        | jump label => rfl
      | none => exact splits_pure _
    | exit => exact splits_pure _
    | jump label => exact splits_pure _
  | turns loop n =>
    cases flow with
    | next => exact splits_pure _
    | exit => exact splits_pure _
    | jump label => exact splits_pure _
  | count loop amount n =>
    cases flow with
    | next => exact splits_bind _ fun _ => splits_pure _
    | exit => exact splits_pure _
    | jump label => exact splits_pure _

/-- The frames around a run see nothing of its being split. -/
theorem outcome_under (frames : List Frame) {first : Run Entry} {x : Run Flow}
    (h : Splits (Entry.run lines) first x) (m : Machine) :
    (Progress.under lines frames (first m)).outcome lines = under lines frames x m := by
  rw [← show first >>= Entry.run lines = x from h]
  show _ = closeAll lines frames (Run.andThen first _ m)
  unfold Run.andThen
  cases first m with
  | done entry m' => exact closeAll_append lines entry.frames frames _
  | failed e m' => rfl
  | outOfFuel => exact (closeAll_outOfFuel lines frames).symm

/-- **A step keeps the outcome.** -/
theorem outcome_step (c : Config) : (c.step lines).outcome lines = c.outcome lines := by
  obtain ⟨focus, frames, m⟩ := c
  cases focus with
  | running point => exact outcome_under lines frames (advance_splits lines point) m
  | ended flow =>
    cases frames with
    | nil => rfl
    | cons frame frames => exact outcome_under lines frames (resume_splits lines frame flow) m

/-- One configuration leads to another by steps. -/
def Reaches : Config → Config → Prop :=
  Relation.ReflTransGen fun c c' => c.step lines = .on c'

/-- By induction on the steps, none of which changes the outcome. -/
theorem Reaches.outcome {c c' : Config} (h : Reaches lines c c') : c'.outcome lines = c.outcome lines := by
  induction h with
  | refl => rfl
  | @tail b c'' _ hstep ih =>
    have hkeep := outcome_step lines b
    rw [hstep] at hkeep
    exact hkeep.trans ih

end Control

end QuestScript
