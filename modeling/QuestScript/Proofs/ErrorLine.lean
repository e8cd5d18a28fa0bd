import QuestScript.Proofs.Requests

/-!
# The line of an error

An error is reported with the line at which the machine stands. A line that starts to run sets it,
and nothing sets it back when lines that were run from within another line have ended: the body of a
loop, the code of `DYNAMIC`, or all the lines of an earlier request. Until the next line starts, the
machine stands at a line that is no longer running.

To say which line is the right one, the calls are tied a second time, with a choice of where control
lands when nested lines have ended (`Calls.landing`):

* `Landing.stay`, at the last of these lines, which is what the machine does (`landing_stay`);
* `Landing.back`, at the line that ran them. With this choice the machine always stands at the
  innermost line that is running, and at line 0 if there is none;
* `Landing.marked k`, at a line `k` put in the place of every line left behind.

All three runs are alike but for their lines. The marked run follows the two others: where it does
not stand at `k`, all stand at the same line (`landing_alike`). So an error is reported with the right
line unless the marked run reports `k`, and the loop at the end shows that otherwise the line may be
wrong.
-/

namespace QuestScript

/-! ## Where control lands -/

/-- The line at which control lands when nested lines have ended, given the line that ran them and the
last of them. -/
abbrev Landing := Nat → Nat → Nat

namespace Landing

/-- Control stays at the last of the nested lines. -/
def stay : Landing := fun _ last => last

/-- Control goes back to the line that ran them. -/
def back : Landing := fun first _ => first

/-- A line that is left behind is replaced by a mark. -/
def marked (k : Nat) : Landing := fun first last => if first = last then first else k

end Landing

/-- Run lines and land. A jump to a label that is still to be found is under way at the line of the
`JUMP`. -/
def Run.landing (f : Landing) (x : Run Flow) : Run Flow := fun m =>
  match x m with
  | .done (.jump label) m' => .done (.jump label) m'
  | .done flow m' => .done flow { m' with site.line := f m.site.line m'.site.line }
  | r => r

/-- The calls in which nested lines land as `f` says. -/
def Calls.landing (f : Landing) : Nat → Calls
  | 0 => Calls.ofFuel 0
  | n + 1 =>
    { turns := n
      eval := fun source m => Machine.evalSource (landing f n) source m
      lines := fun lines start stop top m =>
        (Machine.runLines (landing f n) lines start stop top).landing f m
      statements := fun line start stop m => Machine.runStatements (landing f n) line start stop m }

theorem Run.landing_stay (x : Run Flow) : x.landing .stay = x := by
  funext m
  unfold landing
  cases x m with
  | done flow m' =>
    cases flow with
    | next => rfl
    | exit => rfl
    | jump label => rfl
  | failed e m' => rfl
  | outOfFuel => rfl

/-- The machine lets control stay at the last line. -/
theorem Calls.landing_stay (n : Nat) : Calls.landing .stay n = Calls.ofFuel n := by
  induction n with
  | zero => rfl
  | succ n ih =>
    simp only [landing, ofFuel, ih, Run.landing_stay]

/-! ## Following the line -/

/-- The line of a marked run: the mark, or the line of the other run. -/
def Follows (k : Nat) (line line' : Nat) : Prop := line' = k ∨ line' = line

theorem Follows.refl (k line : Nat) : Follows k line line := .inr rfl

/-- A way to land that leaves a line where it is if no other line has run. -/
theorem Follows.marked {k : Nat} {f : Landing} (hf : ∀ line, f line line = line)
    {first first' last last' : Nat} (hfirst : Follows k first first') (hlast : Follows k last last') :
    Follows k (f first last) (Landing.marked k first' last') := by
  unfold Landing.marked
  split
  · next hsame =>
    subst hsame
    rcases hfirst with rfl | rfl
    · exact .inl rfl
    · rcases hlast with rfl | rfl
      · exact .inl rfl
      · exact .inr (hf _).symm
  · exact .inl rfl

section Following

variable {k : Nat} {f : Landing} (hf : ∀ line, f line line = line)
include hf

theorem Run.Alike.landing {x y : Run Flow}
    (h : Run.Alike (near (Follows k) (Follows.refl k) 0 0) x y) :
    Run.Alike (near (Follows k) (Follows.refl k) 0 0) (x.landing f) (y.landing (.marked k)) := by
  intro m m' hm
  have hr := h m m' hm
  unfold Run.landing
  generalize x m = r at hr
  generalize y m' = r' at hr
  cases hr with
  | failed e he => exact .failed e he
  | outOfFuel => exact .outOfFuel
  | done flow hd =>
    have hlanded := Follows.marked hf hm.1.line hd.1.line
    cases flow with
    | jump label => exact .done _ hd
    | next => exact .done _ ⟨{ hd.1 with line := hlanded }, hd.2⟩
    | exit => exact .done _ ⟨{ hd.1 with line := hlanded }, hd.2⟩

/-- The marked run follows every other one. -/
theorem Calls.landing_alike (n : Nat) :
    (Calls.landing f n).Alike (near (Follows k) (Follows.refl k) 0 0)
      (Calls.landing (.marked k) n) := by
  induction n with
  | zero => exact ofFuel_zero_alike _
  | succ n ih =>
    unfold landing
    exact ⟨rfl, fun source => Machine.evalSource_alike ih source,
      fun lines start stop top => (Machine.runLines_alike ih lines start stop top).landing hf,
      fun line start stop => Machine.runStatements_alike ih line start stop⟩

end Following

/-! ## Reports -/

/-- The failure a reply tells of. -/
def Reply.failure? {α : Type} : Reply α → Option Failure
  | .failed f => some f
  | _ => none

theorem Reply.Near.failure? {α : Type} {R : Nat → Nat → Prop} {r r' : Reply α} (h : r.Near R r') :
    Option.Rel (Failure.Near R) r.failure? r'.failure? := by
  cases h with
  | done a => exact .none
  | cut => exact .none
  | failed hf => exact .some hf
  | stuck => exact .none

/-- A failure that a marked one follows is the same, unless the latter is at the mark. -/
theorem Failure.Near.eq_of_line_ne {k : Nat} {f marked : Failure} (h : f.Near (Follows k) marked)
    (hne : marked.site.line ≠ k) : f = marked := by
  obtain ⟨error, location, action, line⟩ := f
  obtain ⟨error', location', action', line'⟩ := marked
  obtain ⟨herror, hlocation, haction, hline⟩ := h
  rcases hline with hk | hline
  · exact absurd hk hne
  · cases herror
    cases hlocation
    cases haction
    cases hline
    rfl

namespace Engine

/-- The failure an answer tells of. -/
def Answer.failure? : Answer → Option Failure
  | .reply r => r.failure?
  | _ => none

/-- The engine between requests: no line is running, and the last one that ran is left behind. -/
def landed (f : Landing) (e : Engine) : Engine :=
  { e with machine.site.line := f 0 e.machine.site.line }

theorem landed_stay (e : Engine) : e.landed .stay = e := rfl

/-- The failure that a request is answered with when lines land as `f` says. -/
def report (f : Landing) (e : Engine) : Request → Option Failure
  | .entry x => (((e.landed f).prepared x).enter (x.body (Calls.landing f fuel))).1.failure?
  | .set name index v => ((e.landed f).set name index v).1.failure?
  | _ => none

theorem Entry.failure?_settle (x : Entry) (r : Reply Result) : (x.settle r).failure? = r.failure? := by
  cases x with
  | call name args => cases r <;> rfl
  | eval source => cases r <;> rfl
  | select index => cases r <;> rfl
  | _ => rfl

/-- What an engine reports is the report of the lines that stay. -/
theorem failure?_serve {e : Engine} (h : e.machine.errorSite = none) (r : Request) :
    (e.serve r).1.failure? = e.report .stay r := by
  cases r with
  | entry x =>
    have hcalls : Calls.landing .stay fuel = calls := Calls.landing_stay fuel
    rw [serve_entry h]
    show (x.settle _).failure? = _
    rw [x.failure?_settle, report, landed_stay, hcalls]
  | set name index v =>
    show (Reply.map _ (e.set name index v).1).failure? = (e.set name index v).1.failure?
    cases (e.set name index v).1 <;> rfl
  | _ => rfl

/-- A request fails under every landing or under none, and the marked report follows the others. -/
theorem report_follows {e : Engine} (h : e.machine.errorSite = none) {f : Landing}
    (hf : ∀ line, f line line = line) (k : Nat) (r : Request) :
    Option.Rel (Failure.Near (Follows k)) (e.report f r) (e.report (.marked k) r) := by
  have hlanded : (e.landed f).Near (Follows k) 0 0 (e.landed (.marked k)) := by
    have hself := near_self (Follows.refl k) h
    have hline := Follows.marked hf (Follows.refl k 0) (Follows.refl k e.machine.site.line)
    exact ⟨{ hself.machine with line := hline }, hself.noSite, hself.lastError⟩
  cases r with
  | entry x =>
    have hbody := x.body_alike (Calls.landing_alike (k := k) hf fuel)
    exact (enter_near (Follows.refl k) hbody (hlanded.prepared x)).1.failure?
  | set name index v => exact (set_near hlanded name index v).1.failure?
  | _ => exact .none

theorem marked_of_report {e : Engine} (h : e.machine.errorSite = none) {f : Landing}
    (hf : ∀ line, f line line = line) (k : Nat) {r : Request} {x : Failure}
    (hx : e.report f r = some x) :
    ∃ z, e.report (.marked k) r = some z ∧ x.Near (Follows k) z := by
  have hrel := report_follows h hf k r
  rw [hx] at hrel
  generalize e.report (.marked k) r = z at hrel
  cases hrel with
  | some hz => exact ⟨_, rfl, hz⟩

theorem report_of_marked {e : Engine} (h : e.machine.errorSite = none) {f : Landing}
    (hf : ∀ line, f line line = line) {k : Nat} {r : Request} {z : Failure}
    (hz : e.report (.marked k) r = some z) : ∃ x, e.report f r = some x ∧ x.Near (Follows k) z := by
  have hrel := report_follows h hf k r
  rw [hz] at hrel
  generalize e.report f r = x at hrel
  cases hrel with
  | some hx => exact ⟨_, rfl, hx⟩

/-- The line of a report was not left behind: a mark in the place of such lines is not reported. -/
def AtRunningLine (e : Engine) (r : Request) : Prop :=
  ∃ k marked, e.report (.marked k) r = some marked ∧ marked.site.line ≠ k

/-- **An error is reported at the line that is running, unless a line was left behind.** Whatever an
engine has been asked before, a request that fails fails in the same way, in the same location and
action, when control always goes back to the line that ran nested lines. The lines are the same if the
one that is reported was not left behind. -/
theorem failure_at_running_line (config : Config) (host : Host) (before : List Request) (r : Request)
    (failure : Failure)
    (h : (((new config host).serveAll before).serve r).1.failure? = some failure) :
    ∃ expected, ((new config host).serveAll before).report .back r = some expected ∧
      expected.error = failure.error ∧
      expected.site.location = failure.site.location ∧ expected.site.action = failure.site.action ∧
      (((new config host).serveAll before).AtRunningLine r → failure = expected) := by
  have hsite := (serveAll_settled (new_settled config host) before).noSite
  generalize (new config host).serveAll before = e at h hsite
  rw [failure?_serve hsite] at h
  -- the two reports meet in a marked one, whatever the mark
  obtain ⟨z, hz, hnear⟩ := marked_of_report hsite (fun _ => rfl) 0 h
  obtain ⟨expected, hexpected, hnear'⟩ := report_of_marked hsite (f := .back) (fun _ => rfl) hz
  refine ⟨expected, hexpected, hnear'.error.trans hnear.error.symm,
    hnear'.site.location.trans hnear.site.location.symm,
    hnear'.site.action.trans hnear.site.action.symm, ?_⟩
  rintro ⟨k, z, hz, hline⟩
  obtain ⟨x, hx, hstay⟩ := report_of_marked hsite (f := .stay) (fun _ => rfl) hz
  obtain ⟨y, hy, hback⟩ := report_of_marked hsite (f := .back) (fun _ => rfl) hz
  obtain rfl : failure = x := Option.some.inj (h.symm.trans hx)
  obtain rfl : expected = y := Option.some.inj (hexpected.symm.trans hy)
  exact (hstay.eq_of_line_ne hline).trans (hback.eq_of_line_ne hline).symm

/-- A run of two lines, and then a block whose body fails at its own line. -/
theorem failure_at_running_line_sample :
    let e := (new {} {}).serveAll [.entry (.run "X = 0\nY = 1")]
    let r : Request := .entry (.run "IF Y = 1:\nY = 1 / X\nEND")
    let failure : Failure := ⟨⟨.divisionByZero, none⟩, { line := 2 }⟩
    (e.serve r).1.failure? = some failure ∧ e.report .back r = some failure := by
  intro e r failure
  have hfails : (e.serve r).1.failure? = some failure := by decide +kernel
  have hmarked : e.report (.marked 0) r = some failure := by decide +kernel
  obtain ⟨expected, hexpected, -, -, -, hsame⟩ := failure_at_running_line {} {} _ r failure hfails
  have heq : failure = expected := hsame ⟨0, failure, hmarked, by decide⟩
  exact ⟨hfails, heq ▸ hexpected⟩

/-- The condition of the loop on line 2 fails after a turn and is reported at the body, line 3. And an
expression that runs in no line at all is reported at line 2, where an earlier request ended. -/
theorem failure_at_line_left_behind :
    let loop : Request := .entry (.run "X = 1\nLOOP WHILE 1 / X > 0:\nX -= 1\nEND")
    let e := (new {} {}).serveAll [.entry (.run "X = 0\nY = 1")]
    let expression : Request := .entry (.eval "1 / X")
    (((new {} {}).serve loop).1.failure?.map (·.site.line) = some 3 ∧
      ((new {} {}).report .back loop).map (·.site.line) = some 2) ∧
    ((e.serve expression).1.failure?.map (·.site.line) = some 2 ∧
      (e.report .back expression).map (·.site.line) = some 0) := by
  decide +kernel

end Engine

end QuestScript
