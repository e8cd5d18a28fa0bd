import QuestScript.Engine
import QuestScript.Proofs.Discipline.Block
import QuestScript.Proofs.Saves

/-!
# Frames

Blocks, loops and calls open a group of saved bindings and close it by the depth at which they
opened it. `GOTO` closes all groups under the frames that are still open. That this never goes wrong
is the discipline `frame`:

* a run that gives a result has the same location, the same call depth and the same groups, except
  that the innermost one may have grown (`Saves.Grows`);
* a run that fails has the same call depth and no more groups than before.

`GOTO` always fails in the end, so a run that gives a result has not met one. For an engine it
follows that no entry leaves a group or a call open behind it.
-/

namespace QuestScript

/-! ## Closing a frame -/

namespace Run

theorem depth_release (mark : Nat) (restore : Bool) (m : Machine) :
    (release mark restore m).saves.depth = min m.saves.depth mark :=
  Saves.depth_release m.saves mark restore m.vars

/-- A frame in which only its own group has grown closes that group. -/
theorem release_of_allocate {m m' : Machine} {g : SaveGroup} (restore : Bool)
    (h : m'.saves = ⟨g :: m.saves.groups⟩) :
    release m.saves.depth restore m'
      = { m' with
          saves := m.saves
          vars := if restore then Saves.restoreGroup g m'.vars else m'.vars } := by
  have hr := Saves.release_cons g m.saves.groups restore m'.vars
  rw [← h] at hr
  unfold release
  rw [show m.saves.depth = m.saves.groups.length from rfl, hr]

end Run

/-- A change of location closes all groups. -/
theorem Machine.depth_leave (target : String) (m : Machine) :
    (leave target m).saves.depth = 0 := by
  show (m.saves.restoreAll m.vars).1.depth = 0
  rw [Saves.restoreAll, Saves.depth_release, Nat.min_zero]

/-! ## The discipline -/

/-- What a run does to the frames. -/
def frame : Discipline where
  ok m m' := m'.moves = m.moves ∧ m'.callDepth = m.callDepth ∧ m.saves.Grows m'.saves
  err m m' := m'.callDepth = m.callDepth ∧ m'.saves.depth ≤ m.saves.depth
  ok_refl m := ⟨rfl, rfl, .refl _⟩
  ok_trans h₁ h₂ := ⟨h₂.1.trans h₁.1, h₂.2.1.trans h₁.2.1, h₁.2.2.trans h₂.2.2⟩
  err_refl m := ⟨rfl, Nat.le_refl _⟩
  err_trans h₁ h₂ := ⟨h₂.1.trans h₁.2.1, h₁.2.2.depth ▸ h₂.2⟩
  vars _ := ⟨rfl, rfl, .refl _⟩
  screen _ := ⟨rfl, rfl, .refl _⟩
  host _ _ := ⟨rfl, rfl, .refl _⟩
  rng _ _ := ⟨rfl, rfl, .refl _⟩
  expressions _ _ := ⟨rfl, rfl, .refl _⟩
  patterns _ _ := ⟨rfl, rfl, .refl _⟩
  site _ _ := ⟨rfl, rfl, .refl _⟩
  err_site _ h := h
  err_mark _ h := h
  localize m key := ⟨rfl, rfl, Saves.grows_localize m.saves m.vars key⟩
  group_ok := by
    rintro m m' ⟨hm, hd, hs⟩
    obtain ⟨g, hg, -⟩ := hs.of_allocate
    rw [Run.release_of_allocate true hg]
    exact ⟨hm, hd, .refl _⟩
  group_err := by
    rintro m m' ⟨hd, hs⟩
    refine ⟨hd, ?_⟩
    rw [Run.depth_release]
    exact Nat.min_le_right _ _
  call_ok := by
    rintro m m' ⟨hm, hd, hs⟩
    refine ⟨hm, ?_, hs⟩
    show m'.callDepth - 1 = m.callDepth
    rw [hd, Nat.add_sub_cancel]
  call_err := by
    rintro m m' ⟨hd, hs⟩
    refine ⟨?_, hs⟩
    show m'.callDepth - 1 = m.callDepth
    rw [hd, Nat.add_sub_cancel]
  leave_err := by
    rintro m m' target ⟨hd, hs⟩
    rw [Machine.depth_leave] at hs
    exact ⟨hd, Nat.le_trans hs (Nat.zero_le _)⟩

/-- Calls of any fuel keep the frames. -/
theorem Calls.ofFuel_frame (n : Nat) : (Calls.ofFuel n).Obey frame := Calls.ofFuel_obey frame n

/-! ## Runs -/

/-- A run that started in `m` leaves the frames as it found them if it gives a result, and opens
none for good if it fails. -/
def Outcome.Framed {α : Type} (m : Machine) : Outcome α → Prop
  | done _ m' =>
    m'.moves = m.moves ∧ m'.saves.depth = m.saves.depth ∧ m'.callDepth = m.callDepth ∧
      Run.checkMoves m.moves m' = .done () m'
  | failed _ m' => m'.callDepth = m.callDepth ∧ m'.saves.depth ≤ m.saves.depth
  | outOfFuel => True

theorem Run.checkMoves_of_eq {m : Machine} {stamp : Nat} (h : m.moves = stamp) :
    checkMoves stamp m = .done () m := by
  unfold checkMoves
  rw [if_pos (by simpa using h)]

theorem Run.Obeys.framed {α : Type} {x : Run α} (hx : x.Obeys frame) (m : Machine) :
    (x m).Framed m := by
  have h := hx m
  cases hr : x m with
  | done a m' =>
    rw [hr] at h
    exact ⟨h.1, h.2.2.depth, h.2.1, Run.checkMoves_of_eq h.1⟩
  | failed e m' => rw [hr] at h; exact h
  | outOfFuel => trivial

/-! ## Machines at rest -/

/-- No frame is open. -/
def Machine.AtRest (m : Machine) : Prop := m.saves.depth = 0 ∧ m.callDepth = 0

/-- A run leaves no frame open. -/
def Outcome.AtRest {α : Type} : Outcome α → Prop
  | done _ m => m.AtRest
  | failed _ m => m.AtRest
  | outOfFuel => True

theorem Outcome.Keeps.atRest {α : Type} {r : Outcome α} {m : Machine} (hr : r.Keeps frame m)
    (hm : m.AtRest) : r.AtRest := by
  cases r with
  | done a m' => exact ⟨hr.2.2.depth.trans hm.1, hr.2.1.trans hm.2⟩
  | failed e m' => exact ⟨Nat.le_zero.mp (hm.1 ▸ hr.2), hr.1.trans hm.2⟩
  | outOfFuel => trivial

namespace Machine

theorem leave_atRest (target : String) {m : Machine} (h : m.callDepth = 0) :
    (leave target m).AtRest := ⟨depth_leave target m, h⟩

/-- A change of location closes what is open before it runs anything. -/
theorem goTo_atRest {c : Calls} (hc : c.Obey frame) (name : String) (args : List Value)
    (replace : Bool) {m : Machine} (h : m.AtRest) : (goTo c name args replace m).AtRest := by
  rcases goTo_keeps hc name args replace m with ⟨e, hg⟩ | ⟨target, hg⟩
  · rw [hg]; exact h
  · exact hg.atRest (leave_atRest target h.2)

end Machine

/-! ## Entries of an engine -/

namespace Engine

/-- The entries that run scripts. -/
inductive Entry where
  | run (code : String)
  | runLocation (name : String)
  | goTo (name : String)
  | call (name : String) (args : List Value)
  | eval (source : String)
  | act (index : Nat)
  | select (index : Nat)
  | submit
  | tick

/-- The engine after an entry, whatever its reply. -/
def after (e : Engine) : Entry → Engine
  | .run code => (e.run code).2
  | .runLocation name => (e.runLocation name).2
  | .goTo name => (e.goTo name).2
  | .call name args => (e.call name args).2
  | .eval source => (e.eval source).2
  | .act index => (e.act index).2
  | .select index => (e.select index).2
  | .submit => e.submit.2
  | .tick => e.tick.2

theorem enter_atRest {α : Type} {e : Engine} {x : Run α} (h : e.machine.AtRest)
    (hx : (x { e.machine with errorSite := none }).AtRest) : (e.enter x).2.machine.AtRest := by
  unfold enter
  split
  · next hm => rw [hm] at hx; exact hx
  · next hm =>
    rw [hm] at hx
    split
    · exact hx
    · exact hx
  · exact h

/-- An entry whose run keeps the frames leaves the engine at rest. -/
theorem enter_atRest_of_obeys {α : Type} {e : Engine} {x : Run α} (h : e.machine.AtRest)
    (hx : x.Obeys frame) : (e.enter x).2.machine.AtRest := enter_atRest h ((hx _).atRest h)

/-- Every entry leaves an engine at rest that was at rest. -/
theorem after_atRest {e : Engine} (h : e.machine.AtRest) (entry : Entry) :
    (e.after entry).machine.AtRest := by
  have hc : calls.Obey frame := Calls.ofFuel_frame fuel
  cases entry with
  | run code => exact enter_atRest_of_obeys h (Machine.runBody_obeys hc _).grouped
  | runLocation name =>
    exact enter_atRest_of_obeys h
      ((Machine.callLocation_obeys hc _ _ _).bind fun _ => Run.obeys_pure _)
  | goTo name => exact enter_atRest h (Machine.goTo_atRest hc name [] true h)
  | call name args => exact enter_atRest_of_obeys h (Machine.callLocation_obeys hc _ _ _)
  | eval source => exact enter_atRest_of_obeys h (hc.eval _)
  | act index =>
    show (e.act index).2.machine.AtRest
    unfold act
    split
    · exact h
    · exact enter_atRest_of_obeys (e := { e with machine := { e.machine with screen := _ } }) h
        ((Machine.runBody_obeys hc _).grouped.atSite _)
  | select index =>
    show (e.select index).2.machine.AtRest
    unfold select
    split
    · exact h
    · exact enter_atRest_of_obeys (e := { e with machine := { e.machine with screen := _ } }) h
        (Machine.runHooks_obeys hc _ _)
  | submit => exact enter_atRest_of_obeys h (Machine.runHooks_obeys hc _ _)
  | tick => exact enter_atRest_of_obeys h (Machine.runHooks_obeys hc _ _)

end Engine

/-! ## The frame discipline -/

/-- **Runs leave the frames as they found them.** Lines, statements, expressions, calls and hooks
that give a result have changed neither the location nor the depths of calls and of groups; those
that fail have changed no call depth and opened no group for good. So an engine at rest is at rest
after every entry. -/
theorem runs_keep_frames (n : Nat) (m : Machine) :
    (∀ lines start stop top, ((Calls.ofFuel n).lines lines start stop top m).Framed m) ∧
    (∀ line start stop, ((Calls.ofFuel n).statements line start stop m).Framed m) ∧
    (∀ source, ((Calls.ofFuel n).eval source m).Framed m) ∧
    (∀ name args replace, (Machine.callLocation (Calls.ofFuel n) name args replace m).Framed m) ∧
    (∀ code args, (Machine.callCode (Calls.ofFuel n) code args m).Framed m) ∧
    (∀ key args, (Machine.runHooks (Calls.ofFuel n) key args m).Framed m) ∧
    ∀ e : Engine, e.machine.AtRest → ∀ entry, (e.after entry).machine.AtRest := by
  have hc := Calls.ofFuel_frame n
  refine ⟨?_, ?_, ?_, ?_, ?_, ?_, ?_⟩
  · exact fun lines start stop top => (hc.lines lines start stop top).framed m
  · exact fun line start stop => (hc.statements line start stop).framed m
  · exact fun source => (hc.eval source).framed m
  · exact fun name args replace => (Machine.callLocation_obeys hc name args replace).framed m
  · exact fun code args => (Machine.callCode_obeys hc code args).framed m
  · exact fun key args => (Machine.runHooks_obeys hc key args).framed m
  · exact fun e h entry => e.after_atRest h entry

/-- A new engine is at rest, and so it is after a change of location out of an open group. -/
theorem runs_keep_frames_new :
    (Engine.new {} {}).machine.AtRest ∧
      ((Engine.new {} {}).after (.run "LOCAL X = 1 & GOTO 'HOME'")).machine.AtRest :=
  ⟨⟨rfl, rfl⟩, (runs_keep_frames 0 (Machine.new {} {})).2.2.2.2.2.2 _ ⟨rfl, rfl⟩ _⟩

end QuestScript
