import QuestScript.Proofs.Block.Entering

/-!
# Jumps

A `JUMP` ends one block after the other until it comes to a range of lines that has its label. Every
frame on the way hands it on, and only the frame of a group does something of its own: it puts its
bindings back. The outermost range is the whole body, where a label that is missing is an error.

`Within` is what the steps of a body keep: its own range is the last of the frames and the only one at
the top, and the groups that are open are those of the frames, one above the other.
-/

namespace QuestScript

/-! ## Putting groups back -/

/-- The machine with its innermost `n` groups closed and their bindings put back, the innermost
first. -/
def Machine.restore (n : Nat) (m : Machine) : Machine :=
  { m with
    saves := ⟨m.saves.groups.drop n⟩
    vars := (m.saves.groups.take n).foldl (fun vars g => Saves.restoreGroup g vars) m.vars }

namespace Machine

theorem depth_restore (n : Nat) (m : Machine) : (m.restore n).saves.depth = m.saves.depth - n :=
  List.length_drop

/-- Only the innermost group is above its mark. -/
theorem depth_release_of_succ {m : Machine} {mark : Nat} (h : m.saves.depth = mark + 1) :
    (Run.release mark true m).saves.depth = mark := by
  rw [Run.depth_release, h, Nat.min_eq_right (Nat.le_succ mark)]

/-- A group closed at its mark is the innermost one put back. -/
theorem restore_release {m : Machine} {mark : Nat} (h : m.saves.depth = mark + 1) (n : Nat) :
    (Run.release mark true m).restore n = m.restore (n + 1) := by
  obtain ⟨g, gs, hgroups⟩ := List.exists_cons_of_length_eq_add_one h
  have hlength : gs.length = mark := by
    have hdepth : m.saves.groups.length = mark + 1 := h
    rw [hgroups] at hdepth
    exact Nat.succ.inj hdepth
  have hrelease : m.saves.release mark true m.vars = (⟨gs⟩, Saves.restoreGroup g m.vars) := by
    have hcons := Saves.release_cons g gs true m.vars
    rw [hlength, ← hgroups] at hcons
    exact hcons
  unfold Run.release restore
  rw [hrelease, hgroups]
  rfl

end Machine

namespace Control

open Machine

/-- The number of groups that frames have open. -/
def groups (frames : List Frame) : Nat := (frames.filterMap Frame.mark?).length

/-- The groups of frames are counted part by part. -/
theorem groups_append (fs gs : List Frame) : groups (fs ++ gs) = groups fs + groups gs := by
  rw [groups, List.filterMap_append, List.length_append]
  rfl

/-! ## The run of a body -/

/-- The range of a whole body. -/
def Range.body (lines : List Line) (fuel : Nat) : Range := ⟨fuel, 0, lines.length, true⟩

/-- The start of a body. -/
def Config.body (lines : List Line) (fuel : Nat) (m : Machine) : Config :=
  ⟨.running (.lines (.body lines fuel) (Calls.ofFuel fuel).turns 0), [], m⟩

variable {lines : List Line}

theorem outcome_body (lines : List Line) (fuel : Nat) (m : Machine) :
    (Config.body lines fuel m).outcome lines = (Calls.ofFuel (fuel + 1)).lines lines 0 lines.length true m := by
  show _ = runLines (Calls.ofFuel fuel) lines 0 lines.length true m
  rw [runLines, Nat.min_self]
  rfl

/-- Configurations of the run of a body that started with `depth` groups open. -/
inductive Within (lines : List Line) (fuel depth : Nat) : Config → Prop
  | line (n i : Nat) {m : Machine} (hdepth : m.saves.depth = depth) :
      Within lines fuel depth ⟨.running (.lines (.body lines fuel) n i), [], m⟩
  | inside {focus : Focus} {inner : List Frame} (n next : Nat) {m : Machine}
      (hfocus : ∀ p, focus = .running p → p.isTop = false) (hinner : ∀ f ∈ inner, f.isTop = false)
      (hnested : Nested inner depth m.saves.depth) :
      Within lines fuel depth ⟨focus, inner ++ [.line (.body lines fuel) n next], m⟩
  | ended {flow : Flow} (hflow : ∀ label, flow ≠ .jump label) (m : Machine) :
      Within lines fuel depth ⟨.ended flow, [], m⟩

/-- No jump is left at the end of a body, because its own lines are the last to look for the label. -/
theorem Within.ne_jump {fuel depth : Nat} {c : Config} (h : Within lines fuel depth c) {flow : Flow}
    {m : Machine} (hc : c = ⟨.ended flow, [], m⟩) (label : String) : flow ≠ .jump label := by
  cases h with
  | line n i hdepth => cases hc
  | inside n next hfocus hinner hnested =>
    have hframes := congrArg Config.frames hc
    exact absurd hframes (List.append_ne_nil_of_right_ne_nil _ (List.cons_ne_nil _ _))
  | ended hflow m =>
    cases hc
    exact hflow label

theorem within_body (lines : List Line) (fuel : Nat) (m : Machine) :
    Within lines fuel m.saves.depth (.body lines fuel m) := .line _ 0 rfl

/-- What a step enters is within the body, under the frames that were there. -/
theorem Within.enter {fuel depth n next : Nat} {size : Nat ×ₗ Nat} {e : Entry} {inner : List Frame}
    {m m' : Machine} (he : e.Inner false size m.saves.depth m'.saves.depth)
    (hinner : ∀ f ∈ inner, f.isTop = false) (hnested : Nested inner depth m.saves.depth) :
    Within lines fuel depth ⟨e.focus, e.frames ++ (inner ++ [.line (.body lines fuel) n next]), m'⟩ := by
  rw [← List.append_assoc]
  have hall := nested_append.mpr ⟨_, he.nested, hnested⟩
  refine .inside n next (fun p hp => le_bot_iff.mp (he.focus p hp).1) ?_ hall
  intro f hf
  rcases List.mem_append.mp hf with hf | hf
  · exact le_bot_iff.mp (he.frames f hf).1
  · exact hinner f hf

/-- A step that goes on has entered something. -/
theorem exists_of_under {frames : List Frame} {r : Outcome Entry} {c : Config}
    (h : Progress.under lines frames r = .on c) :
    ∃ e m, r = .done e m ∧ c = ⟨e.focus, e.frames ++ frames, m⟩ := by
  cases r with
  | done e m =>
    cases h
    exact ⟨e, m, rfl, rfl⟩
  | failed error m => cases h
  | outOfFuel => cases h

/-- What the range of the body does when the code of one of its lines has ended. -/
theorem Within.resume {fuel n next : Nat} {flow : Flow} {m m' : Machine} {e : Entry}
    (hdone : (Frame.line (.body lines fuel) n next).advance lines flow m = .done e m') :
    Within lines fuel m.saves.depth ⟨e.focus, e.frames ++ [], m'⟩ := by
  cases flow with
  | next =>
    cases hdone
    exact .line n next rfl
  | exit =>
    cases hdone
    exact .ended (fun label h => by cases h) m
  | jump label =>
    rw [Frame.advance] at hdone
    cases hlabel : Block.label? lines (Range.body lines fuel).start (Range.body lines fuel).stop label with
    | some target =>
      rw [hlabel] at hdone
      cases hdone
      exact .line n target rfl
    | none =>
      rw [hlabel] at hdone
      cases hdone

/-- **A step stays within the body**, whatever it does. -/
theorem Within.step {fuel depth : Nat} {c c' : Config} (h : Within lines fuel depth c)
    (hstep : c.step lines = .on c') : Within lines fuel depth c' := by
  cases h with
  | line n i hdepth =>
    obtain ⟨e, m', hdone, rfl⟩ := exists_of_under hstep
    rcases advance_lines lines hdone with ⟨rfl, rfl⟩ | ⟨k, rfl, ⟨next, rfl, hkeep⟩ | ⟨next, e₀, rfl, hinner⟩⟩
    · exact .ended (fun label h => by cases h) m'
    · exact .line k next (hkeep.trans hdepth)
    · have henter : Within lines fuel depth
          ⟨e₀.focus, e₀.frames ++ ([] ++ [.line (.body lines fuel) k next]), m'⟩ :=
        Within.enter hinner (fun f hf => by cases hf) hdepth
      rw [List.append_nil]
      exact henter
  | @inside focus inner n next m hfocus hinner hnested =>
    cases focus with
    | running p =>
      obtain ⟨e, m', hdone, rfl⟩ := exists_of_under hstep
      have he := advance_enters lines p m e m' hdone
      rw [hfocus p rfl] at he
      exact Within.enter he hinner hnested
    | ended flow =>
      cases inner with
      | nil =>
        -- The body itself takes over; only here can a run end, and not with a jump.
        obtain ⟨e, m', hdone, rfl⟩ := exists_of_under hstep
        cases hnested
        exact Within.resume hdone
      | cons f inner =>
        obtain ⟨e, m', hdone, rfl⟩ := exists_of_under hstep
        have hrest : ∀ g ∈ inner, g.isTop = false := fun g hg => hinner g (List.mem_cons_of_mem _ hg)
        cases hgroup : f.mark? with
        | some mark =>
          obtain rfl := eq_group_of_mark? hgroup
          cases hdone
          refine .inside n next (fun p hp => by cases hp) hrest ?_
          rw [Machine.depth_release_of_succ hnested.1]
          exact hnested.2
        | none =>
          have he := resume_enters lines hgroup flow m e m' hdone
          rw [hinner f List.mem_cons_self] at he
          exact Within.enter he hrest ((nested_cons_of_mark? hgroup).mp hnested)
  | ended hflow m => cases hstep

/-- By induction on the steps from the start of the body. -/
theorem within_of_reaches {fuel : Nat} {m₀ : Machine} {c : Config} (h : Reaches lines (.body lines fuel m₀) c) :
    Within lines fuel m₀.saves.depth c := by
  induction h with
  | refl => exact within_body lines fuel m₀
  | tail _ hstep ih => exact ih.step hstep

/-! ## Leaving blocks -/

/-- A line of the range carries the label. -/
def Range.Carries (lines : List Line) (label : String) (r : Range) : Prop :=
  ∃ i line, r.start ≤ i ∧ i < r.stop ∧ lines[i]? = some line ∧ line.label = some label

/-- The first line of the range that carries the label. -/
structure Range.First (lines : List Line) (label : String) (r : Range) (target : Nat) : Prop where
  start_le : r.start ≤ target
  lt_stop : target < r.stop
  carries : ∃ line, lines[target]? = some line ∧ line.label = some label
  before : ∀ i line, r.start ≤ i → i < target → lines[i]? = some line → line.label ≠ some label

variable {label : String}

theorem label?_of_not_carries {r : Range} (h : ¬ r.Carries lines label) :
    Block.label? lines r.start r.stop label = none :=
  Block.label?_eq_none_iff.mpr fun i line hstart hstop hline heq => h ⟨i, line, hstart, hstop, hline, heq⟩

/-- A range that carries a label has a first line with it. -/
theorem exists_first {r : Range} (h : r.Carries lines label) :
    ∃ target, Block.label? lines r.start r.stop label = some target ∧ r.First lines label target := by
  cases hlabel : Block.label? lines r.start r.stop label with
  | none =>
    obtain ⟨i, line, hstart, hstop, hline, heq⟩ := h
    exact absurd heq (Block.label?_eq_none_iff.mp hlabel i line hstart hstop hline)
  | some target =>
    obtain ⟨hstart, hstop, hcarries, hbefore⟩ := Block.label?_eq_some hlabel
    exact ⟨target, rfl, hstart, hstop, hcarries, hbefore⟩

/-- Frames whose ranges do not carry the label. -/
def Without (lines : List Line) (label : String) (frames : List Frame) : Prop :=
  ∀ r n next, Frame.line r n next ∈ frames → ¬ r.Carries lines label

/-- A jump leaves all frames below the top whose ranges do not carry its label, and their groups are
put back. -/
theorem reaches_outer {inner : List Frame} (outer : List Frame) {depth : Nat} {m : Machine}
    (htop : ∀ f ∈ inner, f.isTop = false) (hnested : Nested inner depth m.saves.depth)
    (hwithout : Without lines label inner) :
    Reaches lines ⟨.ended (.jump label), inner ++ outer, m⟩
      ⟨.ended (.jump label), outer, m.restore (groups inner)⟩ := by
  -- By induction on the frames, from the inside; the groups that are still open are those of the rest.
  induction inner generalizing m with
  | nil => exact .refl
  | cons f inner ih =>
    have htop' : ∀ g ∈ inner, g.isTop = false := fun g hg => htop g (List.mem_cons_of_mem _ hg)
    have hwithout' : Without lines label inner := fun r n next h => hwithout r n next (List.mem_cons_of_mem _ h)
    cases f with
    | group mark =>
      have hdepth := Machine.depth_release_of_succ hnested.1
      have hrest := ih htop' (hdepth.symm ▸ hnested.2) hwithout'
      rw [Machine.restore_release hnested.1] at hrest
      exact .head rfl hrest
    | line r n next =>
      have hnone := label?_of_not_carries (hwithout r n next List.mem_cons_self)
      have hbelow : r.top = false := htop _ List.mem_cons_self
      refine .head ?_ (ih htop' hnested hwithout')
      show Progress.under lines (inner ++ outer) (Frame.advance lines (.line r n next) (.jump label) m) = _
      rw [Frame.advance, hnone, hbelow]
      rfl
    | step loop n => exact .head rfl (ih htop' hnested hwithout')
    | turns loop n => exact .head rfl (ih htop' hnested hwithout')
    | count loop amount n => exact .head rfl (ih htop' hnested hwithout')

theorem without_nil : Without lines label [] := fun r n next hmem => by cases hmem

/-- Frames without the label, one by one. -/
theorem without_cons {f : Frame} {frames : List Frame} :
    Without lines label (f :: frames) ↔ Without lines label [f] ∧ Without lines label frames := by
  constructor
  · intro h
    exact ⟨fun r n next hmem => h r n next (List.mem_singleton.mp hmem ▸ List.mem_cons_self),
      fun r n next hmem => h r n next (List.mem_cons_of_mem _ hmem)⟩
  · rintro ⟨hf, hframes⟩ r n next hmem
    rcases List.mem_cons.mp hmem with rfl | hmem
    · exact hf r n next List.mem_cons_self
    · exact hframes r n next hmem

/-- Among frames there is an innermost one whose range carries the label, if any does. -/
theorem exists_innermost {frames : List Frame} (h : ¬ Without lines label frames) :
    ∃ inner r n next outer, frames = inner ++ .line r n next :: outer ∧ Without lines label inner ∧
      r.Carries lines label := by
  induction frames with
  | nil => exact absurd without_nil h
  | cons f frames ih =>
    by_cases hf : Without lines label [f]
    · have hframes : ¬ Without lines label frames := fun hframes => h (without_cons.mpr ⟨hf, hframes⟩)
      obtain ⟨inner, r, n, next, outer, rfl, hwithout, hcarries⟩ := ih hframes
      exact ⟨f :: inner, r, n, next, outer, rfl, without_cons.mpr ⟨hf, hwithout⟩, hcarries⟩
    · unfold Without at hf
      push Not at hf
      obtain ⟨r, n, next, hmem, hcarries⟩ := hf
      obtain rfl := List.mem_singleton.mp hmem
      exact ⟨[], r, n, next, frames, rfl, without_nil, hcarries⟩

/-! ## The jump -/

/-- The label of the jump that a configuration is about to make, trimmed and in upper case, and the
machine after its argument. -/
def Config.jump? : Config → Option (String × Machine)
  | ⟨.running (.statements fuel line _ _ (s :: _)), _, m⟩ =>
    if s.kind = .jump then
      match statementArgs (Calls.ofFuel fuel) line s m with
      | .done args m' => some (String.ofList (Text.upper (Text.trim (textArg args 0).toList)), m')
      | _ => none
    else none
  | _ => none

/-- A jump is a statement, the argument of which has been evaluated. -/
theorem exists_of_jump? {c : Config} {m : Machine} (h : c.jump? = some (label, m)) :
    ∃ fuel line stop index s rest args,
      c.focus = .running (.statements fuel line stop index (s :: rest)) ∧ s.kind = .jump ∧
        statementArgs (Calls.ofFuel fuel) line s c.machine = .done args m ∧
        String.ofList (Text.upper (Text.trim (textArg args 0).toList)) = label := by
  unfold Config.jump? at h
  split at h
  · next fuel line stop index s rest frames m₀ =>
    split at h
    · next hkind =>
      split at h
      · next args m' hargs =>
        obtain ⟨hlabel, rfl⟩ := Prod.mk.inj (Option.some.inj h)
        exact ⟨fuel, line, stop, index, s, rest, args, rfl, hkind, hargs, hlabel⟩
      · cases h
    · cases h
  · cases h

/-- A jump ends the statements of its line and changes nothing else. -/
theorem step_of_jump? (lines : List Line) {c : Config} {m : Machine} (h : c.jump? = some (label, m)) :
    c.step lines = .on ⟨.ended (.jump label), c.frames, m⟩ ∧ m.saves.depth = c.machine.saves.depth := by
  obtain ⟨fuel, line, stop, index, s, rest, args, hfocus, hkind, hargs, hlabel⟩ := exists_of_jump? h
  obtain ⟨focus, frames, m₀⟩ := c
  cases hfocus
  refine ⟨?_, depth_of_obeys (statementArgs_obeys (Calls.ofFuel_frame fuel) line s) hargs⟩
  have hrun : runSimple (Calls.ofFuel fuel) line s m₀ = .done (.jump label) m := by
    rw [runSimple, hkind, ← hlabel]
    show Run.andThen _ _ m₀ = _
    rw [Run.andThen, hargs]
    rfl
  show Progress.under lines frames (enterStatement lines fuel line stop index (s :: rest) m₀) = _
  rw [enterStatement, hkind]
  show Progress.under lines frames (Run.andThen _ _ m₀) = _
  rw [Run.andThen, hrun]
  rfl

/-- From a jump to the first line with its label in the innermost range that has one. -/
theorem reaches_target {c : Config} {m : Machine} (hjump : c.jump? = some (label, m)) {inner outer : List Frame}
    {r : Range} {n next depth : Nat} (hframes : c.frames = inner ++ .line r n next :: outer)
    (htop : ∀ f ∈ inner, f.isTop = false) (hnested : Nested c.frames depth c.machine.saves.depth)
    (hwithout : Without lines label inner) (hcarries : r.Carries lines label) :
    ∃ target, r.First lines label target ∧ (m.restore (groups inner)).saves.depth = depth + groups outer ∧
      Reaches lines c ⟨.running (.lines r n target), outer, m.restore (groups inner)⟩ := by
  obtain ⟨target, hlabel, hfirst⟩ := exists_first hcarries
  obtain ⟨hstep, hdepth⟩ := step_of_jump? lines hjump
  rw [hframes] at hstep hnested
  rw [← hdepth] at hnested
  obtain ⟨middle, hinner, houter⟩ := nested_append.mp hnested
  refine ⟨target, hfirst, ?_, .head hstep ((reaches_outer _ htop hinner hwithout).tail ?_)⟩
  · rw [Machine.depth_restore, Stacked.depth hinner, groups, Nat.add_sub_cancel]
    exact Stacked.depth houter
  · show Progress.under lines outer (Frame.advance lines (.line r n next) (.jump label) _) = _
    rw [Frame.advance, hlabel]
    rfl

/-- An error passes all frames. -/
theorem closeAll_failed (frames : List Frame) (e : Error) (m : Machine) :
    ∃ m', closeAll lines frames (.failed e m) = .failed e m' := by
  induction frames generalizing m with
  | nil => exact ⟨m, rfl⟩
  | cons f frames ih => exact ih (f.spoil e m)

/-- Only a flow under no frame is a result. -/
theorem eq_of_step_over {c : Config} {flow : Flow} {m : Machine} (h : c.step lines = .over (.done flow m)) :
    c = ⟨.ended flow, [], m⟩ := by
  have hunder {frames : List Frame} {r : Outcome Entry}
      (h : Progress.under lines frames r = .over (.done flow m)) : False := by
    cases r with
    | done e m' => cases h
    | failed e m' =>
      obtain ⟨m'', hfailed⟩ := closeAll_failed frames e m'
      rw [Progress.under, hfailed] at h
      cases h
    | outOfFuel => cases h
  obtain ⟨focus, frames, m'⟩ := c
  cases focus with
  | running p => exact (hunder h).elim
  | ended flow' =>
    cases frames with
    | nil =>
      cases h
      rfl
    | cons f frames => exact (hunder h).elim

/-- The frames around a jump end with the one of the body. -/
theorem Within.inside_of_jump? {fuel depth : Nat} {c : Config} (h : Within lines fuel depth c) {m : Machine}
    (hjump : c.jump? = some (label, m)) :
    ∃ inner n next, c.frames = inner ++ [.line (.body lines fuel) n next] ∧ (∀ f ∈ inner, f.isTop = false) ∧
      Nested inner depth c.machine.saves.depth := by
  cases h with
  | line n i hdepth => cases hjump
  | inside n next hfocus hinner hnested => exact ⟨_, n, next, rfl, hinner, hnested⟩
  | ended hflow m => cases hjump

theorem carries_body {fuel : Nat} (h : ∃ line ∈ lines, line.label = some label) :
    (Range.body lines fuel).Carries lines label := by
  obtain ⟨line, hmem, hlabel⟩ := h
  obtain ⟨i, hline⟩ := List.mem_iff_getElem?.mp hmem
  exact ⟨i, line, Nat.zero_le i, (List.getElem?_eq_some_iff.mp hline).1, hline, hlabel⟩

theorem without_of_forall (h : ∀ line ∈ lines, line.label ≠ some label) (frames : List Frame) :
    Without lines label frames := by
  rintro r n next - ⟨i, line, -, -, hline, hlabel⟩
  exact h line (List.mem_of_getElem? hline) hlabel

/-- A jump out of all frames of a body ends with the error that the label is missing. -/
theorem outcome_of_without {c : Config} {m : Machine} (hjump : c.jump? = some (label, m)) {inner : List Frame}
    {r : Range} {n next depth : Nat} (hframes : c.frames = inner ++ [.line r n next]) (hr : r.top = true)
    (htop : ∀ f ∈ inner, f.isTop = false) (hnested : Nested inner depth c.machine.saves.depth)
    (hwithout : Without lines label c.frames) :
    c.outcome lines
      = .failed (missingLabel label) ((m.restore (groups inner)).markError (missingLabel label)) := by
  obtain ⟨hstep, hdepth⟩ := step_of_jump? lines hjump
  rw [← hdepth] at hnested
  rw [hframes] at hstep hwithout
  have hinner : Without lines label inner :=
    fun r n next hmem => hwithout r n next (List.mem_append_left _ hmem)
  have hnone := label?_of_not_carries (hwithout r n next (List.mem_append_right _ List.mem_cons_self))
  have hreach : Reaches lines c ⟨.ended (.jump label), [.line r n next], m.restore (groups inner)⟩ :=
    .head hstep (reaches_outer _ htop hnested hinner)
  rw [← hreach.outcome, ← outcome_step]
  show Progress.outcome lines (.under lines [] (Frame.advance lines (.line r n next) (.jump label) _)) = _
  rw [Frame.advance, hnone, hr]
  rfl

/-- **A jump is resolved in its body.** The steps of a body are its run: they come to an end, and
that end is its outcome. When they come to a `JUMP` and some line of the body has its label, they go
on at the first such line of the innermost range around the jump that has one; the groups of the
blocks that are left have been put back by then, and no others. Otherwise the body fails. It never
ends with a jump. -/
theorem jump_resolves (lines : List Line) (fuel : Nat) (m₀ : Machine) :
    (∃ last, Reaches lines (.body lines fuel m₀) last ∧
      last.step lines = .over ((Calls.ofFuel (fuel + 1)).lines lines 0 lines.length true m₀)) ∧
    (∀ c label m, Reaches lines (.body lines fuel m₀) c → c.jump? = some (label, m) →
      ((∃ line ∈ lines, line.label = some label) →
        ∃ inner r n next outer target, c.frames = inner ++ .line r n next :: outer ∧
          Without lines label inner ∧ r.First lines label target ∧
          (m.restore (groups inner)).saves.depth = m₀.saves.depth + groups outer ∧
          Reaches lines c ⟨.running (.lines r n target), outer, m.restore (groups inner)⟩ ∧
          (Calls.ofFuel (fuel + 1)).lines lines 0 lines.length true m₀
            = under lines outer (linesFrom r.calls lines r.start r.stop r.top n target)
              (m.restore (groups inner))) ∧
      ((∀ line ∈ lines, line.label ≠ some label) →
        (Calls.ofFuel (fuel + 1)).lines lines 0 lines.length true m₀
          = .failed (missingLabel label) ((m.restore (groups c.frames)).markError (missingLabel label)))) ∧
    ∀ label m, (Calls.ofFuel (fuel + 1)).lines lines 0 lines.length true m₀ ≠ .done (.jump label) m := by
  obtain ⟨last, hlast, hover⟩ := reaches_outcome lines (.body lines fuel m₀)
  rw [outcome_body] at hover
  refine ⟨⟨last, hlast, hover⟩, ?_, ?_⟩
  · intro c label m hreach hjump
    have houtcome := hreach.outcome.trans (outcome_body lines fuel m₀)
    obtain ⟨inner, n, next, hframes, hinner, hnested⟩ := (within_of_reaches hreach).inside_of_jump? hjump
    refine ⟨?_, ?_⟩
    · intro hlabel
      obtain ⟨inner', r, n', next', outer, hsplit, htop, hwithout, hcarries⟩ :
          ∃ inner' r n' next' outer, c.frames = inner' ++ .line r n' next' :: outer ∧
            (∀ f ∈ inner', f.isTop = false) ∧ Without lines label inner' ∧ r.Carries lines label := by
        -- some block around the jump has the label, or the body itself is the first to have it
        by_cases hwithout : Without lines label inner
        · exact ⟨inner, .body lines fuel, n, next, [], hframes, hinner, hwithout, carries_body hlabel⟩
        · obtain ⟨inner', r, n', next', outer, rfl, hwithout, hcarries⟩ := exists_innermost hwithout
          refine ⟨inner', r, n', next', outer ++ [.line (.body lines fuel) n next], ?_, ?_, hwithout, hcarries⟩
          · rw [hframes, List.append_assoc, List.cons_append]
          · exact fun f hf => hinner f (List.mem_append_left _ hf)
      have hall : Nested c.frames m₀.saves.depth c.machine.saves.depth := by
        rw [hframes]
        exact nested_append.mpr ⟨_, hnested, rfl⟩
      obtain ⟨target, hfirst, hdepth, htarget⟩ := reaches_target hjump hsplit htop hall hwithout hcarries
      exact ⟨inner', r, n', next', outer, target, hsplit, hwithout, hfirst, hdepth, htarget,
        houtcome.symm.trans htarget.outcome.symm⟩
    · intro hnone
      -- no frame takes the jump, and the body reports it
      have hfail := outcome_of_without hjump hframes rfl hinner hnested (without_of_forall hnone _)
      rw [houtcome] at hfail
      rw [hfail, hframes, groups_append]
      rfl
  · intro label m hdone
    rw [hdone] at hover
    exact (within_of_reaches hlast).ne_jump (eq_of_step_over hover) label rfl

/-- The configuration after a number of steps. -/
def Config.after (lines : List Line) : Nat → Config → Option Config
  | 0, c => some c
  | k + 1, c =>
    match c.step lines with
    | .on c' => c'.after lines k
    | .over _ => none

/-- Steps that are counted are steps. -/
theorem reaches_of_after {k : Nat} {c c' : Config} (h : c.after lines k = some c') : Reaches lines c c' := by
  induction k generalizing c with
  | zero =>
    cases h
    exact .refl
  | succ k ih =>
    rw [Config.after] at h
    split at h
    · next c₁ hstep => exact .head hstep (ih h)
    · cases h

theorem exists_jump_of_after {k : Nat} {c : Config}
    (h : ((c.after lines k).bind Config.jump?).map (·.1) = some label) :
    ∃ c' m, Reaches lines c c' ∧ c'.jump? = some (label, m) := by
  obtain ⟨⟨label', m⟩, hjump, rfl⟩ := Option.map_eq_some_iff.mp h
  obtain ⟨c', hafter, hjump⟩ := Option.bind_eq_some_iff.mp hjump
  exact ⟨c', m, reaches_of_after hafter, hjump⟩

/-- A jump out of a block that has saved a variable. -/
def homeward : List Line := Line.ofSource "IF 1:\n LOCAL X = 2\n JUMP ' home '\nEND\n:HOME".toList

/-- A jump out of a loop to a label that is nowhere. -/
def astray : List Line := Line.ofSource "LOOP WHILE 1:\n JUMP 'away'\nEND\n:HOME".toList

theorem jump_resolves_sample :
    (∃ c m, Reaches homeward (.body homeward 8 (Machine.new {} {})) c ∧ c.jump? = some ("HOME", m) ∧
      ∃ inner r n next outer target, c.frames = inner ++ .line r n next :: outer ∧
        Without homeward "HOME" inner ∧ r.First homeward "HOME" target ∧
        Reaches homeward c ⟨.running (.lines r n target), outer, m.restore (groups inner)⟩) ∧
    ∃ m, (Calls.ofFuel 9).lines astray 0 astray.length true (Machine.new {} {})
      = .failed (missingLabel "AWAY") m := by
  refine ⟨?_, ?_⟩
  · have hafter : (((Config.body homeward 8 (Machine.new {} {})).after homeward 6).bind Config.jump?).map (·.1)
        = some "HOME" := by decide +kernel
    obtain ⟨c, m, hreach, hjump⟩ := exists_jump_of_after hafter
    have hlabel : (homeward.any (·.label == some "HOME")) = true := by decide +kernel
    obtain ⟨line, hmem, hline⟩ := List.any_eq_true.mp hlabel
    have hresolves := (jump_resolves homeward 8 (Machine.new {} {})).2.1 c "HOME" m hreach hjump
    obtain ⟨inner, r, n, next, outer, target, hframes, hwithout, hfirst, -, htarget, -⟩ :=
      hresolves.1 ⟨line, hmem, eq_of_beq hline⟩
    exact ⟨c, m, hreach, hjump, inner, r, n, next, outer, target, hframes, hwithout, hfirst, htarget⟩
  · have hafter : (((Config.body astray 8 (Machine.new {} {})).after astray 3).bind Config.jump?).map (·.1)
        = some "AWAY" := by decide +kernel
    obtain ⟨c, m, hreach, hjump⟩ := exists_jump_of_after hafter
    have hlabel : (astray.all (·.label != some "AWAY")) = true := by decide +kernel
    have hresolves := (jump_resolves astray 8 (Machine.new {} {})).2.1 c "AWAY" m hreach hjump
    exact ⟨_, hresolves.2 fun line hmem => bne_iff_ne.mp (List.all_eq_true.mp hlabel line hmem)⟩

end Control

end QuestScript
