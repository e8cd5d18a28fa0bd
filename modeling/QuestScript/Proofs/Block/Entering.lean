import Mathlib.Data.Prod.Lex
import QuestScript.Proofs.Block.Control
import QuestScript.Proofs.Frame

/-!
# What a step enters

Every point and every frame has a size, the fuel of its calls first. `Entry.Inner` says what holds of
code that a step enters and of the frames that it opens:

* all of it is smaller than what made the step;
* none of it is at the top of the body;
* the groups that it has opened are those of its frames, one above the other.

By the first of these the steps come to an end, which is the outcome: `reaches_outcome`.
-/

namespace QuestScript

namespace Control

open Machine

variable {lines : List Line}

/-! ## Sizes -/

/-- Lines and statements are larger than all the loops among them. -/
def base (fuel : Nat) : Nat := 3 * (Calls.ofFuel fuel).turns + 2

def Point.size : Point → Nat ×ₗ Nat
  | .lines r n _ => toLex (r.fuel, base r.fuel + 2 * n)
  | .statements fuel _ _ _ rest => toLex (fuel, base fuel + rest.length)
  | .turns loop n => toLex (loop.fuel, 3 * n)
  | .counts loop n => toLex (loop.fuel, 3 * n)

def Frame.size : Frame → Nat ×ₗ Nat
  | .group _ => toLex (0, 0)
  | .line r n _ => toLex (r.fuel, base r.fuel + 2 * n + 1)
  | .step loop n => toLex (loop.fuel, 3 * n + 2)
  | .turns loop n => toLex (loop.fuel, 3 * n + 1)
  | .count loop _ n => toLex (loop.fuel, 3 * n + 1)

/-- Code with less fuel is smaller, however much of it there is. -/
theorem toLex_lt_of_fuel {fuel fuel' : Nat} (h : fuel < fuel') (a b : Nat) :
    toLex (fuel, a) < toLex (fuel', b) :=
  Prod.Lex.toLex_lt_toLex.mpr (.inl h)

/-- Among code with the same fuel the second number decides. -/
theorem toLex_lt_of_rank (fuel : Nat) {a b : Nat} (h : a < b) : toLex (fuel, a) < toLex (fuel, b) :=
  Prod.Lex.toLex_lt_toLex.mpr (.inr ⟨rfl, h⟩)

/-- The frame of a group is smaller than all code that has something left to do. -/
theorem size_group_lt (mark fuel : Nat) {rank : Nat} (h : 0 < rank) :
    (Frame.group mark).size < toLex (fuel, rank) := by
  rcases Nat.eq_zero_or_pos fuel with rfl | hpos
  · exact toLex_lt_of_rank 0 h
  · exact toLex_lt_of_fuel hpos _ _

/-! ## Open groups and the top range -/

/-- Groups with the given marks, the innermost first, are open one above the other, from depth
`outer` up to depth `inner`. -/
def Stacked : List Nat → Nat → Nat → Prop
  | [], outer, inner => inner = outer
  | mark :: marks, outer, inner => inner = mark + 1 ∧ Stacked marks outer mark

/-- Groups that are stacked can be cut in two at any depth between the outer and the inner one. -/
theorem stacked_append {xs ys : List Nat} {outer inner : Nat} :
    Stacked (xs ++ ys) outer inner ↔ ∃ depth, Stacked xs depth inner ∧ Stacked ys outer depth := by
  induction xs generalizing inner with
  | nil =>
    constructor
    · exact fun h => ⟨inner, rfl, h⟩
    · rintro ⟨depth, rfl, h⟩
      exact h
  | cons mark xs ih =>
    constructor
    · rintro ⟨rfl, h⟩
      obtain ⟨depth, hxs, hys⟩ := ih.mp h
      exact ⟨depth, ⟨rfl, hxs⟩, hys⟩
    · rintro ⟨depth, ⟨rfl, hxs⟩, hys⟩
      exact ⟨rfl, ih.mpr ⟨depth, hxs, hys⟩⟩

/-- Each group adds one to the depth. -/
theorem Stacked.depth {marks : List Nat} {outer inner : Nat} (h : Stacked marks outer inner) :
    inner = outer + marks.length := by
  induction marks generalizing inner with
  | nil => exact h
  | cons mark marks ih => rw [h.1, ih h.2, List.length_cons, Nat.add_assoc]

/-- The mark of the frame of a group. -/
def Frame.mark? : Frame → Option Nat
  | .group mark => some mark
  | _ => none

theorem eq_group_of_mark? {f : Frame} {mark : Nat} (h : f.mark? = some mark) : f = .group mark := by
  cases f with
  | group mark' => rw [Option.some.inj h]
  | line r n next => cases h
  | step loop n => cases h
  | turns loop n => cases h
  | count loop amount n => cases h

/-- The groups of frames are those that are open above depth `outer`. -/
def Nested (frames : List Frame) (outer inner : Nat) : Prop :=
  Stacked (frames.filterMap Frame.mark?) outer inner

theorem nested_append {fs gs : List Frame} {outer inner : Nat} :
    Nested (fs ++ gs) outer inner ↔ ∃ depth, Nested fs depth inner ∧ Nested gs outer depth := by
  unfold Nested
  rw [List.filterMap_append]
  exact stacked_append

/-- Only the frames of groups say how deep the groups are. -/
theorem nested_cons_of_mark? {f : Frame} (h : f.mark? = none) {frames : List Frame} {outer inner : Nat} :
    Nested (f :: frames) outer inner ↔ Nested frames outer inner := by
  unfold Nested
  rw [List.filterMap_cons_none h]

/-- The frame of a line in the top range of a body. -/
def Frame.isTop : Frame → Bool
  | .line r _ _ => r.top
  | _ => false

def Point.isTop : Point → Bool
  | .lines r _ _ => r.top
  | _ => false

/-- Code that is smaller than `size`, with the groups that were opened on the way into it. None of it
is in the top range unless `top` allows for that. -/
structure Entry.Inner (top : Bool) (size : Nat ×ₗ Nat) (e : Entry) (outer inner : Nat) : Prop where
  focus : ∀ p, e.focus = .running p → p.isTop ≤ top ∧ p.size < size
  frames : ∀ f ∈ e.frames, f.isTop ≤ top ∧ f.size < size
  nested : Nested e.frames outer inner

namespace Entry.Inner

variable {top top' : Bool} {size size' : Nat ×ₗ Nat} {e : Entry} {outer inner : Nat}

theorem mono (h : e.Inner top size outer inner) (htop : top ≤ top') (hsize : size ≤ size') :
    e.Inner top' size' outer inner where
  focus p hp := ⟨(h.focus p hp).1.trans htop, (h.focus p hp).2.trans_le hsize⟩
  frames f hf := ⟨(h.frames f hf).1.trans htop, (h.frames f hf).2.trans_le hsize⟩
  nested := h.nested

/-- A frame that stands around the code may be of any kind but a group, which would count for the depth. -/
theorem push (h : e.Inner top size outer inner) {f : Frame} (htop : f.isTop ≤ top) (hsize : f.size < size)
    (hgroup : f.mark? = none) : (e.push [f]).Inner top size outer inner where
  focus := h.focus
  frames g hg := by
    rcases List.mem_append.mp hg with hg | hg
    · exact h.frames g hg
    · rw [List.mem_singleton.mp hg]
      exact ⟨htop, hsize⟩
  nested := nested_append.mpr ⟨_, h.nested, (nested_cons_of_mark? hgroup).mpr rfl⟩

end Entry.Inner

/-! ## Runs that enter code -/

/-- A run that enters such code. -/
def Enters (top : Bool) (size : Nat ×ₗ Nat) (x : Run Entry) : Prop :=
  ∀ m e m', x m = .done e m' → e.Inner top size m.saves.depth m'.saves.depth

/-- A run that keeps the frame leaves as many groups as it has found. -/
theorem depth_of_obeys {α : Type} {x : Run α} (hx : x.Obeys frame) {m m' : Machine} {a : α}
    (h : x m = .done a m') : m'.saves.depth = m.saves.depth := (hx.ok h).2.2.depth

section

variable {α : Type} {top : Bool} {size : Nat ×ₗ Nat}

theorem enters_running {p : Point} (htop : p.isTop ≤ top) (hsize : p.size < size) :
    Enters top size (pure ⟨.running p, []⟩) := by
  intro m e m' hdone
  cases hdone
  refine ⟨fun q hq => ?_, fun f hf => ?_, rfl⟩
  · cases hq
    exact ⟨htop, hsize⟩
  · cases hf

theorem enters_ended (flow : Flow) : Enters top size (pure ⟨.ended flow, []⟩) := by
  intro m e m' hdone
  cases hdone
  refine ⟨fun p hp => ?_, fun f hf => ?_, rfl⟩
  · cases hp
  · cases hf

theorem enters_fail (error : Error) : Enters top size (Run.fail error) := by
  intro m e m' hdone
  cases hdone

/-- What is run before the code is entered closes its own groups, so the code is entered at the same
depth. -/
theorem Enters.bind {x : Run α} {f : α → Run Entry} (hx : x.Obeys frame) (hf : ∀ a, Enters top size (f a)) :
    Enters top size (x >>= f) := by
  intro m e m' hdone
  obtain ⟨a, m₁, hfirst, hsecond⟩ := Run.bind_eq_done hdone
  have hinner := hf a m₁ e m' hsecond
  exact ⟨hinner.focus, hinner.frames, depth_of_obeys hx hfirst ▸ hinner.nested⟩

theorem enters_ite {p : Prop} [Decidable p] {x y : Run Entry} (hx : Enters top size x)
    (hy : Enters top size y) : Enters top size (if p then x else y) := by
  split
  · exact hx
  · exact hy

theorem Enters.mono {x : Run Entry} {size' : Nat ×ₗ Nat} (h : Enters top size x) (hsize : size ≤ size') :
    Enters top size' x := fun m e m' hdone => (h m e m' hdone).mono le_rfl hsize

/-- Code that is entered in a group has the frame of that group around it. -/
theorem Enters.inGroup {x : Run Entry} (h : Enters top size x)
    (hsize : ∀ mark, (Frame.group mark).size < size) : Enters top size (inGroup x) := by
  intro m e m' hdone
  unfold Control.inGroup at hdone
  split at hdone
  · next e₀ m₀ hx =>
    cases hdone
    have hinner := h _ e₀ m' hx
    refine ⟨hinner.focus, fun f hf => ?_, nested_append.mpr ⟨_, hinner.nested, rfl, rfl⟩⟩
    rcases List.mem_append.mp hf with hf | hf
    · exact hinner.frames f hf
    · rw [List.mem_singleton.mp hf]
      exact ⟨Bool.false_le _, hsize _⟩
  · cases hdone
  · cases hdone

/-- Code that is entered inside a frame, such as the one of a loop that goes on after it. -/
theorem Enters.inFrame {x : Run Entry} (h : Enters top size x) {f : Frame} (htop : f.isTop ≤ top)
    (hsize : f.size < size) (hgroup : f.mark? = none) : Enters top size (inFrame f x) := by
  intro m e m' hdone
  obtain ⟨e₀, m₁, hx, hpush⟩ := Run.bind_eq_done hdone
  cases hpush
  exact (h m e₀ m' hx).push htop hsize hgroup

end

/-! ## Headers -/

variable (lines) (fuel : Nat) (line : Line)

/-- To enter a stretch of code takes fuel, and by that alone it is smaller, whatever its rank. -/
theorem enter_enters (code : Stretch) (rank : Nat) :
    Enters false (toLex (fuel, rank)) (enter lines code fuel) := by
  cases fuel with
  | zero =>
    intro m e m' hdone
    cases hdone
  | succ fuel =>
    have hsize (k : Nat) : toLex (fuel, k) < toLex (fuel + 1, rank) := toLex_lt_of_fuel (Nat.lt_succ_self _) _ _
    cases code with
    | lines start stop => exact enters_running (Bool.false_le _) (hsize _)
    | statements line start stop => exact enters_running (Bool.false_le _) (hsize _)

theorem enterGroup_enters (code : Stretch) {rank : Nat} (h : 0 < rank) :
    Enters false (toLex (fuel, rank)) (inGroup (enter lines code fuel)) :=
  (enter_enters lines fuel code rank).inGroup fun mark => size_group_lt mark fuel h

theorem base_pos : 0 < base fuel := Nat.succ_pos _

/-- The turns of a loop are smaller than the statements of a line, so they may be entered from there. -/
theorem size_turns_lt {rank : Nat} (h : rank ≤ 3 * (Calls.ofFuel fuel).turns + 1) :
    toLex (fuel, rank) < toLex (fuel, base fuel) := toLex_lt_of_rank fuel (Nat.lt_succ_of_le h)

/-- A loop opens a group and then enters its first part, or its turns if it has none. -/
theorem enterLoop_enters (s : Statement) (body : Stretch) :
    Enters false (toLex (fuel, base fuel)) (enterLoop lines fuel line s body) := by
  refine Enters.bind (requireColon_obeys line s) fun _ => ?_
  cases LoopHeader.read (line.params s) line.number with
  | none => exact enters_fail _
  | some h =>
    refine Enters.inGroup ?_ fun mark => size_group_lt mark fuel (base_pos fuel)
    cases h.init with
    | none => exact enters_running (Bool.false_le _) (size_turns_lt fuel (Nat.le_succ _))
    | some init =>
      exact (enter_enters lines fuel _ _).inFrame (Bool.false_le _) (size_turns_lt fuel le_rfl) rfl

/-- A counting loop gives its variable the first value in its own group and enters its turns there. -/
theorem enterFor_enters (s : Statement) (body : Stretch) :
    Enters false (toLex (fuel, base fuel)) (enterFor fuel line s body) := by
  refine Enters.bind (requireColon_obeys line s) fun _ => Enters.bind (Run.obeys_ofExcept _) fun h => ?_
  refine Enters.inGroup ?_ fun mark => size_group_lt mark fuel (base_pos fuel)
  refine Enters.bind ((Calls.ofFuel_frame fuel).eval _) fun first => Enters.bind (Run.obeys_localize _) fun _ =>
    Enters.bind (Run.obeys_onVars fun _ => .assign _ _ _ _) fun _ => ?_
  exact enters_running (Bool.false_le _) (size_turns_lt fuel (Nat.le_succ _))

/-- A conditional in one line enters one of its branches in a group, or it ends. -/
theorem enterIf_enters (index stop : Nat) (s : Statement) :
    Enters false (toLex (fuel, base fuel)) (enterIf lines fuel line index stop s) := by
  refine Enters.bind (requireColon_obeys line s) fun _ => enters_ite (enters_fail _) ?_
  refine Enters.bind (condition_obeys (Calls.ofFuel_frame fuel) line s) fun yes => ?_
  refine enters_ite (enterGroup_enters lines fuel _ (base_pos fuel)) ?_
  cases Block.inlineElse? 0 (index + 1) ((line.statements.take stop).drop (index + 1)) with
  | some e => exact enterGroup_enters lines fuel _ (base_pos fuel)
  | none => exact enters_ended _

/-- A statement enters its block, or the statements behind it, which are fewer by one. -/
theorem enterStatement_enters (stop index : Nat) (rest : List Statement) :
    Enters false (toLex (fuel, base fuel + rest.length)) (enterStatement lines fuel line stop index rest) := by
  have hcalls := Calls.ofFuel_frame fuel
  cases rest with
  | nil => exact enters_ended _
  | cons s rest =>
    have hbase : toLex (fuel, base fuel) ≤ toLex (fuel, base fuel + (s :: rest).length) :=
      (toLex_lt_of_rank fuel (Nat.lt_add_of_pos_right (Nat.succ_pos _))).le
    rw [enterStatement]
    cases s.kind with
    | comment => exact enters_ended _
    | elseIf => exact enters_ended _
    | ifThen => exact (enterIf_enters lines fuel line index stop s).mono hbase
    | act => exact Enters.bind (inlineAction_obeys hcalls line index stop s) fun _ => enters_ended _
    | loop => exact (enterLoop_enters lines fuel line s _).mono hbase
    | forTo => exact (enterFor_enters fuel line s _).mono hbase
    | _ =>
      refine Enters.bind (runSimple_obeys hcalls line s) fun flow => ?_
      cases flow with
      | next =>
        refine enters_running (Bool.false_le _) (toLex_lt_of_rank fuel ?_)
        exact Nat.add_lt_add_left (Nat.lt_succ_self _) _
      | exit => exact enters_ended _
      | jump label => exact enters_ended _

/-! ## Lines -/

/-- What a line may do first: the code it enters is below the top range. -/
def Opens (size : Nat ×ₗ Nat) (x : Run Opening) : Prop :=
  ∀ m o m', x m = .done o m' →
    match o with
    | .line _ => m'.saves.depth = m.saves.depth
    | .code _ e => e.Inner false size m.saves.depth m'.saves.depth

section

variable {α : Type} {size : Nat ×ₗ Nat}

theorem opens_line (next : Nat) : Opens size (pure (.line next)) := by
  intro m o m' hdone
  cases hdone
  rfl

theorem opens_code {x : Run Entry} (h : Enters false size x) (next : Nat) :
    Opens size (do return .code next (← x)) := by
  intro m o m' hdone
  obtain ⟨e, m₁, hx, hcode⟩ := Run.bind_eq_done hdone
  cases hcode
  exact h m e m' hx

/-- As for code that is entered: what is run first leaves the depth as it is. -/
theorem Opens.bind {x : Run α} {f : α → Run Opening} (hx : x.Obeys frame) (hf : ∀ a, Opens size (f a)) :
    Opens size (x >>= f) := by
  intro m o m' hdone
  obtain ⟨a, m₁, hfirst, hsecond⟩ := Run.bind_eq_done hdone
  have hopen := hf a m₁ o m' hsecond
  have hdepth := depth_of_obeys hx hfirst
  cases o with
  | line next => exact hopen.trans hdepth
  | code next e => exact ⟨hopen.focus, hopen.frames, hdepth ▸ hopen.nested⟩

theorem opens_ite {p : Prop} [Decidable p] {x y : Run Opening} (hx : Opens size x) (hy : Opens size y) :
    Opens size (if p then x else y) := by
  split
  · exact hx
  · exact hy

/-- The mark of a location is put on failures only, and a failure opens nothing. -/
theorem Opens.marked {x : Run Opening} (h : Opens size x) : Opens size x.marked := by
  intro m o m' hdone
  unfold Run.marked at hdone
  split at hdone
  · cases hdone
  · exact h m o m' hdone

end

theorem opens_group (code : Stretch) (next : Nat) :
    Opens (toLex (fuel, base fuel)) (do return .code next (← inGroup (enter lines code fuel))) :=
  opens_code (enterGroup_enters lines fuel code (base_pos fuel)) next

/-- A line without lines below it, or a branch reached from above: at most one group is opened. -/
theorem openSingle_opens (i stop : Nat) :
    Opens (toLex (fuel, base fuel)) (openSingle lines fuel i stop line) := by
  unfold openSingle
  dsimp only
  split
  · next s _ _ _ =>
    refine Opens.bind (requireColon_obeys line s) fun _ => Opens.bind (blockEnd_obeys lines i stop) fun e => ?_
    refine Opens.bind (condition_obeys (Calls.ofFuel_frame fuel) line s) fun yes => ?_
    exact opens_ite (opens_group lines fuel _ e) (opens_line _)
  · refine Opens.bind (blockEnd_obeys lines i stop) fun e => ?_
    exact opens_ite (opens_group lines fuel _ e) (opens_group lines fuel _ e)
  · exact opens_code (enter_enters lines fuel _ _) _

/-- The header of a block enters the block in a group, or it goes on at another line. -/
theorem openHeader_opens (i stop : Nat) :
    Opens (toLex (fuel, base fuel)) (openHeader lines fuel i stop line) := by
  have hcalls := Calls.ofFuel_frame fuel
  refine Opens.bind (blockEnd_obeys lines i stop) fun e => ?_
  split
  · refine Opens.bind (condition_obeys hcalls line _) fun yes => ?_
    exact opens_ite (opens_group lines fuel _ e) (opens_line _)
  · refine Opens.bind (condition_obeys hcalls line _) fun yes => ?_
    exact opens_ite (opens_group lines fuel _ e) (opens_line _)
  · exact Opens.bind (addAction_obeys hcalls line _ _) fun _ => opens_line _
  · exact opens_code (enterLoop_enters lines fuel line _ _) e
  · exact opens_code (enterFor_enters fuel line _ _) e
  · exact openSingle_opens lines fuel line i stop

theorem openLine_opens (i stop : Nat) : Opens (toLex (fuel, base fuel)) (openLine lines fuel i stop line) :=
  opens_ite (openHeader_opens lines fuel line i stop) (openSingle_opens lines fuel line i stop)

/-! ## Steps -/

/-- The step of a range leaves the range, or it opens a line of it. -/
theorem exists_opening {r : Range} {n i : Nat} {m m' : Machine} {e : Entry}
    (h : (Point.lines r n i).advance lines m = .done e m') :
    (e = ⟨.ended .next, []⟩ ∧ m' = m) ∨
      ∃ k line o, n = k + 1 ∧ i < r.stop ∧ lines[i]? = some line ∧ e = r.follow k o ∧
        (openLine lines r.fuel i r.stop line).marked { m with site.line := line.number } = .done o m' := by
  cases n with
  | zero => cases h
  | succ k =>
    rw [Point.advance] at h
    by_cases hstop : r.stop ≤ i
    · rw [if_pos hstop] at h
      cases h
      exact .inl ⟨rfl, rfl⟩
    · rw [if_neg hstop] at h
      cases hline : lines[i]? with
      | none =>
        rw [hline] at h
        cases h
        exact .inl ⟨rfl, rfl⟩
      | some line =>
        rw [hline] at h
        obtain ⟨_, m₁, hsite, hrest⟩ := Run.bind_eq_done h
        cases hsite
        obtain ⟨o, m₂, hopen, hfollow⟩ := Run.bind_eq_done hrest
        cases hfollow
        exact .inr ⟨k, line, o, rfl, Nat.lt_of_not_le hstop, rfl, rfl, hopen⟩

/-- **What the step of a range does**: the range is left, or it goes on at another line, or code is
entered below it. -/
theorem advance_lines {r : Range} {n i : Nat} {m m' : Machine} {e : Entry}
    (h : (Point.lines r n i).advance lines m = .done e m') :
    (e = ⟨.ended .next, []⟩ ∧ m' = m) ∨
      ∃ k, n = k + 1 ∧
        ((∃ next, e = ⟨.running (.lines r k next), []⟩ ∧ m'.saves.depth = m.saves.depth) ∨
          ∃ (next : Nat) (e₀ : Entry), e = e₀.push [.line r k next] ∧
            e₀.Inner false (toLex (r.fuel, base r.fuel)) m.saves.depth m'.saves.depth) := by
  rcases exists_opening lines h with hleft | ⟨k, line, o, rfl, -, -, rfl, hopen⟩
  · exact .inl hleft
  · have hopens := (openLine_opens lines r.fuel line i r.stop).marked _ _ _ hopen
    refine .inr ⟨k, rfl, ?_⟩
    cases o with
    | line next => exact .inl ⟨next, rfl, hopens⟩
    | code next e₀ => exact .inr ⟨next, e₀, rfl, hopens⟩

/-- A point enters code that is smaller, and not in the top range unless the point is. -/
theorem advance_enters (p : Point) : Enters p.isTop p.size (p.advance lines) := by
  cases p with
  | lines r n i =>
    intro m e m' hdone
    rcases advance_lines lines hdone with ⟨rfl, rfl⟩ | ⟨k, rfl, ⟨next, rfl, hdepth⟩ | ⟨next, e₀, rfl, hinner⟩⟩
    · exact enters_ended .next m' _ m' rfl
    · have hsize : (Point.lines r k next).size < (Point.lines r (k + 1) i).size :=
        toLex_lt_of_rank r.fuel (by omega)
      have hinner := enters_running (p := .lines r k next) le_rfl hsize m _ m rfl
      exact ⟨hinner.focus, hinner.frames, hdepth⟩
    · have hsize : (Frame.line r k next).size < (Point.lines r (k + 1) i).size :=
        toLex_lt_of_rank r.fuel (by omega)
      have hbase : toLex (r.fuel, base r.fuel) < (Point.lines r (k + 1) i).size :=
        toLex_lt_of_rank r.fuel (by omega)
      exact (hinner.mono (Bool.false_le _) hbase.le).push le_rfl hsize rfl
  | statements fuel line stop index rest => exact enterStatement_enters lines fuel line stop index rest
  | turns loop n =>
    cases n with
    | zero =>
      intro m e m' hdone
      cases hdone
    | succ n =>
      refine Enters.bind ((Calls.ofFuel_frame _).eval _) fun v => ?_
      refine Enters.bind (Run.obeys_ofExcept _) fun yes => ?_
      refine enters_ite ?_ (enters_ended _)
      refine (enterGroup_enters lines loop.fuel loop.body (Nat.succ_pos _)).inFrame le_rfl ?_ rfl
      exact toLex_lt_of_rank _ (Nat.lt_succ_self _)
  | counts loop n =>
    cases n with
    | zero =>
      intro m e m' hdone
      cases hdone
    | succ n =>
      refine Enters.bind (nextStep_obeys (Calls.ofFuel_frame _) _) fun step => ?_
      cases step with
      | none => exact enters_ended _
      | some amount =>
        refine (enterGroup_enters lines loop.fuel loop.body (Nat.succ_pos _)).inFrame le_rfl ?_ rfl
        exact toLex_lt_of_rank _ (Nat.lt_of_succ_lt (Nat.lt_succ_self _))

/-- A frame that is not one of a group goes on with code that is smaller. -/
theorem resume_enters {f : Frame} (hgroup : f.mark? = none) (flow : Flow) :
    Enters f.isTop f.size (f.advance lines flow) := by
  cases f with
  | group mark => cases hgroup
  | line r n next =>
    have hrange (i : Nat) : Enters r.top (Frame.line r n next).size (pure ⟨.running (.lines r n i), []⟩) :=
      enters_running le_rfl (toLex_lt_of_rank r.fuel (Nat.lt_succ_self _))
    cases flow with
    | next => exact hrange next
    | exit => exact enters_ended _
    | jump label =>
      rw [Frame.advance]
      cases Block.label? lines r.start r.stop label with
      | some target => exact hrange target
      | none =>
        refine enters_ite ?_ (enters_ended _)
        intro m e m' hdone
        cases hdone
  | step loop n =>
    cases flow with
    | next =>
      rw [Frame.advance]
      cases loop.header.step with
      | some part =>
        refine (enterGroup_enters lines loop.fuel (.part part) (Nat.succ_pos _)).inFrame le_rfl ?_ rfl
        exact toLex_lt_of_rank _ (Nat.lt_succ_self _)
      | none => exact enters_running le_rfl (toLex_lt_of_rank _ (Nat.lt_of_succ_lt (Nat.lt_succ_self _)))
    | exit => exact enters_ended _
    | jump label => exact enters_ended _
  | turns loop n =>
    cases flow with
    | next => exact enters_running le_rfl (toLex_lt_of_rank _ (Nat.lt_succ_self _))
    | exit => exact enters_ended _
    | jump label => exact enters_ended _
  | count loop amount n =>
    cases flow with
    | next =>
      refine Enters.bind (increment_obeys _ _) fun _ => ?_
      exact enters_running le_rfl (toLex_lt_of_rank _ (Nat.lt_succ_self _))
    | exit => exact enters_ended _
    | jump label => exact enters_ended _

/-! ## Steps come to an end -/

/-- The steps from a configuration come to an end. -/
def Ends (c : Config) : Prop := ∃ last r, Reaches lines c last ∧ last.step lines = .over r

/-- Under these frames the steps come to an end, whatever the code in them ends with. -/
def Receives (frames : List Frame) : Prop := ∀ flow m, Ends lines ⟨.ended flow, frames, m⟩

variable {lines}

/-- Without frames the end of the code is the end of the steps. -/
theorem receives_nil : Receives lines [] := fun flow m => ⟨_, .done flow m, .refl, rfl⟩

/-- Steps that come to an end do so from one step before as well. -/
theorem ends_of_step {c c' : Config} (hstep : c.step lines = .on c') (h : Ends lines c') : Ends lines c := by
  obtain ⟨last, r, hreach, hlast⟩ := h
  exact ⟨last, r, .head hstep hreach, hlast⟩

/-- A step comes to an end if the code it enters does. -/
theorem ends_of_under {c : Config} {frames : List Frame} {x : Run Entry} {m : Machine}
    (hstep : c.step lines = .under lines frames (x m))
    (h : ∀ e m', x m = .done e m' → Ends lines ⟨e.focus, e.frames ++ frames, m'⟩) : Ends lines c := by
  cases hx : x m with
  | done e m' =>
    rw [hx] at hstep
    exact ends_of_step hstep (h e m' hx)
  | failed error m' =>
    rw [hx] at hstep
    exact ⟨c, _, .refl, hstep⟩
  | outOfFuel =>
    rw [hx] at hstep
    exact ⟨c, _, .refl, hstep⟩

/-- Frames are left one by one, the innermost first. -/
theorem receives_append {fs frames : List Frame}
    (hfs : ∀ f ∈ fs, ∀ gs, Receives lines gs → Receives lines (f :: gs)) (h : Receives lines frames) :
    Receives lines (fs ++ frames) := by
  induction fs with
  | nil => exact h
  | cons f fs ih => exact hfs f List.mem_cons_self _ (ih fun g hg => hfs g (List.mem_cons_of_mem _ hg))

/-- By induction on the size: code of a size comes to an end, and so does a frame of that size. -/
theorem ends_of_size (size : Nat ×ₗ Nat) :
    (∀ p : Point, p.size = size → ∀ frames, Receives lines frames → ∀ m, Ends lines ⟨.running p, frames, m⟩) ∧
      ∀ f : Frame, f.size = size → ∀ frames, Receives lines frames → Receives lines (f :: frames) := by
  induction size using WellFoundedLT.induction with
  | ind size ih =>
    -- Code that is entered ends under its own frames, which are smaller, and then under the others.
    have hentry {top : Bool} {e : Entry} {outer inner : Nat} {frames : List Frame}
        (hinner : e.Inner top size outer inner) (hframes : Receives lines frames) (m : Machine) :
        Ends lines ⟨e.focus, e.frames ++ frames, m⟩ := by
      have hall := receives_append (fun f hf => (ih f.size (hinner.frames f hf).2).2 f rfl) hframes
      cases hfocus : e.focus with
      | running p => exact (ih p.size (hinner.focus p hfocus).2).1 p rfl _ hall m
      | ended flow => exact hall flow m
    refine ⟨?_, ?_⟩
    · rintro p rfl frames hframes m
      exact ends_of_under rfl fun e m' hdone => hentry (advance_enters lines p m e m' hdone) hframes m'
    · rintro f rfl frames hframes flow m
      cases hgroup : f.mark? with
      | some mark =>
        obtain rfl := eq_group_of_mark? hgroup
        exact ends_of_step rfl (hframes flow _)
      | none =>
        refine ends_of_under rfl fun e m' hdone => ?_
        exact hentry (resume_enters lines hgroup flow m e m' hdone) hframes m'

/-- **Steps come to an end**, and that end is the outcome. -/
theorem reaches_outcome (lines : List Line) (c : Config) :
    ∃ last, Reaches lines c last ∧ last.step lines = .over (c.outcome lines) := by
  obtain ⟨focus, frames, m⟩ := c
  have hframes : Receives lines frames := by
    rw [← List.append_nil frames]
    exact receives_append (fun f _ => (ends_of_size f.size).2 f rfl) receives_nil
  have hends : Ends lines ⟨focus, frames, m⟩ := by
    cases focus with
    | running p => exact (ends_of_size p.size).1 p rfl frames hframes m
    | ended flow => exact hframes flow m
  obtain ⟨last, r, hreach, hlast⟩ := hends
  have houtcome := outcome_step lines last
  rw [hlast, hreach.outcome] at houtcome
  exact ⟨last, hreach, by rw [hlast]; exact congrArg _ houtcome⟩

end Control

end QuestScript
