import QuestScript.Proofs.Block.Forward
import QuestScript.Proofs.Ends.Statement

/-!
# Code that comes to an end

Straight code that calls nothing needs only so much fuel: its expressions as much as they have characters,
each of its lines as much as it has statements, and a range of lines as much as it has lines, since none is
run twice. `Roomy` says that a configuration has this fuel. Its steps never run out of it
(`Roomy.step_ne_outOfFuel`) and never use up what the rest needs (`Roomy.step`).
-/

namespace QuestScript

/-! ## Lines that call nothing -/

/-- No statement of a line calls anything, and no expression in it does. -/
def Line.Callless (line : Line) : Prop :=
  ∀ s ∈ line.statements, s.kind.calls = false ∧ ∀ source ∈ line.sources s, ¬ Uses Op.calls source

instance (line : Line) : Decidable line.Callless :=
  inferInstanceAs (Decidable (∀ s ∈ line.statements,
    s.kind.calls = false ∧ ∀ source ∈ line.sources s, ¬ Uses Op.calls source))

/-- A line that neither turns back nor calls anything. It has at most `size` statements, and its expressions
have at most as many characters. -/
structure Line.Plain (size : Nat) (line : Line) : Prop where
  straight : line.Straight
  callless : line.Callless
  count : line.statements.length ≤ size
  width : ∀ s ∈ line.statements, ∀ source ∈ line.sources s, source.length ≤ size

/-- The number of statements of a line and the lengths of its expressions. -/
def Line.lengths (line : Line) : List Nat :=
  line.statements.length :: (line.statements.flatMap line.sources).map List.length

theorem Line.kind_of_cons {line : Line} {s : Statement} {rest : List Statement} (h : line.statements = s :: rest) :
    line.kind = s.kind := by
  rw [Line.kind, h]

/-- There is a size for all lines of a body. -/
theorem exists_plain {lines : List Line} (hstraight : ∀ line ∈ lines, line.Straight)
    (hcallless : ∀ line ∈ lines, line.Callless) : ∃ size, ∀ line ∈ lines, line.Plain size := by
  refine ⟨(lines.flatMap Line.lengths).max?.getD 0, fun line hline =>
    ⟨hstraight line hline, hcallless line hline, ?_, fun s hs source hsource => ?_⟩⟩
  · exact List.le_max?_getD_of_mem (List.mem_flatMap.mpr ⟨line, hline, List.mem_cons_self⟩)
  · have hmem := List.mem_map_of_mem (f := List.length) (List.mem_flatMap.mpr ⟨s, hs, hsource⟩)
    exact List.le_max?_getD_of_mem (List.mem_flatMap.mpr ⟨line, hline, List.mem_cons_of_mem _ hmem⟩)

namespace Control

open Machine Run

variable {w : World} {limit depth : Nat} {lines : List Line} {fuel : Nat}

/-! ## Entering code -/

/-- With any fuel at all code can be entered. -/
theorem ends_enter (h : 0 < fuel) (code : Stretch) : (enter lines code fuel).Ends w limit depth := by
  cases fuel with
  | zero => exact absurd h (Nat.lt_irrefl 0)
  | succ k => exact ends_pure _

theorem ends_enterGroup (h : 0 < fuel) (code : Stretch) :
    (inGroup (enter lines code fuel)).Ends w limit depth := by
  intro m hm
  have hentered : (enter lines code fuel).Ends w limit depth := ends_enter h code
  specialize hentered { m with saves := m.saves.allocate } hm
  unfold inGroup
  generalize enter lines code fuel { m with saves := m.saves.allocate } = r at hentered
  cases hentered with
  | done e hm' => exact .done _ hm'
  | failed e m' => exact .failed _ _

theorem ends_code {x : Run Entry} (hx : x.Ends w limit depth) (next : Nat) :
    (do return .code next (← x) : Run Opening).Ends w limit depth := hx.bind fun _ => ends_pure _

/-! ## Lines and statements -/

section

variable {line : Line} {size : Nat} (hline : line.Plain size) (hfuel : size < fuel) {s : Statement}
include hline hfuel

/-- The expressions of a straight line call nothing, so they come to an end with the fuel that they need. -/
theorem ends_source (hs : s ∈ line.statements) {source : List Char} (hsource : source ∈ line.sources s) :
    ((Calls.ofFuel fuel).eval source).Ends w limit depth :=
  ends_eval ((hline.callless s hs).2 source hsource) ((hline.width s hs source hsource).trans_lt hfuel)

/-- The arguments of a header end. -/
theorem ends_argument (hs : s ∈ line.statements) (hkind : s.kind ∈ [.ifThen, .elseIf, .act]) :
    ∀ source ∈ s.args.map line.slice, ((Calls.ofFuel fuel).eval source).Ends w limit depth := by
  intro source hsource
  refine ends_source hline hfuel hs ?_
  rw [Line.sources_eq_args]
  · exact hsource
  · simp only [List.mem_cons, List.not_mem_nil, or_false] at hkind
    rcases hkind with h | h | h <;> rw [h] <;> decide

theorem ends_firstArgument {rest : List Statement} (hstatements : line.statements = s :: rest)
    (hkind : line.kind ∈ [.ifThen, .elseIf, .act]) :
    ∀ source ∈ s.args.map line.slice, ((Calls.ofFuel fuel).eval source).Ends w limit depth := by
  rw [Line.kind_of_cons hstatements] at hkind
  exact ends_argument hline hfuel (hstatements ▸ List.mem_cons_self) hkind

/-- A line without a block evaluates the condition of a branch at most. -/
theorem ends_openSingle (i stop : Nat) : (openSingle lines fuel i stop line).Ends w limit depth := by
  have hpos : 0 < fuel := Nat.zero_lt_of_lt hfuel
  unfold openSingle
  dsimp only
  split
  · next s rest hkind hstatements =>
    refine (ends_requireColon line s).bind fun _ => (ends_blockEnd lines i stop).bind fun e => ?_
    refine (ends_condition (ends_firstArgument hline hfuel hstatements ?_)).bind fun yes => ?_
    · rw [hkind]
      decide
    · exact ends_ite (ends_code (ends_enterGroup hpos _) e) (ends_pure _)
  · exact (ends_blockEnd lines i stop).bind fun e =>
      ends_ite (ends_code (ends_enterGroup hpos _) e) (ends_code (ends_enterGroup hpos _) e)
  · exact ends_code (ends_enter hpos _) _

/-- A header evaluates its condition, and looks for the end of its block before. -/
theorem ends_openHeader (i stop : Nat) : (openHeader lines fuel i stop line).Ends w limit depth := by
  have hback := hline.straight.kind
  refine (ends_blockEnd lines i stop).bind fun e => ?_
  have hbranch {s : Statement} {rest : List Statement} (hstatements : line.statements = s :: rest)
      (hkind : line.kind ∈ [.ifThen, .elseIf, .act]) (code : Stretch) (next : Nat) :
      (do if ← condition (Calls.ofFuel fuel) line s then return .code e (← inGroup (enter lines code fuel))
          else return .line next : Run Opening).Ends w limit depth := by
    refine (ends_condition (ends_firstArgument hline hfuel hstatements hkind)).bind fun yes => ?_
    exact ends_ite (ends_code (ends_enterGroup (Nat.zero_lt_of_lt hfuel) _) e) (ends_pure _)
  split
  · next s rest hkind hstatements => exact hbranch hstatements (by rw [hkind]; decide) _ _
  · next s rest hkind hstatements => exact hbranch hstatements (by rw [hkind]; decide) _ _
  · next s rest hkind hstatements =>
    refine (ends_addActionOf (ends_firstArgument hline hfuel hstatements ?_) _).bind fun _ => ends_pure _
    rw [hkind]
    decide
  · next hkind _ =>
    rw [hkind] at hback
    cases hback
  · next hkind _ =>
    rw [hkind] at hback
    cases hback
  · exact ends_openSingle hline hfuel i stop

theorem ends_openLine (i stop : Nat) : (openLine lines fuel i stop line).Ends w limit depth :=
  ends_ite (ends_openHeader hline hfuel i stop) (ends_openSingle hline hfuel i stop)

theorem ends_enterIf (hs : s ∈ line.statements) (hkind : s.kind = .ifThen) (index stop : Nat) :
    (enterIf lines fuel line index stop s).Ends w limit depth := by
  have hgroup (code : Stretch) : (inGroup (enter lines code fuel)).Ends w limit depth :=
    ends_enterGroup (Nat.zero_lt_of_lt hfuel) code
  refine (ends_requireColon line s).bind fun _ => ends_ite (ends_failWith _) ?_
  refine (ends_condition (ends_argument hline hfuel hs (by rw [hkind]; decide))).bind fun yes => ?_
  refine ends_ite (hgroup _) ?_
  split
  · exact hgroup _
  · exact ends_pure _

/-- A statement ends if no hook is set when its arguments have been evaluated. -/
theorem ends_enterStatement (hs : s ∈ line.statements) {m : Machine} (hm : m.Stands w limit depth)
    (hhooks : ∀ args m', statementArgs (Calls.ofFuel fuel) line s m = .done args m' →
      ∀ key ∈ s.kind.hook?, NoHandlers m'.vars key) (stop index : Nat) (rest : List Statement) :
    (enterStatement lines fuel line stop index (s :: rest)).EndsFrom w limit depth m := by
  have hback := hline.straight s hs
  have hdone : (pure ⟨.ended .next, []⟩ : Run Entry).EndsFrom w limit depth m := (ends_pure _).endsFrom hm
  have hsimple (hcomment : s.kind ≠ .comment) : (runSimple (Calls.ofFuel fuel) line s).EndsFrom w limit depth m :=
    ends_runSimple hcomment (hline.callless s hs).1 (fun _ => ends_source hline hfuel hs) hm hhooks
  rw [enterStatement]
  cases hkind : s.kind with
  | comment => exact hdone
  | elseIf => exact hdone
  | ifThen => exact (ends_enterIf hline hfuel hs hkind index stop).endsFrom hm
  | act =>
    refine Ends.endsFrom (Ends.bind (ends_inlineAction ?_ index stop) fun _ => ends_pure _) hm
    exact ends_argument hline hfuel hs (by rw [hkind]; decide)
  | loop => rw [hkind] at hback; cases hback
  | forTo => rw [hkind] at hback; cases hback
  | _ =>
    refine (hsimple (by rw [hkind]; intro heq; cases heq)).bind fun flow m' _ hm' => ?_
    cases flow with
    | next => exact (ends_pure _).endsFrom hm'
    | exit => exact (ends_pure _).endsFrom hm'
    | jump label => exact (ends_pure _).endsFrom hm'

end

/-! ## Fuel -/

/-- A loop may turn as often as there is fuel for the calls in it. -/
theorem turns_ofFuel (n : Nat) : (Calls.ofFuel n).turns = n - 1 := by
  cases n with
  | zero => rfl
  | succ n => rfl

/-- Fuel for the lines of a range from `i` on: a turn for each of them and one for its end, and as much for
what they enter. -/
structure Range.Roomy (size : Nat) (r : Range) (n i : Nat) : Prop where
  turns : r.stop - i < n
  fuel : r.stop - i + 2 * size + 2 ≤ r.fuel

/-- Fuel for what a point has left to run. -/
def Point.Roomy (size : Nat) : Point → Prop
  | .lines r n i => r.Roomy size n i
  | .statements fuel line _ index _ => line.statements.length - index + size < fuel
  | .turns _ _ => False
  | .counts _ _ => False

/-- Fuel for what a frame has left to do. -/
def Frame.Roomy (size : Nat) : Frame → Prop
  | .line r n next => r.Roomy size n next
  | _ => True

/-- Fuel for all that is left to run. -/
inductive Roomy (size : Nat) : Config → Prop
  | running {p : Point} {fs : List Frame} {m : Machine} (hpoint : p.Roomy size)
      (hframes : ∀ f ∈ fs, f.Roomy size) : Roomy size ⟨.running p, fs, m⟩
  | ended {flow : Flow} {fs : List Frame} {m : Machine} (hframes : ∀ f ∈ fs, f.Roomy size) :
      Roomy size ⟨.ended flow, fs, m⟩

/-- No hook is set when the next statement is to call it. -/
def Config.Unhooked : Config → Prop
  | ⟨.running (.statements fuel line _ _ (s :: _)), _, m⟩ =>
    ∀ args m', statementArgs (Calls.ofFuel fuel) line s m = .done args m' →
      ∀ key ∈ s.kind.hook?, NoHandlers m'.vars key
  | _ => True

/-- The frames of groups need no room. -/
theorem roomy_groups {size : Nat} {fs : List Frame} (h : ∀ f ∈ fs, f.Roomy size) (marks : List Nat) :
    ∀ f ∈ marks.map .group ++ fs, f.Roomy size :=
  List.forall_mem_append.mpr ⟨List.forall_mem_map.mpr fun _ _ => trivial, h⟩

/-- A step runs out of fuel only if what it enters does. -/
theorem under_ne_outOfFuel {frames : List Frame} {r : Outcome Entry} (h : r ≠ .outOfFuel) :
    Progress.under lines frames r ≠ .over .outOfFuel := by
  cases r with
  | done e m => exact fun heq => by cases heq
  | failed e m =>
    obtain ⟨m', hfailed⟩ : ∃ m', closeAll lines frames (.failed e m) = .failed e m' := closeAll_failed frames e m
    rw [Progress.under, hfailed]
    exact fun heq => by cases heq
  | outOfFuel => exact absurd rfl h

namespace Roomy

variable {size k : Nat} {c c' : Config} (hlines : ∀ line ∈ lines, line.Plain size)
include hlines

/-- What is left to run after a step needs no more fuel than there is. -/
theorem step (h : Roomy size c) (hmove : Moves lines c c') : Roomy size c' := by
  cases hmove with
  | leave =>
    cases h with
    | running hpoint hframes => exact .ended hframes
  | skip hi hnext hstop =>
    cases h with
    | running hpoint hframes =>
      have hturns := hpoint.turns
      have hfuel := hpoint.fuel
      exact .running ⟨by omega, by omega⟩ hframes
  | @enter r n i next k line code marks fs _ _ hi hnext hstop hline hcode hfuel =>
    cases h with
    | running hpoint hframes =>
      have hturns := hpoint.turns
      have hroom := hpoint.fuel
      have hcount := (hlines line hline).count
      -- the range goes on below the block, with a turn less for fewer lines
      have hrest : (Frame.line r n next).Roomy size := ⟨by omega, by omega⟩
      refine .running ?_ (roomy_groups (List.forall_mem_cons.mpr ⟨hrest, hframes⟩) marks)
      cases hcode with
      | statements start =>
        show line.statements.length - start + size < k
        omega
      | @lines last hlast =>
        show Range.Roomy size ⟨k, i + 1, min last lines.length, false⟩ (Calls.ofFuel k).turns (i + 1)
        rw [turns_ofFuel]
        exact ⟨by dsimp only; omega, by dsimp only; omega⟩
  | @next fuel stop index line s rest fs =>
    cases h with
    | running hpoint hframes =>
      refine .running ?_ hframes
      show line.statements.length - (index + 1) + size < fuel
      replace hpoint : line.statements.length - index + size < fuel := hpoint
      omega
  | @branch k stop index start last line rest marks fs _ _ hindex hstart =>
    cases h with
    | running hpoint hframes =>
      refine .running ?_ (roomy_groups hframes marks)
      show line.statements.length - start + size < k
      replace hpoint : line.statements.length - index + size < k + 1 := hpoint
      omega
  | done hflow =>
    cases h with
    | running hpoint hframes => exact .ended hframes
  | close =>
    cases h with
    | ended hframes => exact .ended (List.forall_mem_cons.mp hframes).2
  | resume =>
    cases h with
    | ended hframes =>
      obtain ⟨hline, hrest⟩ := List.forall_mem_cons.mp hframes
      exact .running hline hrest

/-- With room for the range and for its expressions a step comes to an end. -/
theorem ends_advance {r : Range} {n i : Nat} (h : r.Roomy size n i) :
    ((Point.lines r n i).advance lines).Ends w limit depth := by
  have hturns := h.turns
  have hfuel := h.fuel
  cases n with
  | zero => omega
  | succ n =>
    rw [Point.advance]
    refine ends_ite (ends_pure _) ?_
    cases hline : lines[i]? with
    | none => exact ends_pure _
    | some line =>
      refine Ends.bind (fun _ hm => .done () hm) fun _ => Ends.bind (Ends.marked ?_) fun _ => ends_pure _
      exact ends_openLine (hlines line (List.mem_of_getElem? hline)) (by omega) i r.stop

/-- A step does not run out of fuel. -/
theorem step_ne_outOfFuel (h : Roomy size c) (hahead : Ahead lines k c) (hhooks : c.Unhooked) :
    c.step lines ≠ .over .outOfFuel := by
  cases hahead with
  | @lines r n i fs m hi hfs =>
    cases h with
    | running hpoint hframes =>
      exact under_ne_outOfFuel ((ends_advance hlines hpoint).endsFrom m.stands).ne_outOfFuel
  | @statements fuel stop index line rest fs m hline hrest hfs =>
    cases h with
    | running hpoint hframes =>
      replace hpoint : line.statements.length - index + size < fuel := hpoint
      refine under_ne_outOfFuel ?_
      cases rest with
      | nil => exact fun heq => by cases heq
      | cons s rest =>
        have hs := (Ahead.mem_of_rest hrest).1
        exact (ends_enterStatement (hlines line hline) (by omega) hs m.stands hhooks stop index rest).ne_outOfFuel
  | @ended flow fs m hflow hfs =>
    cases hfs with
    | nil => exact fun heq => by cases heq
    | @group _ mark fs hfs =>
      show Progress.under lines fs (.done ⟨.ended flow, []⟩ (Run.release mark true m)) ≠ _
      exact under_ne_outOfFuel fun heq => by cases heq
    | line hnext hfs =>
      refine under_ne_outOfFuel ?_
      cases flow with
      | next => exact fun heq => by cases heq
      | exit => exact fun heq => by cases heq
      | jump label => exact absurd rfl (hflow label)

/-- **Straight code that calls nothing comes to an end** with the fuel for it. -/
theorem outcome_ne_outOfFuel (h : Roomy size c) (hahead : Ahead lines k c)
    (hhooks : ∀ c', Reaches lines c c' → c'.Unhooked) : c.outcome lines ≠ .outOfFuel := by
  have hstraight : ∀ line ∈ lines, line.Straight := fun line hline => (hlines line hline).straight
  obtain ⟨last, hreach, hlast⟩ := reaches_outcome lines c
  have hroomy : Roomy size last := by
    clear hlast hhooks
    induction hreach with
    | refl => exact h
    | tail hreach hstep ih => exact ih.step hlines ((hahead.reaches hstraight hreach).moves hstraight hstep)
  intro houtcome
  rw [houtcome] at hlast
  exact hroomy.step_ne_outOfFuel hlines (hahead.reaches hstraight hreach) (hhooks last hreach) hlast

end Roomy

/-! ## Runs of a range -/

/-- The start of a range of lines. -/
def Config.range (lines : List Line) (fuel start stop : Nat) (top : Bool) (m : Machine) : Config :=
  ⟨.running (.lines ⟨fuel, start, min stop lines.length, top⟩ (Calls.ofFuel fuel).turns start), [], m⟩

section

variable (lines) (fuel) (start stop : Nat) (top : Bool) (m : Machine)

/-- The configuration stands for the run of the lines. -/
theorem outcome_range :
    (Config.range lines fuel start stop top m).outcome lines
      = (Calls.ofFuel (fuel + 1)).lines lines start stop top m := rfl

theorem ahead_range : Ahead lines start (.range lines fuel start stop top m) := .lines le_rfl .nil

theorem roomy_range {size : Nat} (h : lines.length + 2 * size + 2 ≤ fuel) :
    Roomy size (.range lines fuel start stop top m) := by
  refine .running ?_ fun f hf => by cases hf
  show Range.Roomy size ⟨fuel, start, min stop lines.length, top⟩ (Calls.ofFuel fuel).turns start
  rw [turns_ofFuel]
  exact ⟨by dsimp only; omega, by dsimp only; omega⟩

end

/-- Code that changes no list of objects calls no hooks. -/
theorem unhooked_of_reaches {k : Nat} {c c' : Config} (hlines : ∀ line ∈ lines, line.Straight)
    (hkinds : ∀ line ∈ lines, ∀ s ∈ line.statements, s.kind.hook? = none) (h : Ahead lines k c)
    (hreach : Reaches lines c c') : c'.Unhooked := by
  cases h.reaches hlines hreach with
  | lines hi hfs => trivial
  | @statements fuel stop index line rest fs m hline hrest hfs =>
    cases rest with
    | nil => trivial
    | cons s rest =>
      intro args m' hargs key hkey
      rw [hkinds line hline s (Ahead.mem_of_rest hrest).1] at hkey
      cases hkey
  | ended hflow hfs => trivial

/-- **Without jumps and loops the cursor only moves forward.** When a line of a range leads on to another
line of it, that line is below the first and not below the end of the range. So a body without jumps and
loops runs none of its lines twice, however its blocks nest: the steps of a range are its run, and of two
lines that they come to, the second is below the first. If the body calls nothing either, and no hook is set
when a statement is to call it, the run comes to an end. -/
theorem cursor_goes_forward :
    (∀ (fuel : Nat) (lines : List Line) (i stop : Nat) (line : Line) (m : Machine) (next : Nat) (m' : Machine),
      i < stop →
      runHeader (Calls.ofFuel fuel) lines i stop line m = .done (.line next) m' ∨
        runSingle (Calls.ofFuel fuel) lines i stop line m = .done (.line next) m' →
      i < next ∧ next ≤ stop) ∧
    ∀ lines : List Line, (∀ line ∈ lines, line.Straight) → ∀ (start stop : Nat) (top : Bool) (m : Machine),
      (∀ fuel, ∃ last, Reaches lines (.range lines fuel start stop top m) last ∧
        last.step lines = .over ((Calls.ofFuel (fuel + 1)).lines lines start stop top m)) ∧
      (∀ fuel c c' i j, Reaches lines (.range lines fuel start stop top m) c →
        Relation.TransGen (fun c c' => c.step lines = .on c') c c' →
        c.line? lines = some i → c'.line? lines = some j → i < j) ∧
      ((∀ line ∈ lines, line.Callless) →
        (∀ fuel c, Reaches lines (.range lines fuel start stop top m) c → c.Unhooked) →
        ∃ enough, ∀ fuel, enough ≤ fuel → (Calls.ofFuel fuel).lines lines start stop top m ≠ .outOfFuel) := by
  refine ⟨?_, fun lines hlines start stop top m => ⟨fun fuel => ?_, ?_, fun hcallless hhooks => ?_⟩⟩
  · rintro fuel lines i stop line m next m' hi (hheader | hsingle)
    · exact lt_next_of_runHeader hi hheader
    · exact lt_next_of_runSingle hi hsingle
  · rw [← outcome_range]
    exact reaches_outcome lines _
  · intro fuel c c' i j hreach hsteps hi hj
    exact ((ahead_range lines fuel start stop top m).reaches hlines hreach).line_lt_line hlines hsteps hi hj
  · obtain ⟨size, hplain⟩ := exists_plain hlines hcallless
    refine ⟨lines.length + 2 * size + 3, fun fuel hfuel => ?_⟩
    obtain ⟨n, rfl⟩ : ∃ n, fuel = n + 1 := ⟨fuel - 1, by omega⟩
    rw [← outcome_range]
    have hroomy : Roomy size (.range lines n start stop top m) := roomy_range lines n start stop top m (by omega)
    exact hroomy.outcome_ne_outOfFuel hplain (ahead_range lines n start stop top m) (hhooks n)

/-- Steps that are counted are steps. -/
theorem transGen_of_after {k : Nat} {c c' : Config} (h : c.after lines (k + 1) = some c') :
    Relation.TransGen (fun c c' => c.step lines = .on c') c c' := by
  rw [Config.after] at h
  split at h
  · next c₁ hstep => exact .head' hstep (reaches_of_after h)
  · cases h

/-- Blocks that nest badly: an `END` of nothing, and an `ELSE` whose block is left open. -/
def skewed : List Line := Line.ofSource "END\nIF 1:\nELSE\nEND\nELSE".toList

theorem cursor_goes_forward_sample :
    let line := Line.scan "IF 1:".toList 2
    let start : Config := .range skewed 9 0 5 true (Machine.new {} {})
    (∃ m', runHeader (Calls.ofFuel 9) skewed 1 5 line (Machine.new {} {}) = .done (.line 3) m' ∧ 1 < 3 ∧ 3 ≤ 5) ∧
    (∃ c, Relation.TransGen (fun c c' => c.step skewed = .on c') start c ∧ start.line? skewed = some 0 ∧
      c.line? skewed = some 3 ∧ 0 < 3) ∧
    ∃ enough, ∀ fuel, enough ≤ fuel →
      (Calls.ofFuel fuel).lines skewed 0 5 true (Machine.new {} {}) ≠ .outOfFuel := by
  intro line start
  have hstraight : ∀ line ∈ skewed, line.Straight := by decide +kernel
  have hcallless : ∀ line ∈ skewed, line.Callless := by decide +kernel
  have hkinds : ∀ line ∈ skewed, ∀ s ∈ line.statements, s.kind.hook? = none := by decide +kernel
  obtain ⟨-, horder, hends⟩ := cursor_goes_forward.2 skewed hstraight 0 5 true (Machine.new {} {})
  refine ⟨?_, ?_, ?_⟩
  · have hheader : (runHeader (Calls.ofFuel 9) skewed 1 5 line (Machine.new {} {})).next? = some 3 := by
      decide +kernel
    obtain ⟨m', hdone⟩ := Outcome.exists_of_next? hheader
    exact ⟨m', hdone, cursor_goes_forward.1 9 skewed 1 5 line _ 3 m' (by decide) (.inl hdone)⟩
  · have hfirst : start.line? skewed = some 0 := by decide +kernel
    have hafter : (start.after skewed 8).bind (·.line? skewed) = some 3 := by decide +kernel
    obtain ⟨c, hc, hline⟩ := Option.bind_eq_some_iff.mp hafter
    have hsteps := transGen_of_after hc
    exact ⟨c, hsteps, hfirst, hline, horder 9 start c 0 3 .refl hsteps hfirst hline⟩
  · refine hends hcallless fun fuel c hreach => ?_
    exact unhooked_of_reaches hstraight hkinds (ahead_range skewed fuel 0 5 true _) hreach

end Control

end QuestScript
