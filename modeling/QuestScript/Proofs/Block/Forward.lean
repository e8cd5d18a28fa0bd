import QuestScript.Proofs.Block.Jump
import QuestScript.Proofs.Line.Shift

/-!
# Code that only goes forward

A line names the line to go on at: the next one, or an `END`, an `ELSE` or an `ELSEIF` that a search has
found. However badly the blocks nest, that line is below the one that has been run, and not below the end
of its range (`lt_next_of_runHeader`, `lt_next_of_runSingle`).

Only jumps and loops turn back. In a body without them a step does one of a few things, listed in `Moves`.
All of them keep the lines at which the open ranges go on in order, the inner ranges first, and below all
lines that have been run: this is `Ahead`.
-/

namespace QuestScript

/-! ## Results of a run -/

namespace Run

variable {α β : Type} {P : α → Prop} {Q : β → Prop}

/-- All results of a run have a property. -/
def Leads (P : α → Prop) (x : Run α) : Prop := ∀ m a m', x m = .done a m' → P a

theorem leads_pure {a : α} (h : P a) : (pure a : Run α).Leads P := by
  intro m a' m' hdone
  cases hdone
  exact h

theorem leads_fail (e : Error) : (fail e : Run α).Leads P := by
  intro m a m' hdone
  cases hdone

/-- What the first run leads to is known to the second one. -/
theorem Leads.bind {x : Run α} {f : α → Run β} (hx : x.Leads P) (hf : ∀ a, P a → (f a).Leads Q) :
    (x >>= f).Leads Q := by
  intro m b m' hdone
  obtain ⟨a, m₁, hfirst, hsecond⟩ := bind_eq_done hdone
  exact hf a (hx m a m₁ hfirst) m₁ b m' hsecond

/-- Where nothing has to be known of it. -/
theorem leads_bind (x : Run α) {f : α → Run β} (hf : ∀ a, (f a).Leads Q) : (x >>= f).Leads Q :=
  Leads.bind (P := fun _ => True) (fun _ _ _ _ => trivial) fun a _ => hf a

theorem leads_ite {p : Prop} [Decidable p] {x y : Run α} (hx : x.Leads P) (hy : y.Leads P) :
    (if p then x else y).Leads P := by
  split
  · exact hx
  · exact hy

/-- A mark concerns runs that fail. -/
theorem Leads.marked {x : Run α} (hx : x.Leads P) : x.marked.Leads P := by
  intro m a m' hdone
  unfold Run.marked at hdone
  split at hdone
  · cases hdone
  · exact hx m a m' hdone

end Run

/-- The line that a line leads on to, if it does. -/
def Outcome.next? : Outcome Machine.Cursor → Option Nat
  | .done (.line next) _ => some next
  | _ => none

/-- A run that goes on at a line has ended well. -/
theorem Outcome.exists_of_next? {r : Outcome Machine.Cursor} {next : Nat} (h : r.next? = some next) :
    ∃ m, r = .done (.line next) m := by
  unfold next? at h
  split at h
  · next next' m =>
    cases h
    exact ⟨m, rfl⟩
  · cases h

/-! ## Straight code -/

/-- Whether a statement can lead back to what has been run. -/
def StatementKind.turnsBack : StatementKind → Bool
  | jump | loop | forTo => true
  | _ => false

/-- No statement of a line leads back. -/
def Line.Straight (line : Line) : Prop := ∀ s ∈ line.statements, s.kind.turnsBack = false

instance (line : Line) : Decidable line.Straight :=
  inferInstanceAs (Decidable (∀ s ∈ line.statements, s.kind.turnsBack = false))

/-- The header of a straight line turns nothing back. -/
theorem Line.Straight.kind {line : Line} (h : line.Straight) : line.kind.turnsBack = false := by
  unfold Line.kind
  split
  · next s rest heq => exact h s (heq ▸ List.mem_cons_self)
  · rfl

namespace Control

open Machine Run

variable {lines : List Line} {fuel : Nat}

/-! ## Entering code -/

/-- The start of a stretch of code, with nothing but groups around it. -/
def Entry.Begins (lines : List Line) (fuel : Nat) (code : Stretch) (e : Entry) : Prop :=
  ∃ (k : Nat) (marks : List Nat), fuel = k + 1 ∧ e = ⟨.running (code.start k lines), marks.map .group⟩

/-- Code is entered where it begins. -/
theorem leads_enter (code : Stretch) : (enter lines code fuel).Leads (Entry.Begins lines fuel code) := by
  cases fuel with
  | zero =>
    intro m e m' hdone
    cases hdone
  | succ k => exact leads_pure ⟨k, [], rfl, rfl⟩

/-- In a group as well, with the frame of the group around it. -/
theorem leads_enterGroup (code : Stretch) :
    (inGroup (enter lines code fuel)).Leads (Entry.Begins lines fuel code) := by
  intro m e m' hdone
  unfold inGroup at hdone
  split at hdone
  · next e₀ m₀ hentered =>
    cases hdone
    obtain ⟨k, marks, hfuel, rfl⟩ := leads_enter code _ _ _ hentered
    refine ⟨k, marks ++ [m.saves.depth], hfuel, ?_⟩
    rw [List.map_append]
    rfl
  · cases hdone
  · cases hdone

/-! ## Lines -/

/-- Where control goes on after a line. -/
def Opening.next : Opening → Nat
  | .line next => next
  | .code next _ => next

/-- Code of a line, or of the lines that follow it up to `next`. -/
inductive Stretch.Follows (line : Line) (i next : Nat) : Stretch → Prop
  | statements (start : Nat) : Follows line i next (.statements line start line.statements.length)
  | lines {last : Nat} (hlast : last ≤ next) : Follows line i next (.lines (i + 1) last)

/-- Line `i` leads forward and not out of its range, and what it enters stands between. -/
structure Opening.Forward (lines : List Line) (fuel i stop : Nat) (line : Line) (o : Opening) : Prop where
  lt_next : i < o.next
  next_le : o.next ≤ stop
  code : line.Straight → ∀ next e, o = .code next e →
    ∃ code : Stretch, code.Follows line i next ∧ e.Begins lines fuel code

section

variable {i stop : Nat} {line : Line}

/-- The end of a block stands below its header and within the range. -/
theorem leads_blockEnd : (blockEnd lines i stop).Leads fun e => i < e ∧ e < stop := by
  unfold blockEnd
  split
  · next e hend => exact leads_pure ⟨(Block.bounds_of_endFrom? hend).1, Block.lt_of_end? hend⟩
  · exact leads_fail _

/-- The next branch of a block, or else its `END`, is below the header. -/
theorem lt_getD_else? {e : Nat} (h : i < e) : i < (Block.else? lines (i + 1) e).getD e := by
  cases hbranch : Block.else? lines (i + 1) e with
  | none => exact h
  | some branch => exact (Block.bounds_of_elseFrom? hbranch).1

theorem leads_line {next : Nat} (hi : i < next) (hstop : next ≤ stop) :
    (pure (.line next) : Run Opening).Leads (Opening.Forward lines fuel i stop line) :=
  leads_pure ⟨hi, hstop, fun _ _ _ h => by cases h⟩

/-- Code on the lines of a block is entered below the header, and the run goes on behind the block. -/
theorem leads_code {next : Nat} (hi : i < next) (hstop : next ≤ stop) {code : Stretch}
    (hcode : code.Follows line i next) {x : Run Entry} (hx : x.Leads (Entry.Begins lines fuel code)) :
    (do return .code next (← x) : Run Opening).Leads (Opening.Forward lines fuel i stop line) :=
  hx.bind fun e he => leads_pure ⟨hi, hstop, fun _ _ _ h => by
    cases h
    exact ⟨code, hcode, he⟩⟩

/-- A header that turns back is no straight line, so nothing is asked of it. -/
theorem leads_loop {next : Nat} (hi : i < next) (hstop : next ≤ stop) (hback : line.kind.turnsBack = true)
    (x : Run Entry) :
    (do return .code next (← x) : Run Opening).Leads (Opening.Forward lines fuel i stop line) :=
  leads_bind x fun e => leads_pure ⟨hi, hstop, fun hline => by
    rw [hline.kind] at hback
    cases hback⟩

/-- A line without a block goes on at the next line, a branch at the next branch or at the end of the block. -/
theorem openSingle_forward (h : i < stop) :
    (openSingle lines fuel i stop line).Leads (Opening.Forward lines fuel i stop line) := by
  unfold openSingle
  dsimp only
  split
  · refine leads_bind _ fun _ => leads_blockEnd.bind fun e he => leads_bind _ fun yes => ?_
    have hlast := Block.getD_else?_le lines (i + 1) e
    exact leads_ite (leads_code he.1 he.2.le (.statements 1) (leads_enterGroup _))
      (leads_line (lt_getD_else? he.1) (hlast.trans he.2.le))
  · refine leads_blockEnd.bind fun e he => leads_ite ?_ ?_
    · exact leads_code he.1 he.2.le (.statements 1) (leads_enterGroup _)
    · exact leads_code he.1 he.2.le (.lines (Block.getD_else?_le lines _ _)) (leads_enterGroup _)
  · exact leads_code (Nat.lt_succ_self i) h (.statements 0) (leads_enter _)

/-- By the kind of the header. None of them goes on above itself. -/
theorem openHeader_forward (h : i < stop) :
    (openHeader lines fuel i stop line).Leads (Opening.Forward lines fuel i stop line) := by
  refine leads_blockEnd.bind fun e he => ?_
  have hbranch (c : Run Bool) {last : Nat} (hi : i < last) (hlast : last ≤ e) :
      (do if ← c then return .code e (← inGroup (enter lines (.lines (i + 1) last) fuel))
          else return .line last : Run Opening).Leads (Opening.Forward lines fuel i stop line) :=
    leads_bind c fun yes => leads_ite (leads_code he.1 he.2.le (.lines hlast) (leads_enterGroup _))
      (leads_line hi (hlast.trans he.2.le))
  split
  · exact hbranch _ (lt_getD_else? he.1) (Block.getD_else?_le lines _ _)
  · exact hbranch _ (lt_getD_else? he.1) (Block.getD_else?_le lines _ _)
  · exact leads_bind _ fun _ => leads_line he.1 he.2.le
  · next hkind _ => exact leads_loop he.1 he.2.le (by rw [hkind]; rfl) _
  · next hkind _ => exact leads_loop he.1 he.2.le (by rw [hkind]; rfl) _
  · exact openSingle_forward h

theorem openLine_forward (h : i < stop) :
    (openLine lines fuel i stop line).Leads (Opening.Forward lines fuel i stop line) :=
  leads_ite (openHeader_forward h) (openSingle_forward h)

/-- The line to go on at is the one that has been named first. -/
theorem lt_next_of_splits {first : Run Opening} {x : Run Cursor} (hsplits : Splits (Opening.run lines) first x)
    (hfirst : first.Leads (Opening.Forward lines fuel i stop line)) {next : Nat} {m m' : Machine}
    (hdone : x m = .done (.line next) m') : i < next ∧ next ≤ stop := by
  rw [← show first >>= Opening.run lines = x from hsplits] at hdone
  obtain ⟨o, m₁, hopen, hrun⟩ := bind_eq_done hdone
  have ho := hfirst m o m₁ hopen
  cases o with
  | line next' =>
    cases hrun
    exact ⟨ho.lt_next, ho.next_le⟩
  | code next' e =>
    obtain ⟨flow, m₂, -, hafter⟩ := bind_eq_done hrun
    cases flow with
    | next =>
      cases hafter
      exact ⟨ho.lt_next, ho.next_le⟩
    | exit => cases hafter
    | jump label => cases hafter

variable {next : Nat} {m m' : Machine}

/-- **A header leads forward**, and not out of its range. -/
theorem lt_next_of_runHeader (h : i < stop)
    (hdone : runHeader (Calls.ofFuel fuel) lines i stop line m = .done (.line next) m') : i < next ∧ next ≤ stop :=
  lt_next_of_splits (openHeader_splits lines fuel line i stop) (openHeader_forward h) hdone

/-- **A line that is complete in itself leads forward**, and not out of its range. -/
theorem lt_next_of_runSingle (h : i < stop)
    (hdone : runSingle (Calls.ofFuel fuel) lines i stop line m = .done (.line next) m') : i < next ∧ next ≤ stop :=
  lt_next_of_splits (openSingle_splits lines fuel line i stop) (openSingle_forward h) hdone

end

/-! ## Statements -/

/-- Only the jump ends with a jump. -/
theorem leads_runStatement {kind : StatementKind} (h : kind ≠ .jump) (c : Calls) (args : List Value) :
    (runStatement c kind args).Leads fun flow => ∀ label, flow ≠ .jump label := by
  fun_cases runStatement
  · exact leads_pure fun label heq => by cases heq
  · exact absurd rfl h
  · exact leads_bind _ fun _ => leads_pure fun label heq => by cases heq

/-- Only `JUMP` jumps. -/
theorem leads_runSimple {s : Statement} (h : s.kind ≠ .jump) (c : Calls) (line : Line) :
    (runSimple c line s).Leads fun flow => ∀ label, flow ≠ .jump label := by
  have hnext : ∀ label, Flow.next ≠ .jump label := fun label heq => by cases heq
  unfold runSimple
  split
  · exact leads_pure hnext
  · exact leads_pure hnext
  · exact leads_pure hnext
  · exact leads_pure hnext
  · exact leads_bind _ fun _ => leads_pure hnext
  · exact leads_bind _ fun _ => leads_pure hnext
  · exact leads_bind _ fun args => leads_runStatement h c args

/-- What a statement of a line leaves to be run: nothing, the rest of its line, or a branch after it. -/
inductive Entry.Proceeds (lines : List Line) (fuel : Nat) (line : Line) (stop index : Nat)
    (rest : List Statement) : Entry → Prop
  | ended {flow : Flow} (hflow : ∀ label, flow ≠ .jump label) :
      Proceeds lines fuel line stop index rest ⟨.ended flow, []⟩
  | next : Proceeds lines fuel line stop index rest ⟨.running (.statements fuel line stop (index + 1) rest), []⟩
  | branch {start last : Nat} {e : Entry} (hstart : index < start)
      (hbegins : e.Begins lines fuel (.statements line start last)) :
      Proceeds lines fuel line stop index rest e

section

variable {line : Line} {stop index : Nat} {s : Statement} {rest : List Statement}

theorem proceeds_done :
    (pure ⟨.ended .next, []⟩ : Run Entry).Leads (Entry.Proceeds lines fuel line stop index rest) :=
  leads_pure (.ended fun label h => by cases h)

/-- The branch of a conditional in one line stands behind its header. -/
theorem proceeds_branch {start last : Nat} (hstart : index < start) :
    (inGroup (enter lines (.statements line start last) fuel)).Leads
      (Entry.Proceeds lines fuel line stop index rest) :=
  fun m e m' hdone => .branch hstart (leads_enterGroup _ m e m' hdone)

/-- Either branch, or none, for a conditional in one line. -/
theorem enterIf_proceeds :
    (enterIf lines fuel line index stop s).Leads (Entry.Proceeds lines fuel line stop index rest) := by
  refine leads_bind _ fun _ => leads_ite (leads_fail _) (leads_bind _ fun yes => leads_ite ?_ ?_)
  · exact proceeds_branch (Nat.lt_succ_self index)
  · split
    · next e helse => exact proceeds_branch (Nat.lt_succ_of_lt (Block.le_of_inlineElse? helse))
    · exact proceeds_done

/-- One statement: a branch that stands behind it, or the next one. -/
theorem enterStatement_proceeds (h : s.kind.turnsBack = false) :
    (enterStatement lines fuel line stop index (s :: rest)).Leads
      (Entry.Proceeds lines fuel line stop index rest) := by
  rw [enterStatement]
  cases hkind : s.kind with
  | comment => exact proceeds_done
  | elseIf => exact proceeds_done
  | ifThen => exact enterIf_proceeds
  | act => exact leads_bind _ fun _ => proceeds_done
  | loop => rw [hkind] at h; cases h
  | forTo => rw [hkind] at h; cases h
  | jump => rw [hkind] at h; cases h
  | _ =>
    refine (leads_runSimple (by rw [hkind]; intro heq; cases heq) _ line).bind fun flow hflow => ?_
    cases flow with
    | next => exact leads_pure .next
    | exit => exact leads_pure (.ended hflow)
    | jump label => exact absurd rfl (hflow label)

end

/-! ## Steps -/

/-- What a step does in straight code. -/
inductive Moves (lines : List Line) : Config → Config → Prop
  /-- A range is left. -/
  | leave {r : Range} {n i : Nat} {fs : List Frame} {m m' : Machine} :
      Moves lines ⟨.running (.lines r n i), fs, m⟩ ⟨.ended .next, fs, m'⟩
  /-- A range goes on at a line below. -/
  | skip {r : Range} {n i next : Nat} {fs : List Frame} {m m' : Machine} (hi : i < r.stop) (hnext : i < next)
      (hstop : next ≤ r.stop) :
      Moves lines ⟨.running (.lines r (n + 1) i), fs, m⟩ ⟨.running (.lines r n next), fs, m'⟩
  /-- Code of a line is entered, and the range is to go on at a line below. -/
  | enter {r : Range} {n i next k : Nat} {line : Line} {code : Stretch} {marks : List Nat} {fs : List Frame}
      {m m' : Machine} (hi : i < r.stop) (hnext : i < next) (hstop : next ≤ r.stop) (hline : line ∈ lines)
      (hcode : code.Follows line i next) (hfuel : r.fuel = k + 1) :
      Moves lines ⟨.running (.lines r (n + 1) i), fs, m⟩
        ⟨.running (code.start k lines), marks.map .group ++ .line r n next :: fs, m'⟩
  /-- A statement is run, and then the next one. -/
  | next {fuel stop index : Nat} {line : Line} {s : Statement} {rest : List Statement} {fs : List Frame}
      {m m' : Machine} :
      Moves lines ⟨.running (.statements fuel line stop index (s :: rest)), fs, m⟩
        ⟨.running (.statements fuel line stop (index + 1) rest), fs, m'⟩
  /-- A branch after a statement is entered. -/
  | branch {k stop index start last : Nat} {line : Line} {rest : List Statement} {marks : List Nat}
      {fs : List Frame} {m m' : Machine} (hindex : index < line.statements.length) (hstart : index < start) :
      Moves lines ⟨.running (.statements (k + 1) line stop index rest), fs, m⟩
        ⟨.running ((Stretch.statements line start last).start k lines), marks.map .group ++ fs, m'⟩
  /-- The statements of a line end. -/
  | done {fuel stop index : Nat} {line : Line} {rest : List Statement} {flow : Flow} {fs : List Frame}
      {m m' : Machine} (hflow : ∀ label, flow ≠ .jump label) :
      Moves lines ⟨.running (.statements fuel line stop index rest), fs, m⟩ ⟨.ended flow, fs, m'⟩
  /-- A frame is closed. -/
  | close {f : Frame} {flow : Flow} {fs : List Frame} {m m' : Machine} :
      Moves lines ⟨.ended flow, f :: fs, m⟩ ⟨.ended flow, fs, m'⟩
  /-- A range goes on after one of its lines. -/
  | resume {r : Range} {n next : Nat} {fs : List Frame} {m m' : Machine} :
      Moves lines ⟨.ended .next, .line r n next :: fs, m⟩ ⟨.running (.lines r n next), fs, m'⟩

/-- Frames of groups and of ranges that go on at line `k` or below, the inner ones first. -/
inductive Rising : Nat → List Frame → Prop
  | nil {k : Nat} : Rising k []
  | group {k mark : Nat} {fs : List Frame} (hfs : Rising k fs) : Rising k (.group mark :: fs)
  | line {k n next : Nat} {r : Range} {fs : List Frame} (hnext : k ≤ next) (hfs : Rising (max next r.stop) fs) :
      Rising k (.line r n next :: fs)

/-- What is ahead of a line is ahead of those before it. -/
theorem Rising.mono {j k : Nat} {fs : List Frame} (h : Rising k fs) (hjk : j ≤ k) : Rising j fs := by
  induction h with
  | nil => exact .nil
  | group _ ih => exact .group (ih hjk)
  | line hnext hfs _ => exact .line (hjk.trans hnext) hfs

/-- The frames of groups have no line. -/
theorem Rising.groups {k : Nat} {fs : List Frame} (h : Rising k fs) (marks : List Nat) :
    Rising k (marks.map .group ++ fs) := by
  induction marks with
  | nil => exact h
  | cons mark marks ih => exact .group ih

/-- **What straight code keeps**: all that is still to be run stands at line `k` or below, but for the rest
of a line that has been entered. -/
inductive Ahead (lines : List Line) (k : Nat) : Config → Prop
  | lines {r : Range} {n i : Nat} {fs : List Frame} {m : Machine} (hi : k ≤ i) (hfs : Rising (max i r.stop) fs) :
      Ahead lines k ⟨.running (.lines r n i), fs, m⟩
  | statements {fuel stop index : Nat} {line : Line} {rest : List Statement} {fs : List Frame} {m : Machine}
      (hline : line ∈ lines) (hrest : ∃ last, rest = (line.statements.take last).drop index) (hfs : Rising k fs) :
      Ahead lines k ⟨.running (.statements fuel line stop index rest), fs, m⟩
  | ended {flow : Flow} {fs : List Frame} {m : Machine} (hflow : ∀ label, flow ≠ .jump label)
      (hfs : Rising k fs) : Ahead lines k ⟨.ended flow, fs, m⟩

/-- The line that a configuration is about to run. -/
def Config.line? (lines : List Line) : Config → Option Nat
  | ⟨.running (.lines r (_ + 1) i), _, _⟩ => if i < min r.stop lines.length then some i else none
  | _ => none

theorem Config.exists_of_line? {c : Config} {i : Nat} (h : c.line? lines = some i) :
    ∃ r n fs m, c = ⟨.running (.lines r (n + 1) i), fs, m⟩ ∧ i < r.stop := by
  unfold line? at h
  split at h
  · next r n i' fs m =>
    obtain ⟨hlt, heq⟩ := Option.ite_none_right_eq_some.mp h
    cases heq
    exact ⟨r, n, fs, m, rfl, hlt.trans_le (min_le_left _ _)⟩
  · cases h

namespace Ahead

variable {k : Nat} {c c' : Config}

/-- The statement at the front of what is left of a line. -/
theorem mem_of_rest {line : Line} {index : Nat} {s : Statement} {rest : List Statement}
    (h : ∃ last, s :: rest = (line.statements.take last).drop index) :
    s ∈ line.statements ∧ index < line.statements.length ∧
      ∃ last, rest = (line.statements.take last).drop (index + 1) := by
  obtain ⟨last, hrest⟩ := h
  have hmem : s ∈ (line.statements.take last).drop index := hrest ▸ List.mem_cons_self
  refine ⟨List.mem_of_mem_take (List.mem_of_mem_drop hmem), ?_, last, ?_⟩
  · have hlength := congrArg List.length hrest
    rw [List.length_cons, List.length_drop, List.length_take] at hlength
    omega
  · rw [← List.tail_drop, ← hrest, List.tail_cons]

/-- Straight code moves as listed. -/
theorem moves (hlines : ∀ line ∈ lines, line.Straight) (h : Ahead lines k c) (hstep : c.step lines = .on c') :
    Moves lines c c' := by
  cases h with
  | @lines r n i fs m hi hfs =>
    obtain ⟨e, m', hdone, rfl⟩ := exists_of_under hstep
    -- the range is at its end, or it opens a line
    rcases exists_opening lines hdone with ⟨rfl, -⟩ | ⟨n, line, o, rfl, hstop, hline, rfl, hopen⟩
    · exact .leave
    · have hforward := (openLine_forward hstop).marked _ o m' hopen
      cases o with
      | line next => exact .skip hstop hforward.lt_next hforward.next_le
      | code next e =>
        have hmem := List.mem_of_getElem? hline
        obtain ⟨code, hcode, k, marks, hfuel, rfl⟩ := hforward.code (hlines line hmem) next e rfl
        rw [Range.follow, Entry.push, List.append_assoc]
        exact .enter hstop hforward.lt_next hforward.next_le hmem hcode hfuel
  | @statements fuel stop index line rest fs m hline hrest hfs =>
    obtain ⟨e, m', hdone, rfl⟩ := exists_of_under hstep
    cases rest with
    | nil =>
      cases hdone
      exact .done fun label h => by cases h
    | cons s rest =>
      obtain ⟨hs, hindex, -⟩ := mem_of_rest hrest
      have hproceeds := enterStatement_proceeds (hlines line hline s hs) m e m' hdone
      cases hproceeds with
      | ended hflow => exact .done hflow
      | next => exact .next
      | branch hstart hbegins =>
        obtain ⟨k, marks, rfl, rfl⟩ := hbegins
        exact .branch hindex hstart
  | @ended flow fs m hflow hfs =>
    cases hfs with
    | nil => cases hstep
    | group hfs =>
      cases hstep
      exact .close
    | line hnext hfs =>
      cases flow with
      | next =>
        cases hstep
        exact .resume
      | exit =>
        cases hstep
        exact .close
      | jump label => exact absurd rfl (hflow label)

/-- What a range leads to stands below the line that is run. -/
theorem step_of_lines {r : Range} {n i j : Nat} {fs : List Frame} {m : Machine} (hfs : Rising (max i r.stop) fs)
    (hj : j ≤ i + 1) (hstop : j ≤ max i r.stop) (hmove : Moves lines ⟨.running (.lines r n i), fs, m⟩ c') :
    Ahead lines j c' := by
  cases hmove with
  | leave => exact .ended (fun label h => by cases h) (hfs.mono hstop)
  | skip hi hnext hnextStop => exact .lines (hj.trans hnext) (hfs.mono (max_le (by omega) (le_max_right _ _)))
  | @enter _ _ _ next _ line code marks _ _ _ hi hnext hnextStop hline hcode hfuel =>
    have hrest : Rising (max next r.stop) fs := hfs.mono (max_le (by omega) (le_max_right _ _))
    cases hcode with
    | statements start =>
      exact .statements hline ⟨_, rfl⟩ ((Rising.line (hj.trans hnext) hrest).groups marks)
    | lines hlast =>
      have hlines : max (i + 1) (min _ lines.length) ≤ next := max_le hnext ((min_le_left _ _).trans hlast)
      exact .lines hj ((Rising.line hlines hrest).groups marks)

/-- The line that is run next is ahead. -/
theorem le_of_line? (h : Ahead lines k c) {i : Nat} (hi : c.line? lines = some i) : k ≤ i := by
  obtain ⟨r, n, fs, m, rfl, -⟩ := Config.exists_of_line? hi
  cases h with
  | lines hk hfs => exact hk

/-- A line that is run is behind all that comes after it. -/
theorem step_of_line? (h : Ahead lines k c) (hmove : Moves lines c c') {i : Nat} (hi : c.line? lines = some i) :
    Ahead lines (i + 1) c' := by
  obtain ⟨r, n, fs, m, rfl, hstop⟩ := Config.exists_of_line? hi
  cases h with
  | lines hk hfs => exact step_of_lines hfs le_rfl (Nat.le_trans hstop (le_max_right _ _)) hmove

/-- What is ahead stays ahead. -/
theorem step (h : Ahead lines k c) (hmove : Moves lines c c') : Ahead lines k c' := by
  cases h with
  | lines hk hfs => exact step_of_lines hfs (Nat.le_succ_of_le hk) (hk.trans (le_max_left _ _)) hmove
  | statements hline hrest hfs =>
    cases hmove with
    | next => exact .statements hline (mem_of_rest hrest).2.2 hfs
    | branch hindex hstart => exact .statements hline ⟨_, rfl⟩ (hfs.groups _)
    | done hflow => exact .ended hflow hfs
  | ended hflow hfs =>
    cases hmove with
    | close =>
      cases hfs with
      | group hfs => exact .ended hflow hfs
      | line hnext hfs => exact .ended hflow (hfs.mono (hnext.trans (le_max_left _ _)))
    | resume =>
      cases hfs with
      | line hnext hfs => exact .lines hnext hfs

/-- By induction on the steps, each of which only goes ahead. -/
theorem reaches (hlines : ∀ line ∈ lines, line.Straight) (h : Ahead lines k c) (hreach : Reaches lines c c') :
    Ahead lines k c' := by
  induction hreach with
  | refl => exact h
  | tail _ hstep ih => exact ih.step (ih.moves hlines hstep)

/-- **Straight code runs its lines in order**, and so none of them twice. -/
theorem line_lt_line (hlines : ∀ line ∈ lines, line.Straight) (h : Ahead lines k c)
    (hsteps : Relation.TransGen (fun c c' => c.step lines = .on c') c c') {i j : Nat}
    (hi : c.line? lines = some i) (hj : c'.line? lines = some j) : i < j := by
  obtain ⟨c₁, hstep, hreach⟩ := Relation.TransGen.head'_iff.mp hsteps
  have hnext := h.step_of_line? (h.moves hlines hstep) hi
  exact (hnext.reaches hlines hreach).le_of_line? hj

end Ahead

end Control

end QuestScript
