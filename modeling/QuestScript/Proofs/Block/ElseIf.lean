import QuestScript.Engine
import QuestScript.Proofs.Block.Conditional
import QuestScript.Proofs.Line.ElseIf

/-!
# `ELSE IF` and `ELSEIF`

A line is replaced by another one that has the same role and, when it runs, does the same
(`Calls.ofFuel_lines_replace`). The searches look only at roles and labels, so they find the same. The
lines themselves are seen in one place: an `ACT` keeps those of its block as the code of the action. So
no `ACT` before the line may still be open (`Block.Shut`).

For the header of a branch with its code on the next lines, `ELSE IF` is such a replacement of `ELSEIF`.
For a header with its code on its line it is not: `ELSE IF` is an `ELSE` there.
-/

namespace QuestScript

/-! ## Searches see roles and labels -/

namespace Block

theorem endFrom?_congr {ls ls' : List Line} (h : ls.map role = ls'.map role) (depth index : Nat) :
    endFrom? depth index ls = endFrom? depth index ls' := by
  induction ls generalizing ls' depth index with
  | nil =>
    rw [List.map_nil, eq_comm, List.map_eq_nil_iff] at h
    rw [h]
  | cons l ls ih =>
    obtain ⟨l', ls', rfl, hrole, htail⟩ := List.map_eq_cons_iff.mp h.symm
    simp only [endFrom?, hrole, ih htail.symm]

theorem elseFrom?_congr {ls ls' : List Line} (h : ls.map role = ls'.map role) (depth index : Nat) :
    elseFrom? depth index ls = elseFrom? depth index ls' := by
  induction ls generalizing ls' depth index with
  | nil =>
    rw [List.map_nil, eq_comm, List.map_eq_nil_iff] at h
    rw [h]
  | cons l ls ih =>
    obtain ⟨l', ls', rfl, hrole, htail⟩ := List.map_eq_cons_iff.mp h.symm
    simp only [elseFrom?, hrole, ih htail.symm]

theorem map_range {α : Type} (f : Line → α) (lines : List Line) (start stop : Nat) :
    (range lines start stop).map f = ((lines.map f).take stop).drop start := by
  unfold range
  rw [List.map_drop, List.map_take]

section Congr

variable {lines lines' : List Line}

theorem end?_congr (h : lines.map role = lines'.map role) (start stop : Nat) :
    Block.end? lines start stop = Block.end? lines' start stop :=
  endFrom?_congr (by rw [map_range, map_range, h]) 0 start

theorem else?_congr (h : lines.map role = lines'.map role) (start stop : Nat) :
    else? lines start stop = else? lines' start stop :=
  elseFrom?_congr (by rw [map_range, map_range, h]) 0 start

theorem label?_congr (h : lines.map (·.label) = lines'.map (·.label)) (start stop : Nat) (label : String) :
    label? lines start stop label = label? lines' start stop label := by
  have hlabels (lines : List Line) : label? lines start stop label
      = ((((lines.map (·.label)).take stop).drop start).findIdx? (· == some label)).map (· + start) := by
    rw [← map_range, List.findIdx?_map]
    rfl
  rw [hlabels, hlabels, h]

end Congr

/-! ## Lines that leave no action open -/

/-- Every `ACT` of these lines with its code on the lines below has its `END` among them. -/
inductive Shut : List Line → Prop
  | nil : Shut []
  | cons {l : Line} {ls : List Line}
      (own : l.isMultiline = true → l.kind = .act → ∃ e, endFrom? 0 0 ls = some e) (rest : Shut ls) :
      Shut (l :: ls)

theorem Shut.append {ls more : List Line} (h : Shut ls) (hmore : Shut more) : Shut (ls ++ more) := by
  induction h with
  | nil => exact hmore
  | cons own _ ih =>
    refine .cons (fun hmulti hkind => ?_) ih
    obtain ⟨e, he⟩ := own hmulti hkind
    exact ⟨e, endFrom?_append he more⟩

theorem Shut.of_append_cons {before after : List Line} {l : Line} (h : Shut (before ++ l :: after))
    (hmulti : l.isMultiline = true) (hkind : l.kind = .act) : ∃ e, endFrom? 0 0 after = some e := by
  induction before with
  | nil =>
    obtain - | ⟨own, -⟩ := h
    exact own hmulti hkind
  | cons b before ih =>
    obtain - | ⟨-, hrest⟩ := h
    exact ih hrest

theorem Shut.of_role_ne {l : Line} {ls : List Line} (hl : role l ≠ .opening) (h : Shut ls) :
    Shut (l :: ls) := by
  refine .cons (fun hmulti hkind => absurd ?_ hl) h
  unfold role
  simp only [hmulti, hkind, StatementKind.opensBlock, Bool.and_self, if_true]

theorem Shut.of_closed {rs : List Role} (h : Closed rs) {ls : List Line} (hls : ls.map role = rs) :
    Shut ls := by
  induction h generalizing ls with
  | nil =>
    rw [List.map_eq_nil_iff.mp hls]
    exact .nil
  | line hopening _ _ ih =>
    obtain ⟨l, ls, rfl, rfl, htail⟩ := List.map_eq_cons_iff.mp hls
    exact .of_role_ne hopening (ih htail)
  | block hbody _ ihbody ihrest =>
    obtain ⟨l, ls, rfl, hl, htail⟩ := List.map_eq_cons_iff.mp hls
    obtain ⟨body, ls, rfl, hbs, hclose⟩ := List.map_eq_append_iff.mp htail
    obtain ⟨e, after, rfl, he, hafter⟩ := List.map_eq_cons_iff.mp hclose
    have hend : role e ≠ .opening := by
      rw [he]
      nofun
    refine .cons (fun _ _ => ⟨body.length, ?_⟩) ((ihbody hbs).append (.of_role_ne hend (ihrest hafter)))
    rw [endFrom?_of_closed hbody hbs, Nat.zero_add, endFrom?.eq_def]
    simp only [he]

end Block

namespace Machine

/-! ## Replacing a header -/

/-- Two headers of a branch, with their code on the next lines, that do the same. -/
structure SameBranch (x y : Line) : Prop where
  kind : x.kind = .elseIf ∧ y.kind = .elseIf
  multiline : x.isMultiline = true ∧ y.isMultiline = true
  number : x.number = y.number
  label : x.label = y.label
  condition : ∀ c, ∀ s ∈ x.statements.head?, ∀ t ∈ y.statements.head?,
    condition c x s = condition c y t

theorem SameBranch.role {x y : Line} (h : SameBranch x y) : Block.role x = Block.role y := by
  unfold Block.role
  rw [h.kind.1, h.kind.2, h.multiline.1, h.multiline.2]

theorem blockEnd_congr {lines lines' : List Line} (h : lines.map Block.role = lines'.map Block.role)
    (i stop : Nat) : blockEnd lines i stop = blockEnd lines' i stop := by
  unfold blockEnd
  rw [Block.end?_congr h]

/-- A run that starts with the search for an `END`. -/
theorem blockEnd_bind_congr {lines : List Line} {i stop : Nat} {f g : Nat → Run Cursor}
    (h : ∀ e, Block.end? lines (i + 1) stop = some e → f e = g e) :
    blockEnd lines i stop >>= f = blockEnd lines i stop >>= g := by
  unfold blockEnd
  cases he : Block.end? lines (i + 1) stop with
  | none => rfl
  | some e => exact h e he

section Congr

variable {c : Calls} {lines lines' : List Line} (hrole : lines.map Block.role = lines'.map Block.role)
  (hlines : c.lines lines = c.lines lines')
include hrole hlines

theorem runSingle_congr (i stop : Nat) (line : Line) :
    runSingle c lines i stop line = runSingle c lines' i stop line := by
  unfold runSingle
  rw [blockEnd_congr hrole, hlines]
  simp only [Block.else?_congr hrole]

/-- A line does the same among lines with the same roles, unless it is an `ACT` and sees them. -/
theorem runLine_congr (i stop : Nat) (line : Line)
    (hact : line.kind = .act → line.isMultiline = true → ∀ e, Block.end? lines (i + 1) stop = some e →
      Block.range lines (i + 1) e = Block.range lines' (i + 1) e) :
    runLine c lines i stop line = runLine c lines' i stop line := by
  unfold runLine
  split
  · next hmulti =>
    unfold runHeader
    rw [← blockEnd_congr hrole]
    refine blockEnd_bind_congr fun e he => ?_
    dsimp only
    split
    · rw [Block.else?_congr hrole, hlines]
    · rw [Block.else?_congr hrole, hlines]
    · next hkind _ => rw [hact hkind hmulti e he]
    · rw [hlines]
    · rw [hlines]
    · exact runSingle_congr hrole hlines i stop line
  · exact runSingle_congr hrole hlines i stop line

/-- The header itself. -/
theorem runLine_sameBranch {x y : Line} (hxy : SameBranch x y) (i stop : Nat) :
    runLine c lines i stop x = runLine c lines' i stop y := by
  obtain ⟨s, ss, hs, -⟩ := exists_statement hxy.kind.1 nofun
  obtain ⟨t, ts, ht, -⟩ := exists_statement hxy.kind.2 nofun
  have hcondition := hxy.condition c s (by rw [hs]; rfl) t (by rw [ht]; rfl)
  unfold runLine runHeader
  rw [if_pos hxy.multiline.1, if_pos hxy.multiline.2, blockEnd_congr hrole, hlines]
  simp only [hxy.kind.1, hxy.kind.2, hs, ht, hcondition, Block.else?_congr hrole]

end Congr

section Replace

variable {c : Calls} {before after : List Line} {x y : Line}

theorem range_of_le {e : Nat} (he : e ≤ before.length) (start : Nat) :
    Block.range (before ++ x :: after) start e = Block.range (before ++ y :: after) start e := by
  unfold Block.range
  rw [List.take_append_of_le_length he, List.take_append_of_le_length he]

theorem range_of_lt {start : Nat} (hstart : before.length < start) (e : Nat) :
    Block.range (before ++ x :: after) start e = Block.range (before ++ y :: after) start e := by
  obtain ⟨k, rfl⟩ : ∃ k, start = before.length + (k + 1) := ⟨start - before.length - 1, by omega⟩
  unfold Block.range
  rw [List.drop_take, List.drop_take, List.drop_length_add_append, List.drop_length_add_append,
    List.drop_succ_cons, List.drop_succ_cons]

/-- The `END` of an `ACT` that has one before the header is that one. -/
theorem le_of_end?_of_shut (hshut : Block.Shut before) {i stop e : Nat} {l : Line} (hl : before[i]? = some l)
    (hmulti : l.isMultiline = true) (hkind : l.kind = .act)
    (he : Block.end? (before ++ after) (i + 1) stop = some e) : e ≤ before.length := by
  obtain ⟨hi, hget⟩ := List.getElem?_eq_some_iff.mp hl
  have hsplit : before = before.take i ++ l :: before.drop (i + 1) := by
    rw [← hget, List.getElem_cons_drop, List.take_append_drop]
  obtain ⟨own, hown⟩ := (hsplit ▸ hshut).of_append_cons hmulti hkind
  have hlt := (Block.bounds_of_endFrom? hown).2
  rw [List.length_drop] at hlt
  -- the lines that are searched are the first ones of those after the header
  have hrange : Block.range (before ++ after) (i + 1) stop
      = (before.drop (i + 1) ++ after).take (stop - (i + 1)) := by
    unfold Block.range
    rw [List.drop_take, List.drop_append_of_le_length hi]
  have hfound := Block.endFrom?_append he ((before.drop (i + 1) ++ after).drop (stop - (i + 1)))
  rw [hrange, List.take_append_drop, ← Nat.add_zero (i + 1), Block.endFrom?_add, Nat.add_zero,
    Block.endFrom?_append hown, Option.map_some, Option.some.injEq] at hfound
  omega

/-- An `ACT` sees the same lines, whichever header stands there. -/
theorem range_act (hshut : Block.Shut before) (hx : x.kind ≠ .act) {i stop e : Nat} {l : Line}
    (hl : (before ++ x :: after)[i]? = some l) (hkind : l.kind = .act) (hmulti : l.isMultiline = true)
    (he : Block.end? (before ++ x :: after) (i + 1) stop = some e) :
    Block.range (before ++ x :: after) (i + 1) e = Block.range (before ++ y :: after) (i + 1) e := by
  rcases Nat.lt_trichotomy i before.length with hi | rfl | hi
  · rw [List.getElem?_append_left hi] at hl
    exact range_of_le (le_of_end?_of_shut hshut hl hmulti hkind he) _
  · rw [List.getElem?_append_right (Nat.le_refl _), Nat.sub_self] at hl
    cases hl
    exact absurd hkind hx
  · exact range_of_lt (Nat.lt_succ_of_lt hi) e

theorem map_replace (before after : List Line) {α : Type} {f : Line → α} (h : f x = f y) :
    (before ++ x :: after).map f = (before ++ y :: after).map f := by
  rw [List.map_append, List.map_append, List.map_cons, List.map_cons, h]

theorem linesFrom_replace (hshut : Block.Shut before) (hxy : SameBranch x y)
    (hlines : c.lines (before ++ x :: after) = c.lines (before ++ y :: after)) (start stop : Nat) (top : Bool)
    (n i : Nat) :
    linesFrom c (before ++ x :: after) start stop top n i
      = linesFrom c (before ++ y :: after) start stop top n i := by
  have hrole := map_replace before after hxy.role
  have hlabel (label : String) := Block.label?_congr (map_replace before after hxy.label) start stop label
  induction n generalizing i with
  | zero => rfl
  | succ n ih =>
    -- what follows a line is the same, because labels stand where they stood
    have hafter : afterLine c (before ++ x :: after) start stop top n
        = afterLine c (before ++ y :: after) start stop top n := by
      funext cursor
      cases cursor with
      | line next => exact ih next
      | leave flow =>
        cases flow with
        | next => rfl
        | exit => rfl
        | jump label =>
          simp only [afterLine]
          rw [hlabel]
          split
          · next target _ => exact ih target
          · rfl
    rw [linesFrom_succ, linesFrom_succ, hafter]
    split
    · rfl
    · -- the header does the same in both spellings, and every other line is the same in both lists
      by_cases hi : i = before.length
      · subst hi
        have hget (l : Line) : (before ++ l :: after)[before.length]? = some l := by
          rw [List.getElem?_append_right (Nat.le_refl _), Nat.sub_self]
          rfl
        rw [hget, hget]
        dsimp only
        rw [hxy.number, runLine_sameBranch hrole hlines hxy]
      · have hget : (before ++ x :: after)[i]? = (before ++ y :: after)[i]? := by
          rw [List.getElem?_append, List.getElem?_append]
          split
          · rfl
          · obtain ⟨j, hj⟩ : ∃ j, i - before.length = j + 1 := ⟨i - before.length - 1, by omega⟩
            rw [hj, List.getElem?_cons_succ, List.getElem?_cons_succ]
        rw [← hget]
        cases hl : (before ++ x :: after)[i]? with
        | none => rfl
        | some l =>
          dsimp only
          -- an action takes its block with it as code, and the header in question is in none
          have hx : x.kind ≠ .act := by
            rw [hxy.kind.1]
            decide
          rw [runLine_congr hrole hlines i stop l fun hkind hmulti e he =>
            range_act hshut hx hl hkind hmulti he]

end Replace

end Machine

/-- **A header is replaced by one that does the same.** -/
theorem Calls.ofFuel_lines_replace {before after : List Line} {x y : Line} (hshut : Block.Shut before)
    (hxy : Machine.SameBranch x y) (k : Nat) :
    (Calls.ofFuel k).lines (before ++ x :: after) = (Calls.ofFuel k).lines (before ++ y :: after) := by
  induction k with
  | zero => rfl
  | succ k ih =>
    funext start stop top m
    show Machine.runLines _ _ _ _ _ m = Machine.runLines _ _ _ _ _ m
    unfold Machine.runLines
    rw [Machine.linesFrom_replace hshut hxy ih, List.length_append, List.length_append, List.length_cons,
      List.length_cons]

namespace Machine

/-! ## The two spellings in a conditional -/

section Spellings

variable {h : Heading} {b : Branch}

theorem sameBranch_elseThenIf (hmulti : h.elseIf.isMultiline = true) (gap : Gap) :
    SameBranch h.elseIf (h.elseThenIf gap) := by
  rw [Heading.isMultiline_elseIf] at hmulti
  obtain ⟨s, hs, hkind⟩ := Heading.exists_single hmulti
  have helseIf : h.elseIf.statements = [(s.shift 4).asElseIf] := h.statements_elseIf hs
  have hapart := Heading.statements_elseThenIf_single h gap hs hkind
  exact {
    kind := ⟨h.kind_elseIf, by rw [Line.kind, hapart]; rfl⟩
    multiline := ⟨by rw [Heading.isMultiline_elseIf, hmulti], Heading.isMultiline_elseThenIf gap hmulti⟩
    number := rfl
    label := by rw [Heading.label_elseIf, Heading.label_elseThenIf]
    condition := by
      intro c t ht u hu
      rw [helseIf] at ht
      rw [hapart] at hu
      cases ht
      cases hu
      exact (Heading.condition_moved_asElseIf h.moved_elseIf c hkind).trans
        (Heading.condition_moved_asElseIf (Heading.moved_elseThenIf_single gap hs hkind) c hkind).symm }

section Inline

variable (hb : b.header = h.elseIf) (hcontinues : b.Continues) (hinline : b.header.isMultiline = false)
include hb hcontinues hinline

/-- The header of a branch with its code on the same line ends with a colon. -/
theorem hasColon_of_continues {s : Statement} {ss : List Statement} (hs : h.ifThen.statements = s :: ss) :
    h.ifThen.hasColon s = true := by
  rcases hcontinues with helse | ⟨-, hmulti | hcolon⟩
  · rw [hb, h.kind_elseIf] at helse
    cases helse
  · rw [hinline] at hmulti
    cases hmulti
  · rw [hb, h.statements_elseIf hs] at hcolon
    have hhead : h.elseIf.hasColon (s.shift 4) = true := hcolon (s.shift 4).asElseIf rfl
    exact (h.moved_elseIf.hasColon s).symm.trans hhead

theorem one_lt_length_of_continues : 1 < h.ifThen.statements.length := by
  obtain ⟨s, ss, hs, hkind⟩ := h.exists_statements
  have hcolon := hasColon_of_continues hb hcontinues hinline hs
  cases ss with
  | nil =>
    have hmulti := Heading.isMultiline_of_hasColon hs hcolon
    rw [← Heading.isMultiline_elseIf, ← hb, hinline] at hmulti
    cases hmulti
  | cons t ss =>
    rw [hs]
    exact Nat.succ_lt_succ (Nat.succ_pos _)

/-- Without an `ELSE` of its own, the conditional that `ELSE IF` has for its code evaluates the condition
of the branch and runs the code of the branch. -/
theorem statements_ifThen_eq (hown : Block.inlineElse? 0 1 (h.ifThen.statements.drop 1) = none) (k : Nat) :
    (Calls.ofFuel (k + 1)).statements h.ifThen 0 h.ifThen.statements.length = (do
      if ← b.guard (Calls.ofFuel k) then (b.code (Calls.ofFuel k)).grouped else return .next) := by
  have hmore := one_lt_length_of_continues hb hcontinues hinline
  obtain ⟨s, ss, hs, hkind⟩ := h.exists_statements
  have hcolon := hasColon_of_continues hb hcontinues hinline hs
  have hguard : b.guard (Calls.ofFuel k) = condition (Calls.ofFuel k) h.ifThen s := by
    unfold Branch.guard
    rw [hb, h.kind_elseIf, h.statements_elseIf hs]
    exact Heading.condition_moved_asElseIf h.moved_elseIf _ hkind
  have hcode : b.code (Calls.ofFuel k)
      = (Calls.ofFuel k).statements h.ifThen 1 h.ifThen.statements.length := by
    have hsame := Calls.ofFuel_statements_moved h.moved_elseIf k 1 h.ifThen.statements.length (Nat.le_refl 1)
    have hcount : h.elseIf.statements.length = h.ifThen.statements.length := h.moved_elseIf.count
    unfold Branch.code Branch.isInline
    rw [hinline, hb, h.kind_elseIf, hcount]
    exact hsame
  have hfirst : (Calls.ofFuel (k + 1)).statements h.ifThen 0 h.ifThen.statements.length
      = inlineIf (Calls.ofFuel k) h.ifThen 0 h.ifThen.statements.length s := by
    show runStatements (Calls.ofFuel k) h.ifThen 0 h.ifThen.statements.length = _
    unfold runStatements
    dsimp only
    rw [Nat.min_self, List.take_length, List.drop_zero, hs]
    simp only [statementsFrom, hkind]
  have hfull : (1 == h.ifThen.statements.length) = false := beq_false_of_ne (by omega)
  rw [hfirst, hguard, hcode]
  simp only [inlineIf, requireColon, hcolon, if_true, List.take_length, Nat.zero_add, hown, hfull, pure_bind,
    Option.getD_none, Bool.false_eq_true, if_false]

end Inline

/-- With code behind it, `ELSE IF` is an `ELSE` with the conditional for its code. -/
theorem guard_code_elseThenIf {gap : Gap} (hb : b.header = h.elseThenIf gap)
    (hmore : 1 < h.ifThen.statements.length) (k : Nat) :
    b.Continues ∧ b.guard (Calls.ofFuel k) = pure true ∧
      b.code (Calls.ofFuel k) = (Calls.ofFuel k).statements h.ifThen 0 h.ifThen.statements.length := by
  have hmoved := Heading.moved_elseThenIf_more gap hmore
  have hsame := Calls.ofFuel_statements_moved hmoved k 0 h.ifThen.statements.length (Nat.zero_le 0)
  have hkind : b.header.kind = .otherwise := by
    rw [hb, Line.kind, Heading.statements_elseThenIf_more h gap hmore]
    rfl
  refine ⟨.inl hkind, ?_, ?_⟩
  · unfold Branch.guard
    rw [hkind]
  · unfold Branch.code Branch.isInline
    rw [hkind, hb, hmoved.count, if_pos (decide_eq_true (by omega))]
    exact hsame

/-- So its line runs the conditional, and then the range goes on after the `END`. -/
theorem linesFrom_elseThenIf {gap : Gap} {lines before : List Line} {bs : List Branch} {closing : Line}
    {e stop : Nat} (hb : b.header = h.elseThenIf gap) (hmore : 1 < h.ifThen.statements.length)
    (hlayout : Layout lines before (b :: bs) closing e stop) (hbs : ∀ b ∈ bs, b.Continues)
    (k n start : Nat) (top : Bool) :
    linesFrom (Calls.ofFuel k) lines start stop top (n + 1) before.length = (do
      Run.modify fun m => { m with site.line := h.number }
      let flow ← ((Calls.ofFuel k).statements h.ifThen 0 h.ifThen.statements.length).grouped.marked
      afterBranch (Calls.ofFuel k) lines start stop top closing e n flow) := by
  obtain ⟨hcontinues, hguard, hcode⟩ := guard_code_elseThenIf hb hmore k
  have hnumber : b.header.number = h.number := by
    rw [hb]
    rfl
  rw [linesFrom_branch k start top n hlayout (.inr hcontinues) hbs, hguard, hcode, hnumber, Run.marked_pure,
    pure_bind, if_pos rfl]

end Spellings

/-- The lines of a conditional before the branch that comes after `bs`. -/
def Chain.leading (chain : Chain) (bs : List Branch) : List Line := (chain.first :: bs).flatMap Branch.lines

theorem Branch.shut_lines {b : Branch} (hkind : b.header.kind ≠ .act) : Block.Shut b.lines :=
  .cons (fun _ hact => absurd hact hkind) (.of_closed b.nested.closed rfl)

theorem Chain.shut_leading (chain : Chain) {bs : List Branch} (hbs : ∀ b ∈ bs, b.Continues) :
    Block.Shut (chain.leading bs) := by
  have hothers : Block.Shut (bs.flatMap Branch.lines) := .of_closed (closed_branches hbs) rfl
  refine (Branch.shut_lines ?_).append hothers
  rw [chain.opens.1]
  nofun

theorem Chain.length_lines {chain : Chain} {bs bs' : List Branch} {b : Branch}
    (hothers : chain.others = bs ++ b :: bs') :
    chain.lines.length
      = (chain.leading bs).length + (b.lines.length + (bs'.flatMap Branch.lines).length) + 1 := by
  unfold Chain.lines Chain.branches Chain.leading
  rw [hothers]
  simp only [List.flatMap_cons, List.flatMap_append, List.length_append, List.length_singleton]
  omega

/-- The lines around the header of a branch. -/
theorem Chain.lines_eq {chain : Chain} {bs bs' : List Branch} {b : Branch}
    (hothers : chain.others = bs ++ b :: bs') (before after : List Line) :
    before ++ chain.lines ++ after
      = (before ++ chain.leading bs)
          ++ b.header :: (b.body ++ (bs'.flatMap Branch.lines ++ chain.closing :: after)) := by
  unfold Chain.lines Chain.branches Chain.leading
  rw [hothers]
  simp [Branch.lines]

/-- The same lines with another header stand in the same order. -/
theorem Chain.layout_replace {chain : Chain} {bs bs' : List Branch} {b : Branch}
    (hothers : chain.others = bs ++ b :: bs') (header : Line) (before after : List Line) {stop : Nat}
    (hstop : before.length + chain.lines.length ≤ stop) :
    Layout ((before ++ chain.leading bs)
        ++ header :: (b.body ++ (bs'.flatMap Branch.lines ++ chain.closing :: after)))
      (before ++ chain.leading bs) ({ b with header } :: bs') chain.closing
      (before.length + chain.lines.length - 1) stop where
  lines_eq := ⟨after, by simp [Branch.lines]⟩
  end_eq := by
    have hlength := Chain.length_lines hothers
    rw [List.flatMap_cons, List.length_append, List.length_append]
    show _ = _ + (b.lines.length + _)
    omega
  inside := by
    have hlength := Chain.length_lines hothers
    omega
  kind := chain.closes.1
  single := chain.closes.2

/-- **`ELSE IF` is `ELSEIF`, if the code of the branch is on the next lines.** With the header of any
branch of a conditional written so, a range with the conditional in it runs as before, wherever it starts
and stops: it takes the same branches, with the same result or error and in the end the same machine.

A header with its code on its line is not joined. It is an `ELSE` then, so no branch after it is reached,
and its code is the conditional on one line. Unless that has an `ELSE` of its own, it evaluates the
condition of the branch and runs the code of the branch, in one more group. -/
theorem lines_elseThenIf (before after : List Line) (chain : Chain) (bs bs' : List Branch) (b : Branch)
    (h : Heading) (gap : Gap) (hshut : Block.Shut before) (hothers : chain.others = bs ++ b :: bs')
    (hb : b.header = h.elseIf) :
    let i := (before ++ chain.leading bs).length
    let lines := before ++ chain.lines ++ after
    let lines' := lines.set i (h.elseThenIf gap)
    (b.header.isMultiline = true → ∀ k start stop top,
      (Calls.ofFuel k).lines lines' start stop top = (Calls.ofFuel k).lines lines start stop top) ∧
    (b.header.isMultiline = false → ∀ k n start stop top, before.length + chain.lines.length ≤ stop →
      linesFrom (Calls.ofFuel k) lines' start stop top (n + 1) i = (do
        Run.modify fun m => { m with site.line := h.number }
        let flow ← ((Calls.ofFuel k).statements h.ifThen 0 h.ifThen.statements.length).grouped.marked
        afterBranch (Calls.ofFuel k) lines' start stop top chain.closing
          (before.length + chain.lines.length - 1) n flow)) ∧
    (b.header.isMultiline = false → Block.inlineElse? 0 1 (h.ifThen.statements.drop 1) = none → ∀ k,
      (Calls.ofFuel (k + 1)).statements h.ifThen 0 h.ifThen.statements.length = (do
        if ← b.guard (Calls.ofFuel k) then (b.code (Calls.ofFuel k)).grouped else return .next)) := by
  intro i lines lines'
  have hcont : b.Continues := chain.continues b (by rw [hothers]; simp)
  have hbs (x : Branch) (hx : x ∈ bs) : x.Continues := chain.continues x (by rw [hothers]; simp [hx])
  have hbs' (x : Branch) (hx : x ∈ bs') : x.Continues := chain.continues x (by rw [hothers]; simp [hx])
  have hlines : lines = _ := Chain.lines_eq hothers before after
  have hlines' : lines' = (before ++ chain.leading bs)
      ++ h.elseThenIf gap :: (b.body ++ (bs'.flatMap Branch.lines ++ chain.closing :: after)) := by
    show lines.set i _ = _
    rw [hlines, List.set_append_right _ _ (Nat.le_refl i), Nat.sub_self, List.set_cons_zero]
  refine ⟨fun hmulti k start stop top => ?_, fun hinline k n start stop top hstop => ?_,
    fun hinline hown k => statements_ifThen_eq hb hcont hinline hown k⟩
  · rw [hlines, hlines', hb]
    rw [hb] at hmulti
    rw [Calls.ofFuel_lines_replace (hshut.append (chain.shut_leading hbs)) (sameBranch_elseThenIf hmulti gap)]
  · have hmore := one_lt_length_of_continues hb hcont hinline
    have hlayout := Chain.layout_replace hothers (h.elseThenIf gap) before after hstop
    rw [← hlines'] at hlayout
    exact linesFrom_elseThenIf rfl hmore hlayout hbs' k n start top

/-- A branch with its code on the next line and one with its code on the same line. -/
theorem lines_elseThenIf_sample :
    let source := "IF A:\n*P 1\nELSEIF B:\n*P 2\nELSEIF C: *P 3\nEND"
    let alone := Line.scan "IF C: *P 3".toList 5
    ∃ chain : Chain, chain.lines = Line.ofSource source.toList ∧
      (let lines' := ([] ++ chain.lines ++ []).set 2 (Line.scan "ELSE IF B:".toList 3)
        ∀ k, (Calls.ofFuel k).lines lines' 0 6 true
          = (Calls.ofFuel k).lines ([] ++ chain.lines ++ []) 0 6 true) ∧
      (let lines' := ([] ++ chain.lines ++ []).set 4 (Line.scan "ELSE IF C: *P 3".toList 5)
        ∀ k n, linesFrom (Calls.ofFuel k) lines' 0 6 true (n + 1) 4 = (do
          Run.modify fun m => { m with site.line := 5 }
          let flow ← ((Calls.ofFuel k).statements alone 0 alone.statements.length).grouped.marked
          afterBranch (Calls.ofFuel k) lines' 0 6 true chain.closing 5 n flow)) ∧
      ∃ b ∈ chain.others, b.header = Line.scan "ELSEIF C: *P 3".toList 5 ∧
        ∀ k, (Calls.ofFuel (k + 1)).statements alone 0 alone.statements.length = (do
          if ← b.guard (Calls.ofFuel k) then (b.code (Calls.ofFuel k)).grouped else return .next) := by
  intro source alone
  let line (text : String) (number : Nat) : Line := Line.scan text.toList number
  have hsource : [line "IF A:" 1, line "*P 1" 2, line "ELSEIF B:" 3, line "*P 2" 4, line "ELSEIF C: *P 3" 5,
      line "END" 6] = Line.ofSource source.toList := by decide +kernel
  have hplain (text : String) (number : Nat) (h : Block.role (line text number) = .plain) :
      Block.Nested ([line text number].map Block.role) := by
    rw [List.map_singleton, h]
    exact .plain .nil
  have hif : (line "IF A:" 1).kind = .ifThen ∧ (line "IF A:" 1).isMultiline = true := by decide +kernel
  have hmulti : (line "ELSEIF B:" 3).kind = .elseIf ∧ (line "ELSEIF B:" 3).isMultiline = true := by
    decide +kernel
  have hinline : (line "ELSEIF C: *P 3" 5).kind = .elseIf ∧
      ∀ s ∈ (line "ELSEIF C: *P 3" 5).statements.head?, (line "ELSEIF C: *P 3" 5).hasColon s = true := by
    decide +kernel
  have hend : (line "END" 6).kind = .endBlock ∧ (line "END" 6).isMultiline = false := by decide +kernel
  let second : Branch :=
    { header := line "ELSEIF B:" 3, body := [line "*P 2" 4], nested := hplain _ _ (by decide +kernel) }
  let third : Branch := { header := line "ELSEIF C: *P 3" 5, body := [], nested := .nil }
  let chain : Chain :=
    { first := { header := line "IF A:" 1, body := [line "*P 1" 2], nested := hplain _ _ (by decide +kernel) }
      others := [second, third]
      closing := line "END" 6
      opens := hif
      continues := List.forall_mem_cons.mpr ⟨.inr ⟨hmulti.1, .inl hmulti.2⟩,
        List.forall_mem_singleton.mpr (.inr ⟨hinline.1, .inr hinline.2⟩)⟩
      closes := hend }
  let gap : Gap := ⟨[' '], nofun, List.forall_mem_singleton.mpr rfl⟩
  let b : Heading := ⟨" B:".toList, 3, rfl⟩
  let c : Heading := ⟨" C: *P 3".toList, 5, rfl⟩
  have hb := lines_elseThenIf [] [] chain [] [third] second b gap .nil rfl rfl
  have hc := lines_elseThenIf [] [] chain [second] [] third c gap .nil rfl rfl
  have hsingle : third.header.isMultiline = false := by decide +kernel
  have hown : Block.inlineElse? 0 1 (c.ifThen.statements.drop 1) = none := by decide +kernel
  exact ⟨chain, hsource, fun k => hb.1 hmulti.2 k 0 6 true,
    fun k n => hc.2.1 hsingle k n 0 6 true (Nat.le_refl 6),
    third, List.mem_cons_of_mem _ List.mem_cons_self, rfl, hc.2.2 hsingle hown⟩

/-- A branch that is written `ELSE IF` with its code behind it hides the branches after it, and an `ELSE`
behind it becomes its own. -/
theorem run_elseThenIf_inline :
    let number (code name : String) := ((Engine.new {} {}).run code).2.machine.vars.getAt ⟨name, .number⟩ 0
    number "IF 0:\nX = 1\nELSEIF 0: X = 2\nELSE\nX = 3\nEND" "X" = .number 3 ∧
      number "IF 0:\nX = 1\nELSE IF 0: X = 2\nELSE\nX = 3\nEND" "X" = .number 0 ∧
      number "IF 0:\nX = 1\nELSEIF 1: X = 2 ELSE Y = 3\nEND" "Y" = .number 3 ∧
      number "IF 0:\nX = 1\nELSE IF 1: X = 2 ELSE Y = 3\nEND" "Y" = .number 0 := by
  decide +kernel

end Machine

end QuestScript
