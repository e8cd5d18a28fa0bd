import QuestScript.Proofs.Block.Range

/-!
# Conditionals over several lines

A conditional is an `IF` with its code on the lines below, any number of branches, and an `END`. Its
branches are found one by one, by searches that count the blocks they pass (`Block.endFrom?`,
`Block.elseFrom?`), and the cursor is moved from header to header. `linesFrom_chain` says that this is
the run one expects (`Chain.run`): the conditions are evaluated in order until one is true, the code of
that branch alone is run in a group of its own, and then the run goes on after the `END`.
-/

namespace QuestScript

/-! ## Searches over nested blocks -/

namespace Block

/-- The roles of lines of which every block is closed and none is an `END` or a branch of the block
they stand in. -/
inductive Nested : List Role → Prop
  | nil : Nested []
  | plain {rs : List Role} (rest : Nested rs) : Nested (.plain :: rs)
  | block {bs rs : List Role} (body : Closed bs) (rest : Nested rs) :
      Nested (.opening :: (bs ++ .closing :: rs))

theorem Nested.closed {rs : List Role} (h : Nested rs) : Closed rs := by
  induction h with
  | nil => exact .nil
  | plain _ ih => exact .line nofun nofun ih
  | block hbody _ ih => exact .block hbody ih

theorem Closed.append {rs qs : List Role} (h : Closed rs) (hq : Closed qs) : Closed (rs ++ qs) := by
  induction h with
  | nil => exact hq
  | line hopening hclosing _ ih => exact .line hopening hclosing ih
  | block hbody _ _ ih =>
    rw [List.cons_append, List.append_assoc, List.cons_append]
    exact .block hbody ih

theorem elseFrom?_opening {l : Line} (h : role l = .opening) (depth index : Nat) (ls : List Line) :
    elseFrom? depth index (l :: ls) = elseFrom? (depth + 1) (index + 1) ls := by
  rw [elseFrom?.eq_def]
  simp only [h]

theorem elseFrom?_closing {l : Line} (h : role l = .closing) (depth index : Nat) (ls : List Line) :
    elseFrom? (depth + 1) index (l :: ls) = elseFrom? depth (index + 1) ls := by
  rw [elseFrom?.eq_def]
  simp only [h]

/-- Inside a block no branch is the one that is looked for. -/
theorem passesBlocks_elseFrom? : PassesBlocks fun depth => elseFrom? (depth + 1) where
  opening h depth := elseFrom?_opening h (depth + 1)
  closing h depth := elseFrom?_closing h (depth + 1)
  line hopening hclosing depth index ls := by
    rw [elseFrom?.eq_def]
    dsimp only
    split
    · next h => exact absurd h hopening
    · rfl
    · next h => exact absurd h hclosing
    · rfl

/-- The search for a branch passes over the blocks inside. -/
theorem elseFrom?_of_closed {rs : List Role} (h : Closed rs) {ls : List Line}
    (hls : ls.map role = rs) (depth index : Nat) (rest : List Line) :
    elseFrom? (depth + 1) index (ls ++ rest) = elseFrom? (depth + 1) (index + ls.length) rest :=
  passesBlocks_elseFrom?.of_closed h hls depth index rest

/-- The search for a branch passes over the lines of the branch before it. -/
theorem elseFrom?_of_nested {rs : List Role} (h : Nested rs) {ls : List Line}
    (hls : ls.map role = rs) (index : Nat) (rest : List Line) :
    elseFrom? 0 index (ls ++ rest) = elseFrom? 0 (index + ls.length) rest := by
  induction h generalizing ls index with
  | nil =>
    rw [List.map_eq_nil_iff.mp hls]
    rfl
  | plain _ ih =>
    obtain ⟨l, ls, rfl, hl, htail⟩ := List.map_eq_cons_iff.mp hls
    have hnext : elseFrom? 0 index (l :: (ls ++ rest)) = elseFrom? 0 (index + 1) (ls ++ rest) := by
      rw [elseFrom?.eq_def]
      simp only [hl]
    rw [List.cons_append, hnext, ih htail, List.length_cons, Nat.add_assoc, Nat.add_comm 1]
  | block hclosed _ ih =>
    obtain ⟨l, ls, rfl, hl, htail⟩ := List.map_eq_cons_iff.mp hls
    obtain ⟨body, ls, rfl, hbody, hclose⟩ := List.map_eq_append_iff.mp htail
    obtain ⟨e, after, rfl, he, hafter⟩ := List.map_eq_cons_iff.mp hclose
    rw [List.cons_append, elseFrom?_opening hl, List.append_assoc, elseFrom?_of_closed hclosed hbody,
      List.cons_append, elseFrom?_closing he, ih hafter]
    congr 1
    simp only [List.length_cons, List.length_append]
    omega

end Block

namespace Machine

/-! ## Branches -/

/-- A branch of a conditional: its header and the lines below it. -/
structure Branch where
  header : Line
  body : List Line
  nested : Block.Nested (body.map Block.role)

namespace Branch

def lines (b : Branch) : List Line := b.header :: b.body

/-- An `IF` with its code on the lines below. -/
def Opens (b : Branch) : Prop := b.header.kind = .ifThen ∧ b.header.isMultiline = true

/-- An `ELSE`, or an `ELSEIF` with its code on the lines below or behind a colon. -/
def Continues (b : Branch) : Prop :=
  b.header.kind = .otherwise ∨
    b.header.kind = .elseIf ∧
      (b.header.isMultiline = true ∨ ∀ s ∈ b.header.statements.head?, b.header.hasColon s = true)

/-- Whether the code of a branch stands on the line of its header. -/
def isInline (b : Branch) : Bool :=
  match b.header.kind with
  | .otherwise => decide (1 < b.header.statements.length)
  | _ => !b.header.isMultiline

/-- Whether a branch is taken when it is reached: `ELSE` always is. -/
def guard (c : Calls) (b : Branch) : Run Bool :=
  match b.header.kind, b.header.statements with
  | .otherwise, _ => pure true
  | _, s :: _ => condition c b.header s
  | _, [] => pure false

/-- The code of a branch: the statements behind its header, or else the lines below it. -/
def code (c : Calls) (b : Branch) : Run Flow :=
  if b.isInline then c.statements b.header 1 b.header.statements.length
  else c.lines b.body 0 b.body.length false

end Branch

/-- A conditional over several lines. -/
structure Chain where
  first : Branch
  others : List Branch
  closing : Line
  opens : first.Opens
  continues : ∀ b ∈ others, b.Continues
  closes : closing.kind = .endBlock ∧ closing.isMultiline = false

namespace Chain

def branches (chain : Chain) : List Branch := chain.first :: chain.others

def lines (chain : Chain) : List Line := chain.branches.flatMap Branch.lines ++ [chain.closing]

end Chain

/-- Look at branches in order, one for each turn, and run the first one that is taken in a group of its
own. `goOn` is what comes after it. -/
def follow (c : Calls) (goOn : Nat → Flow → Run Flow) : List Branch → Nat → Run Flow
  | [], n => goOn n .next
  | _ :: _, 0 => fun _ => .outOfFuel
  | b :: bs, n + 1 => do
    Run.modify fun m => { m with site.line := b.header.number }
    if ← (b.guard c).marked then goOn n (← (b.code c).grouped.marked)
    else follow c goOn bs n

/-- What comes after the `END` at line `e`: the statements behind it, and then the next line. -/
def afterEnd (c : Calls) (lines : List Line) (start stop : Nat) (top : Bool) (closing : Line) (e : Nat) :
    Nat → Run Flow
  | 0 => fun _ => .outOfFuel
  | n + 1 => do
    Run.modify fun m => { m with site.line := closing.number }
    let flow ← (c.statements closing 1 closing.statements.length).marked
    afterLine c lines start stop top n (Cursor.after (e + 1) flow)

/-- Where the range goes on after a branch: after the `END` if the branch ends normally, and otherwise
it is left as after any other line. -/
def afterBranch (c : Calls) (lines : List Line) (start stop : Nat) (top : Bool) (closing : Line) (e : Nat)
    (n : Nat) : Flow → Run Flow
  | .next => afterEnd c lines start stop top closing e n
  | flow => afterLine c lines start stop top n (.leave flow)

/-- The run of a conditional whose first line is number `i` of the lines. -/
def Chain.run (c : Calls) (lines : List Line) (start stop : Nat) (top : Bool) (n i : Nat) (chain : Chain) :
    Run Flow :=
  follow c (afterBranch c lines start stop top chain.closing (i + chain.lines.length - 1))
    chain.branches n

/-! ## The searches in a conditional -/

theorem Branch.role_header {b : Branch} (h : b.Continues) : Block.role b.header = .branch := by
  unfold Block.role
  rcases h with h | ⟨h, -⟩
  · simp only [h, StatementKind.opensBlock, Bool.and_false, Bool.false_eq_true, if_false]
  · simp only [h, StatementKind.opensBlock, Bool.and_false, Bool.false_eq_true, if_false]

theorem closed_branches {bs : List Branch} (h : ∀ b ∈ bs, b.Continues) :
    Block.Closed ((bs.flatMap Branch.lines).map Block.role) := by
  induction bs with
  | nil => exact .nil
  | cons b bs ih =>
    have hrole := Branch.role_header (h b List.mem_cons_self)
    have hrest := ih fun b' hb' => h b' (List.mem_cons_of_mem _ hb')
    rw [List.flatMap_cons, List.map_append]
    refine Block.Closed.append ?_ hrest
    show Block.Closed (Block.role b.header :: b.body.map Block.role)
    rw [hrole]
    exact .line nofun nofun b.nested.closed

/-- Branches stand in `lines` right after `before`, and then the `END`, which is line `e` and comes
before `stop`. -/
structure Layout (lines before : List Line) (bs : List Branch) (closing : Line) (e stop : Nat) : Prop where
  lines_eq : ∃ after, lines = before ++ (bs.flatMap Branch.lines ++ closing :: after)
  end_eq : e = before.length + (bs.flatMap Branch.lines).length
  inside : e < stop
  kind : closing.kind = .endBlock
  single : closing.isMultiline = false

namespace Layout

variable {lines before : List Line} {b : Branch} {bs : List Branch} {closing : Line} {e stop : Nat}

/-- The same lines, seen from the next branch. -/
theorem next (h : Layout lines before (b :: bs) closing e stop) :
    Layout lines (before ++ b.lines) bs closing e stop where
  lines_eq := by
    obtain ⟨after, hlines⟩ := h.lines_eq
    refine ⟨after, ?_⟩
    rw [hlines, List.flatMap_cons]
    simp only [List.append_assoc]
  end_eq := by
    rw [h.end_eq, List.flatMap_cons, List.length_append, List.length_append, Nat.add_assoc]
  inside := h.inside
  kind := h.kind
  single := h.single

theorem getElem?_header (h : Layout lines before (b :: bs) closing e stop) :
    lines[before.length]? = some b.header := by
  obtain ⟨after, rfl⟩ := h.lines_eq
  rw [List.getElem?_append_right (Nat.le_refl _), Nat.sub_self]
  rfl

theorem getElem?_closing (h : Layout lines before bs closing e stop) : lines[e]? = some closing := by
  obtain ⟨after, rfl⟩ := h.lines_eq
  rw [h.end_eq, List.getElem?_append_right (Nat.le_add_right _ _), Nat.add_sub_cancel_left,
    List.getElem?_append_right (Nat.le_refl _), Nat.sub_self]
  rfl

theorem header_lt (h : Layout lines before (b :: bs) closing e stop) : before.length < stop := by
  have := h.end_eq
  have := h.inside
  omega

/-- The `END` that a branch finds is that of the conditional. -/
theorem blockEnd_eq (h : Layout lines before (b :: bs) closing e stop) (hbs : ∀ b ∈ bs, b.Continues) :
    blockEnd lines before.length stop = pure e := by
  obtain ⟨after, hlines⟩ := h.lines_eq
  have hrole : Block.role closing = .closing := by
    unfold Block.role
    simp only [h.kind, StatementKind.opensBlock, Bool.and_false, Bool.false_eq_true, if_false]
  have hclosed := b.nested.closed.append (closed_branches hbs)
  rw [← List.map_append] at hclosed
  have hcons : (b :: bs).flatMap Branch.lines = b.header :: (b.body ++ bs.flatMap Branch.lines) := rfl
  have he := h.end_eq
  rw [hcons] at hlines he
  -- to the search for the `END`, headers of branches are lines like others
  generalize b.body ++ bs.flatMap Branch.lines = ls at hlines he hclosed
  rw [List.length_cons] at he
  obtain ⟨k, hk⟩ : ∃ k, stop - (before.length + 1) - ls.length = k + 1 :=
    ⟨stop - (before.length + 1) - ls.length - 1, by have := h.inside; omega⟩
  have hrange : Block.range lines (before.length + 1) stop = ls ++ closing :: after.take k := by
    unfold Block.range
    rw [hlines, List.drop_take, List.drop_length_add_append, List.cons_append, List.drop_succ_cons,
      List.drop_zero, List.take_append, List.take_of_length_le (by omega), hk, List.take_succ_cons]
  have hfound (index : Nat) : Block.endFrom? 0 index (closing :: after.take k) = some index := by
    rw [Block.endFrom?.eq_def]
    simp only [hrole]
  unfold blockEnd Block.end?
  rw [hrange, Block.endFrom?_of_closed hclosed rfl, hfound, he, Nat.add_assoc, Nat.add_comm 1]

/-- A branch goes on at the next one, or else at the `END`. -/
theorem else?_eq (h : Layout lines before (b :: bs) closing e stop) (hbs : ∀ b ∈ bs, b.Continues) :
    (Block.else? lines (before.length + 1) e).getD e = before.length + b.lines.length := by
  have hrange : Block.range lines (before.length + 1) e = b.body ++ bs.flatMap Branch.lines := by
    obtain ⟨after, rfl⟩ := h.lines_eq
    unfold Block.range
    rw [h.end_eq, List.take_length_add_append, List.drop_length_add_append, List.take_left]
    rfl
  unfold Block.else?
  rw [hrange, Block.elseFrom?_of_nested b.nested rfl]
  cases bs with
  | nil =>
    rw [h.end_eq]
    simp [Block.elseFrom?]
  | cons b' bs =>
    have hrole := Branch.role_header (hbs b' List.mem_cons_self)
    rw [List.flatMap_cons, Branch.lines, List.cons_append, Block.elseFrom?.eq_def]
    simp only [hrole, Branch.lines, List.length_cons]
    show before.length + 1 + b.body.length = _
    omega

/-- The lines below a header are run as they would be on their own. -/
theorem lines_body (h : Layout lines before (b :: bs) closing e stop) (k : Nat) :
    (Calls.ofFuel k).lines lines (before.length + 1) (before.length + b.lines.length) false
      = (Calls.ofFuel k).lines b.body 0 b.body.length false := by
  obtain ⟨after, hlines⟩ := h.next.lines_eq
  have hexcerpt := Calls.ofFuel_lines_excerpt (before ++ [b.header]) b.body
    (bs.flatMap Branch.lines ++ closing :: after) k 0 b.body.length false (Nat.le_refl _)
  rw [List.length_append, List.length_singleton, Nat.add_zero, Nat.add_assoc, Nat.add_comm 1] at hexcerpt
  rw [← hexcerpt, hlines]
  simp [Branch.lines]

end Layout

/-! ## A branch runs -/

/-- A line of a kind has a statement of that kind. -/
theorem exists_statement {line : Line} {kind : StatementKind} (h : line.kind = kind) (hkind : kind ≠ .unknown) :
    ∃ s rest, line.statements = s :: rest ∧ s.kind = kind := by
  unfold Line.kind at h
  split at h
  · next s rest hs => exact ⟨s, rest, hs, h⟩
  · exact absurd h.symm hkind

/-- What the header of a branch does, given what its searches find. -/
theorem runLine_branch {c : Calls} {lines : List Line} {i stop e next : Nat} {b : Branch}
    (hb : b.Opens ∨ b.Continues) (hend : blockEnd lines i stop = pure e)
    (helse : (Block.else? lines (i + 1) e).getD e = next)
    (hlines : c.lines lines (i + 1) next false = c.lines b.body 0 b.body.length false) :
    runLine c lines i stop b.header = (do
      if ← b.guard c then return Cursor.after e (← (b.code c).grouped) else return .line next) := by
  -- an `IF`, an `ELSE` and an `ELSEIF` are run by different rules
  rcases hb with ⟨hkind, hmulti⟩ | hkind | ⟨hkind, hform⟩
  · obtain ⟨s, rest, hs, -⟩ := exists_statement hkind nofun
    unfold runLine runHeader Branch.guard Branch.code Branch.isInline
    rw [if_pos hmulti, hend, pure_bind]
    simp only [hkind, hs, hmulti, helse, hlines, Bool.not_true, Bool.false_eq_true, if_false]
  · have hsingle : runSingle c lines i stop b.header = (do
        return Cursor.after e (← (b.code c).grouped)) := by
      unfold runSingle Branch.code Branch.isInline
      rw [hend]
      simp only [hkind, pure_bind, helse, hlines, decide_eq_true_eq]
      split
      · rfl
      · rfl
    have hguard : b.guard c = pure true := by
      unfold Branch.guard
      rw [hkind]
    rw [hguard, pure_bind, if_pos rfl, ← hsingle]
    unfold runLine runHeader
    rw [hend]
    simp only [hkind, pure_bind, ite_self]
  · obtain ⟨s, rest, hs, -⟩ := exists_statement hkind nofun
    unfold runLine runHeader runSingle Branch.guard Branch.code Branch.isInline requireColon
    rw [hend]
    cases hmulti : b.header.isMultiline with
    | true =>
      simp only [hkind, hs, pure_bind, helse, hlines, if_true, Bool.not_true, Bool.false_eq_true, if_false]
    | false =>
      have hcolon : b.header.hasColon s = true := by
        rcases hform with h | h
        · rw [hmulti] at h
          cases h
        · exact h s (by rw [hs]; rfl)
      simp only [hkind, hs, hcolon, pure_bind, helse, if_true, Bool.not_false, Bool.false_eq_true,
        if_false]

/-- An `END` does nothing itself. -/
theorem statements_endBlock {closing : Line} (h : closing.kind = .endBlock) (k : Nat) :
    (Calls.ofFuel k).statements closing 0 closing.statements.length
      = (Calls.ofFuel k).statements closing 1 closing.statements.length := by
  obtain ⟨s, rest, hs, hkind⟩ := exists_statement h nofun
  cases k with
  | zero => rfl
  | succ k =>
    show runStatements _ _ _ _ = runStatements _ _ _ _
    unfold runStatements
    dsimp only
    rw [Nat.min_self, hs, List.take_length, List.drop_zero, List.drop_succ_cons, List.drop_zero,
      statementsFrom.eq_def]
    simp only [hkind, runSimple, pure_bind]

/-! ## Conditionals run their first true branch -/

section Run

variable {lines before : List Line} {b : Branch} {bs : List Branch} {closing : Line} {e stop : Nat}
variable (k start : Nat) (top : Bool) (n : Nat)

/-- The range goes on after an `END` with what stands behind it. -/
theorem linesFrom_closing (h : Layout lines before bs closing e stop) :
    linesFrom (Calls.ofFuel k) lines start stop top n e
      = afterEnd (Calls.ofFuel k) lines start stop top closing e n := by
  cases n with
  | zero => rfl
  | succ n =>
    have hline : runLine (Calls.ofFuel k) lines e stop closing = (do
        return Cursor.after (e + 1)
          (← (Calls.ofFuel k).statements closing 1 closing.statements.length)) := by
      unfold runLine runSingle
      rw [h.single, if_neg Bool.false_ne_true, ← statements_endBlock h.kind k]
      simp only [h.kind]
    rw [linesFrom_succ, if_neg (Nat.not_le.mpr h.inside), h.getElem?_closing]
    simp only [hline, afterEnd, Run.marked_bind, Run.marked_pure, bind_assoc, pure_bind]

/-- The range goes on after a branch at its `END`, or leaves. -/
theorem afterLine_after (h : Layout lines before bs closing e stop) (flow : Flow) :
    afterLine (Calls.ofFuel k) lines start stop top n (Cursor.after e flow)
      = afterBranch (Calls.ofFuel k) lines start stop top closing e n flow := by
  cases flow with
  | next => exact linesFrom_closing k start top n h
  | exit => rfl
  | jump label => rfl

/-- One step of a conditional: a branch is taken, or the next line is that of the next branch. -/
theorem linesFrom_branch (h : Layout lines before (b :: bs) closing e stop)
    (hb : b.Opens ∨ b.Continues) (hbs : ∀ b ∈ bs, b.Continues) :
    linesFrom (Calls.ofFuel k) lines start stop top (n + 1) before.length = (do
      Run.modify fun m => { m with site.line := b.header.number }
      if ← (b.guard (Calls.ofFuel k)).marked then
        afterBranch (Calls.ofFuel k) lines start stop top closing e n
          (← (b.code (Calls.ofFuel k)).grouped.marked)
      else linesFrom (Calls.ofFuel k) lines start stop top n (before ++ b.lines).length) := by
  rw [linesFrom_succ, if_neg (Nat.not_le.mpr h.header_lt), h.getElem?_header]
  simp only [runLine_branch hb (h.blockEnd_eq hbs) (h.else?_eq hbs) (h.lines_body k), Run.marked_bind,
    bind_assoc]
  congr 1
  funext _
  congr 1
  funext taken
  cases taken with
  | true =>
    simp only [if_true, Run.marked_bind, Run.marked_pure, bind_assoc, pure_bind,
      afterLine_after k start top n h]
  | false =>
    rw [List.length_append]
    rfl

/-- From the header of a branch on, the lines run as the branches do. -/
theorem linesFrom_branches (h : Layout lines before bs closing e stop)
    (hb : ∀ b ∈ bs.head?, b.Opens ∨ b.Continues) (hbs : ∀ b ∈ bs.tail, b.Continues) :
    linesFrom (Calls.ofFuel k) lines start stop top n before.length
      = follow (Calls.ofFuel k) (afterBranch (Calls.ofFuel k) lines start stop top closing e) bs n := by
  induction bs generalizing before n with
  | nil =>
    have he : before.length = e := h.end_eq.symm
    rw [he]
    exact linesFrom_closing k start top n h
  | cons b bs ih =>
    cases n with
    | zero => rfl
    | succ n =>
      rw [linesFrom_branch k start top n h (hb b rfl) hbs, follow]
      rw [ih n h.next (fun b' hb' => .inr (hbs b' (List.mem_of_mem_head? hb')))
        fun b' hb' => hbs b' (List.mem_of_mem_tail hb')]

end Run

/-- **A conditional runs exactly its first true branch.** Wherever it stands in a range, its conditions
are evaluated in order until one is true, and the code of that branch alone is run in a group of its own;
then the range goes on after the `END`, or leaves with the flow or the error of the branch. -/
theorem linesFrom_chain (k n : Nat) (before after : List Line) (chain : Chain) (start stop : Nat) (top : Bool)
    (hstop : before.length + chain.lines.length ≤ stop) :
    linesFrom (Calls.ofFuel k) (before ++ chain.lines ++ after) start stop top n before.length
      = chain.run (Calls.ofFuel k) (before ++ chain.lines ++ after) start stop top n before.length := by
  have hlength : chain.lines.length = (chain.branches.flatMap Branch.lines).length + 1 := by
    rw [Chain.lines, List.length_append, List.length_singleton]
  have hlayout : Layout (before ++ chain.lines ++ after) before chain.branches chain.closing
      (before.length + chain.lines.length - 1) stop :=
    { lines_eq := ⟨after, by simp [Chain.lines]⟩
      end_eq := by omega
      inside := by omega
      kind := chain.closes.1
      single := chain.closes.2 }
  refine linesFrom_branches k start top n hlayout ?_ chain.continues
  rintro _ ⟨⟩
  exact .inl chain.opens

/-- A conditional with another one in its first branch, an `ELSEIF` on one line and an `ELSE`. -/
theorem linesFrom_chain_sample :
    let source := "IF A:\nIF B:\n*P 1\nELSE\n*P 2\nEND\nELSEIF C: *P 3\nELSE\n*P 4\nEND"
    ∃ chain : Chain, chain.lines = Line.ofSource source.toList ∧
      ∀ k n, linesFrom (Calls.ofFuel k) ([] ++ chain.lines ++ []) 0 10 true n 0
        = chain.run (Calls.ofFuel k) ([] ++ chain.lines ++ []) 0 10 true n 0 := by
  intro source
  let line (text : String) (number : Nat) : Line := Line.scan text.toList number
  let inner := [line "IF B:" 2, line "*P 1" 3, line "ELSE" 4, line "*P 2" 5, line "END" 6]
  have hsource : line "IF A:" 1 :: (inner ++ [line "ELSEIF C: *P 3" 7, line "ELSE" 8, line "*P 4" 9,
      line "END" 10]) = Line.ofSource source.toList := by decide +kernel
  have hinner : inner.map Block.role = .opening :: ([.plain, .branch, .plain] ++ .closing :: []) := by
    decide +kernel
  have hlast : [line "*P 4" 9].map Block.role = [.plain] := by decide +kernel
  have hif : (line "IF A:" 1).kind = .ifThen ∧ (line "IF A:" 1).isMultiline = true := by decide +kernel
  have helseIf : (line "ELSEIF C: *P 3" 7).kind = .elseIf ∧
      ∀ s ∈ (line "ELSEIF C: *P 3" 7).statements.head?, (line "ELSEIF C: *P 3" 7).hasColon s = true := by
    decide +kernel
  have helse : (line "ELSE" 8).kind = .otherwise := by decide +kernel
  have hend : (line "END" 10).kind = .endBlock ∧ (line "END" 10).isMultiline = false := by decide +kernel
  let chain : Chain :=
    { first :=
        { header := line "IF A:" 1
          body := inner
          nested := hinner ▸ .block (.line nofun nofun (.line nofun nofun (.line nofun nofun .nil))) .nil }
      others :=
        [{ header := line "ELSEIF C: *P 3" 7, body := [], nested := .nil },
          { header := line "ELSE" 8, body := [line "*P 4" 9], nested := hlast ▸ .plain .nil }]
      closing := line "END" 10
      opens := hif
      continues := List.forall_mem_cons.mpr
        ⟨.inr ⟨helseIf.1, .inr helseIf.2⟩, List.forall_mem_singleton.mpr (.inl helse)⟩
      closes := hend }
  exact ⟨chain, hsource, fun k n => linesFrom_chain k n [] [] chain 0 10 true (Nat.le_refl 10)⟩

end Machine

end QuestScript
