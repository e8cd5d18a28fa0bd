import QuestScript.Proofs.Block.Conditional

/-!
# The searches find what belongs to a block

Code in which blocks nest as they should is a tree, a `Passage`: statements on one line, blocks over
several lines, each with a passage below its header and an `END`, and in an `IF` the lines that begin its
branches. The searches see the lines of the tree only (`Passage.lines`). They tell by counting which
`END` and which branches belong to the block they were started in.

The tree knows where its blocks stand, with their branches and their `END` (`Passage.blocks`), and
`search_blocks` says that the searches find these.
-/

namespace QuestScript.Block

/-! ## Passages -/

/-- A line that is run where it stands: a statement, or several, also an `IF` with its code behind its
colon. -/
def IsSingle (l : Line) : Prop :=
  l.isMultiline = false ∧ l.kind ≠ .endBlock ∧ l.kind ≠ .otherwise ∧ l.kind ≠ .elseIf

/-- A line that begins a branch of an `IF`, with its code behind it or below. -/
def IsBranch (l : Line) : Prop := l.kind = .otherwise ∨ l.kind = .elseIf

/-- The header of a block over several lines: of an `IF`, which may have branches, or of another one. -/
def IsHeader (branched : Bool) (l : Line) : Prop :=
  l.isMultiline = true ∧ if branched then l.kind = .ifThen else l.kind ∈ [.act, .loop, .forTo]

instance (l : Line) : Decidable (IsSingle l) := inferInstanceAs (Decidable (_ ∧ _))

instance (l : Line) : Decidable (IsBranch l) := inferInstanceAs (Decidable (_ ∨ _))

instance (branched : Bool) (l : Line) : Decidable (IsHeader branched l) :=
  match branched with
  | true => inferInstanceAs (Decidable (l.isMultiline = true ∧ l.kind = .ifThen))
  | false => inferInstanceAs (Decidable (l.isMultiline = true ∧ l.kind ∈ [StatementKind.act, .loop, .forTo]))

/-- Lines of which every block has an `END` of its own. The index says whether branches of the block
around them may begin between them. -/
inductive Passage : Bool → Type
  | nil {branched : Bool} : Passage branched
  | single {branched : Bool} (line : Line) (single : IsSingle line) (rest : Passage branched) :
      Passage branched
  | branch (line : Line) (begins : IsBranch line) (rest : Passage true) : Passage true
  | block {branched : Bool} (inner : Bool) (header : Line) (opens : IsHeader inner header)
      (body : Passage inner) (closing : Line) (closes : closing.kind = .endBlock)
      (rest : Passage branched) : Passage branched

/-- A block that has been found: where its header stands, and the lines between that and its `END`. -/
structure Found where
  header : Nat
  branched : Bool
  body : Passage branched

namespace Passage

variable {branched : Bool}

def lines : {branched : Bool} → Passage branched → List Line
  | _, nil => []
  | _, single line _ rest => line :: rest.lines
  | _, branch line _ rest => line :: rest.lines
  | _, block _ header _ body closing _ rest => header :: (body.lines ++ closing :: rest.lines)

/-- Where the branches begin that belong to the block around the passage, whose first line has the number
`index`. -/
def branchesFrom (index : Nat) : {branched : Bool} → Passage branched → List Nat
  | _, nil => []
  | _, single _ _ rest => rest.branchesFrom (index + 1)
  | _, branch _ _ rest => index :: rest.branchesFrom (index + 1)
  | _, block _ _ _ body _ _ rest => rest.branchesFrom (index + body.lines.length + 2)

/-- The blocks of the passage, those inside of others too. -/
def blocksFrom (index : Nat) : {branched : Bool} → Passage branched → List Found
  | _, nil => []
  | _, single _ _ rest => rest.blocksFrom (index + 1)
  | _, branch _ _ rest => rest.blocksFrom (index + 1)
  | _, block inner _ _ body _ _ rest =>
    ⟨index, inner, body⟩ ::
      (body.blocksFrom (index + 1) ++ rest.blocksFrom (index + body.lines.length + 2))

def blocks (p : Passage branched) : List Found := p.blocksFrom 0

end Passage

namespace Found

/-- Where the `END` of the block stands. -/
def closing (f : Found) : Nat := f.header + f.body.lines.length + 1

/-- Where the branches of the block begin. -/
def branches (f : Found) : List Nat := f.body.branchesFrom (f.header + 1)

end Found

/-! ## Roles -/

variable {l : Line}

theorem IsSingle.role (h : IsSingle l) : role l = .plain := by
  obtain ⟨hmulti, hend, helse, helseIf⟩ := h
  unfold Block.role
  rw [hmulti, Bool.false_and, if_neg Bool.false_ne_true]
  split
  · contradiction
  · contradiction
  · contradiction
  · rfl

theorem IsBranch.role (h : IsBranch l) : role l = .branch := by
  unfold Block.role
  rcases h with h | h
  all_goals simp only [h, StatementKind.opensBlock, Bool.and_false, Bool.false_eq_true, if_false]

theorem IsHeader.role {branched : Bool} (h : IsHeader branched l) : role l = .opening := by
  obtain ⟨hmulti, hkind⟩ := h
  have hopens : l.kind.opensBlock = true := by
    cases branched with
    | true =>
      replace hkind : l.kind = .ifThen := hkind
      rw [hkind]
      rfl
    | false =>
      have hall : ∀ k ∈ [StatementKind.act, .loop, .forTo], k.opensBlock = true := by decide
      exact hall _ hkind
  unfold Block.role
  rw [hmulti, hopens]
  rfl

theorem role_of_endBlock (h : l.kind = .endBlock) : role l = .closing := by
  unfold role
  simp only [h, StatementKind.opensBlock, Bool.and_false, Bool.false_eq_true, if_false]

namespace Passage

variable {branched : Bool}

/-- To the search for an `END` a passage is closed. -/
theorem closed (p : Passage branched) : Closed (p.lines.map role) := by
  induction p with
  | nil => exact .nil
  | single line single _ ih =>
    rw [lines, List.map_cons, single.role]
    exact .line nofun nofun ih
  | branch line begins _ ih =>
    rw [lines, List.map_cons, begins.role]
    exact .line nofun nofun ih
  | block inner header opens body closing closes _ ihbody ihrest =>
    rw [lines, List.map_cons, List.map_append, List.map_cons, opens.role, role_of_endBlock closes]
    exact .block ihbody ihrest

/-! ## Branches -/

theorem le_of_mem_branchesFrom {p : Passage branched} {index i : Nat} (h : i ∈ p.branchesFrom index) :
    index ≤ i := by
  induction p generalizing index with
  | nil => cases h
  | single _ _ _ ih =>
    have := ih h
    omega
  | branch _ _ _ ih =>
    rcases List.mem_cons.mp h with rfl | h
    · exact Nat.le_refl _
    · have := ih h
      omega
  | block _ _ _ _ _ _ _ _ ih =>
    have := ih h
    omega

/-- A search that starts where a passage does finds its first branch. -/
theorem elseFrom?_lines (p : Passage branched) (index : Nat) :
    elseFrom? 0 index p.lines = (p.branchesFrom index).head? := by
  induction p generalizing index with
  | nil => rfl
  | single line single rest ih =>
    rw [lines, elseFrom?.eq_def]
    simp only [single.role]
    exact ih (index + 1)
  | branch line begins rest ih =>
    rw [lines, elseFrom?.eq_def]
    simp only [begins.role]
    rfl
  | block inner header opens body closing closes rest _ ih =>
    rw [lines, elseFrom?_opening opens.role, elseFrom?_of_closed body.closed rfl,
      elseFrom?_closing (role_of_endBlock closes), ih, branchesFrom]
    congr 2
    omega

/-- The first branch behind line `i`, if the passage has one. -/
theorem find?_branchesFrom_of_lt (p : Passage branched) {index i : Nat} (h : i < index) :
    (p.branchesFrom index).find? (i < ·) = (p.branchesFrom index).head? := by
  cases hp : p.branchesFrom index with
  | nil => rfl
  | cons j js =>
    have hj : index ≤ j := le_of_mem_branchesFrom (hp ▸ List.mem_cons_self)
    exact List.find?_cons_of_pos (decide_eq_true (Nat.lt_of_lt_of_le h hj))

/-- A search that starts behind a branch finds the next one. -/
theorem elseFrom?_drop (p : Passage branched) {index i : Nat} (h : i ∈ p.branchesFrom index) :
    elseFrom? 0 (i + 1) (p.lines.drop (i + 1 - index)) = (p.branchesFrom index).find? (i < ·) := by
  induction p generalizing index with
  | nil => cases h
  | single line single rest ih =>
    have hi := le_of_mem_branchesFrom (p := rest) h
    rw [lines, branchesFrom, ← ih h, show i + 1 - index = i + 1 - (index + 1) + 1 by omega,
      List.drop_succ_cons]
  | branch line begins rest ih =>
    rw [branchesFrom, List.mem_cons] at h
    rw [lines, branchesFrom]
    rcases h with rfl | h
    · rw [Nat.add_sub_cancel_left, List.drop_succ_cons, List.drop_zero, rest.elseFrom?_lines,
        List.find?_cons_of_neg (by simp), rest.find?_branchesFrom_of_lt (Nat.lt_succ_self i)]
    · have hi := le_of_mem_branchesFrom h
      rw [List.find?_cons_of_neg (by simp; omega), ← ih h,
        show i + 1 - index = i + 1 - (index + 1) + 1 by omega, List.drop_succ_cons]
  | block inner header opens body closing closes rest _ ih =>
    have hi := le_of_mem_branchesFrom (p := rest) h
    obtain ⟨k, hk⟩ := Nat.exists_eq_add_of_le hi
    rw [lines, branchesFrom, ← ih h, hk,
      show index + body.lines.length + 2 + k + 1 - index = body.lines.length + (k + 1 + 1) + 1 by omega,
      List.drop_succ_cons, List.drop_length_add_append, List.drop_succ_cons,
      show index + body.lines.length + 2 + k + 1 - (index + body.lines.length + 2) = k + 1 by omega]

/-! ## Blocks among the lines -/

/-- Where a block of a passage stands. -/
structure Stands (p : Passage branched) (index : Nat) (f : Found) (before : List Line) (header : Line)
    (closing : Line) (after : List Line) : Prop where
  lines_eq : p.lines = before ++ header :: (f.body.lines ++ closing :: after)
  header_eq : f.header = index + before.length
  opens : IsHeader f.branched header
  closes : closing.kind = .endBlock

theorem exists_stands {p : Passage branched} {index : Nat} {f : Found} (h : f ∈ p.blocksFrom index) :
    ∃ before header closing after, p.Stands index f before header closing after := by
  induction p generalizing index with
  | nil => cases h
  | single line _ _ ih | branch line _ _ ih =>
    obtain ⟨before, header, closing, after, hf⟩ := ih h
    refine ⟨line :: before, header, closing, after, ?_, ?_, hf.opens, hf.closes⟩
    · rw [lines, hf.lines_eq, List.cons_append]
    · rw [hf.header_eq, List.length_cons, Nat.add_assoc, Nat.add_comm 1]
  | block inner header opens body closing closes rest ihbody ihrest =>
    rcases List.mem_cons.mp h with rfl | h
    · exact ⟨[], header, closing, rest.lines, rfl, rfl, opens, closes⟩
    rcases List.mem_append.mp h with h | h
    · obtain ⟨before, header', closing', after, hf⟩ := ihbody h
      refine ⟨header :: before, header', closing', after ++ closing :: rest.lines, ?_, ?_, hf.opens,
        hf.closes⟩
      · rw [lines, hf.lines_eq]
        simp
      · rw [hf.header_eq, List.length_cons, Nat.add_assoc, Nat.add_comm 1]
    · obtain ⟨before, header', closing', after, hf⟩ := ihrest h
      refine ⟨header :: (body.lines ++ closing :: before), header', closing', after, ?_, ?_, hf.opens,
        hf.closes⟩
      · rw [lines, hf.lines_eq]
        simp
      · rw [hf.header_eq, List.length_cons, List.length_append, List.length_cons]
        omega

namespace Stands

variable {p : Passage branched} {f : Found} {before after : List Line} {header closing : Line}

theorem closing_eq (h : p.Stands 0 f before header closing after) :
    f.closing = (before ++ header :: f.body.lines).length := by
  rw [Found.closing, h.header_eq, List.length_append, List.length_cons]
  omega

theorem getElem?_header (h : p.Stands 0 f before header closing after) :
    p.lines[f.header]? = some header := by
  rw [h.lines_eq, h.header_eq, Nat.zero_add, List.getElem?_append_right (Nat.le_refl _), Nat.sub_self]
  rfl

theorem getElem?_closing (h : p.Stands 0 f before header closing after) :
    p.lines[f.closing]? = some closing := by
  rw [h.lines_eq, ← List.cons_append, ← List.append_assoc, h.closing_eq,
    List.getElem?_append_right (Nat.le_refl _), Nat.sub_self]
  rfl

/-- The lines of the block, and those after it as far as the range goes. -/
theorem range_eq (h : p.Stands 0 f before header closing after) (stop : Nat) :
    range p.lines (f.header + 1) stop
      = (f.body.lines ++ closing :: after).take (stop - (f.header + 1)) := by
  unfold range
  rw [List.drop_take, h.lines_eq, h.header_eq, Nat.zero_add, List.drop_length_add_append,
    List.drop_succ_cons, List.drop_zero]

/-- From a line of the block up to its `END` there are only lines of the block. -/
theorem range_closing (h : p.Stands 0 f before header closing after) {i : Nat} (hi : f.header ≤ i) :
    range p.lines (i + 1) f.closing = f.body.lines.drop (i - f.header) := by
  obtain ⟨k, rfl⟩ := Nat.exists_eq_add_of_le hi
  unfold range
  rw [h.lines_eq, ← List.cons_append, ← List.append_assoc, h.closing_eq, List.take_left,
    h.header_eq, Nat.zero_add, Nat.add_assoc, List.drop_length_add_append, List.drop_succ_cons,
    Nat.add_sub_cancel_left]

end Stands

end Passage

/-! ## The searches find the parts of a block -/

namespace Passage

variable {branched : Bool} {p : Passage branched} {f : Found} {before after : List Line}
variable {header closing : Line}

/-- Among the lines of a passage alone, as far as one may look, there is no `END` to be found. -/
theorem endFrom?_take (p : Passage branched) (index k : Nat) : endFrom? 0 index (p.lines.take k) = none := by
  have hall : endFrom? 0 index p.lines = none := by
    rw [← List.append_nil p.lines, endFrom?_of_closed p.closed rfl]
    rfl
  cases htake : endFrom? 0 index (p.lines.take k) with
  | none => rfl
  | some e =>
    have hfound := endFrom?_append htake (p.lines.drop k)
    rw [List.take_append_drop, hall] at hfound
    cases hfound

/-- The `END` of a block is found in every range that has it. -/
theorem Stands.end?_eq (h : p.Stands 0 f before header closing after) (stop : Nat) :
    Block.end? p.lines (f.header + 1) stop = if f.closing < stop then some f.closing else none := by
  unfold end?
  rw [h.range_eq]
  split
  · next hstop =>
    obtain ⟨k, rfl⟩ := Nat.exists_eq_add_of_lt hstop
    rw [show f.closing + k + 1 - (f.header + 1) = f.body.lines.length + (k + 1) by
        rw [Found.closing]
        omega,
      List.take_length_add_append, List.take_succ_cons, endFrom?_of_closed f.body.closed rfl,
      endFrom?.eq_def]
    simp only [role_of_endBlock h.closes, Found.closing]
    congr 1
    omega
  · next hstop =>
    rw [List.take_append_of_le_length (by rw [Found.closing] at hstop; omega)]
    exact f.body.endFrom?_take _ _

/-- Behind the header of a block and behind each of its branches, the next branch is found. -/
theorem Stands.else?_eq (h : p.Stands 0 f before header closing after) {i : Nat}
    (hi : i ∈ f.header :: f.branches) :
    else? p.lines (i + 1) f.closing = f.branches.find? (i < ·) := by
  unfold else?
  rcases List.mem_cons.mp hi with rfl | hi
  · rw [h.range_closing (Nat.le_refl _), Nat.sub_self, List.drop_zero, f.body.elseFrom?_lines]
    exact (f.body.find?_branchesFrom_of_lt (Nat.lt_succ_self _)).symm
  · have hlt : f.header + 1 ≤ i := le_of_mem_branchesFrom hi
    rw [h.range_closing (by omega), ← Nat.add_sub_add_right i 1 f.header]
    exact f.body.elseFrom?_drop hi

/-- A number of `branchesFrom` is that of a line which begins a branch. -/
theorem exists_isBranch {p : Passage branched} {index i : Nat} (h : i ∈ p.branchesFrom index) :
    ∃ l, p.lines[i - index]? = some l ∧ IsBranch l := by
  induction p generalizing index with
  | nil => cases h
  | single line single rest ih =>
    have hi := le_of_mem_branchesFrom (p := rest) h
    rw [show i - index = i - (index + 1) + 1 by omega]
    exact ih h
  | branch line begins rest ih =>
    rcases List.mem_cons.mp h with rfl | h
    · exact ⟨line, by rw [Nat.sub_self]; rfl, begins⟩
    · have hi := le_of_mem_branchesFrom (p := rest) h
      rw [show i - index = i - (index + 1) + 1 by omega]
      exact ih h
  | block inner header opens body closing closes rest _ ih =>
    have hi := le_of_mem_branchesFrom (p := rest) h
    obtain ⟨l, hl, hbranch⟩ := ih h
    refine ⟨l, ?_, hbranch⟩
    rw [← hl, lines, show i - index = body.lines.length + (i - (index + body.lines.length + 2) + 1) + 1 by
        omega,
      List.getElem?_cons_succ, List.getElem?_append_right (Nat.le_add_right _ _), Nat.add_sub_cancel_left,
      List.getElem?_cons_succ]

theorem Stands.exists_isBranch (h : p.Stands 0 f before header closing after) {i : Nat}
    (hi : i ∈ f.branches) : ∃ l, p.lines[i]? = some l ∧ IsBranch l := by
  obtain ⟨l, hl, hbranch⟩ := Passage.exists_isBranch hi
  refine ⟨l, ?_, hbranch⟩
  have hlt : f.header + 1 ≤ i := le_of_mem_branchesFrom hi
  have hlength : i - (f.header + 1) < f.body.lines.length := (List.getElem?_eq_some_iff.mp hl).1
  rw [h.lines_eq, show i = before.length + (i - (f.header + 1) + 1) by have := h.header_eq; omega,
    List.getElem?_append_right (Nat.le_add_right _ _), Nat.add_sub_cancel_left, List.getElem?_cons_succ,
    List.getElem?_append_left hlength, hl]

end Passage

/-- **The searches find what belongs to a block.** Take any block of code in which blocks nest as they
should, with its header, its branches and its `END`. The search for its `END` finds it in every range
that has it, and nothing in a shorter one. The search for a branch, from behind the header or from behind
one of its branches up to its `END`, finds its next branch, and nothing if there is none. -/
theorem search_blocks {branched : Bool} (p : Passage branched) (f : Found) (hf : f ∈ p.blocks) :
    (∃ l, p.lines[f.header]? = some l ∧ IsHeader f.branched l) ∧
    (∃ l, p.lines[f.closing]? = some l ∧ l.kind = .endBlock) ∧
    (∀ i ∈ f.branches, ∃ l, p.lines[i]? = some l ∧ IsBranch l) ∧
    (∀ stop, end? p.lines (f.header + 1) stop = if f.closing < stop then some f.closing else none) ∧
    ∀ i ∈ f.header :: f.branches, else? p.lines (i + 1) f.closing = f.branches.find? (i < ·) := by
  obtain ⟨before, header, closing, after, h⟩ := Passage.exists_stands hf
  exact ⟨⟨header, h.getElem?_header, h.opens⟩, ⟨closing, h.getElem?_closing, h.closes⟩,
    fun _ => h.exists_isBranch, h.end?_eq, fun _ => h.else?_eq⟩

/-- A conditional with a loop in its first branch, and in that an `IF` on one line. -/
theorem search_blocks_sample :
    let source := "IF A:\nLOOP WHILE B:\nIF C: *P 1 ELSE *P 2\nEND\nELSEIF D: *P 3\nELSE\nEND"
    ∃ (p : Passage false) (f : Found), p.lines = Line.ofSource source.toList ∧ f ∈ p.blocks ∧
      f.header = 0 ∧ f.closing = 6 ∧ f.branches = [4, 5] ∧
      (∀ stop, end? p.lines (f.header + 1) stop = if f.closing < stop then some f.closing else none) ∧
      ∀ i ∈ f.header :: f.branches, else? p.lines (i + 1) f.closing = f.branches.find? (i < ·) := by
  intro source
  let line (text : String) (number : Nat) : Line := Line.scan text.toList number
  have hsource : [line "IF A:" 1, line "LOOP WHILE B:" 2, line "IF C: *P 1 ELSE *P 2" 3, line "END" 4,
      line "ELSEIF D: *P 3" 5, line "ELSE" 6, line "END" 7] = Line.ofSource source.toList := by
    decide +kernel
  let inner : Passage false := .single (line "IF C: *P 1 ELSE *P 2" 3) (by decide +kernel) .nil
  let body : Passage true :=
    .block false (line "LOOP WHILE B:" 2) (by decide +kernel) inner (line "END" 4) (by decide +kernel) <|
    .branch (line "ELSEIF D: *P 3" 5) (by decide +kernel) <|
    .branch (line "ELSE" 6) (by decide +kernel) .nil
  let p : Passage false :=
    .block true (line "IF A:" 1) (by decide +kernel) body (line "END" 7) (by decide +kernel) .nil
  let f : Found := ⟨0, true, body⟩
  have hf : f ∈ p.blocks := List.mem_cons_self
  obtain ⟨-, -, -, hend, helse⟩ := search_blocks p f hf
  exact ⟨p, f, hsource, hf, rfl, rfl, rfl, hend, helse⟩

end QuestScript.Block
