import QuestScript.Proofs.Likeness.Block
import QuestScript.Proofs.Screen.Written

/-!
# Ranges of lines

The code of a block is run where it stands, as a range of the lines around it. The searches for `END`,
for `ELSE` and for labels look at no line outside of the range, so a range is run as its lines would be
on their own: `Calls.ofFuel_lines_excerpt`.
-/

namespace QuestScript

/-! ## Searches in a range -/

namespace Block

/-- The index only counts the lines, so it can start anywhere. -/
theorem endFrom?_add (k depth index : Nat) (ls : List Line) :
    endFrom? depth (k + index) ls = (endFrom? depth index ls).map (k + ·) := by
  induction ls generalizing depth index with
  | nil => rfl
  | cons l ls ih =>
    simp only [endFrom?]
    split
    · exact ih _ (index + 1)
    · split
      · rfl
      · exact ih _ (index + 1)
    · exact ih _ (index + 1)

/-- The same for the search for a branch. -/
theorem elseFrom?_add (k depth index : Nat) (ls : List Line) :
    elseFrom? depth (k + index) ls = (elseFrom? depth index ls).map (k + ·) := by
  induction ls generalizing depth index with
  | nil => rfl
  | cons l ls ih =>
    simp only [elseFrom?]
    split
    · exact ih _ (index + 1)
    · split
      · rfl
      · exact ih _ (index + 1)
    · split
      · rfl
      · exact ih _ (index + 1)
    · exact ih _ (index + 1)

/-- Lines behind the end of the block are not looked at. -/
theorem endFrom?_append {depth index e : Nat} {ls : List Line} (h : endFrom? depth index ls = some e)
    (more : List Line) : endFrom? depth index (ls ++ more) = some e := by
  induction ls generalizing depth index with
  | nil => cases h
  | cons l ls ih =>
    simp only [List.cons_append, endFrom?] at h ⊢
    split at h
    · exact ih h
    · split at h
      · exact h
      · exact ih h
    · exact ih h

/-- What is found is one of the lines that were searched. -/
theorem bounds_of_endFrom? {depth index : Nat} {ls : List Line} {e : Nat}
    (h : endFrom? depth index ls = some e) : index ≤ e ∧ e < index + ls.length := by
  induction ls generalizing depth index with
  | nil => cases h
  | cons l ls ih =>
    rw [List.length_cons]
    simp only [endFrom?] at h
    split at h
    · have := ih h
      omega
    · split at h
      · cases h
        omega
      · have := ih h
        omega
    · have := ih h
      omega

theorem bounds_of_elseFrom? {depth index : Nat} {ls : List Line} {e : Nat}
    (h : elseFrom? depth index ls = some e) : index ≤ e ∧ e < index + ls.length := by
  induction ls generalizing depth index with
  | nil => cases h
  | cons l ls ih =>
    rw [List.length_cons]
    simp only [elseFrom?] at h
    split at h
    · have := ih h
      omega
    · split at h
      · cases h
        omega
      · have := ih h
        omega
    · split at h
      · cases h
      · have := ih h
        omega
    · have := ih h
      omega

theorem length_range_le (lines : List Line) (start stop : Nat) :
    (range lines start stop).length ≤ stop - start := by
  unfold range
  rw [List.length_drop, List.length_take]
  omega

/-- An `END` is found before the end of the range. -/
theorem lt_of_end? {lines : List Line} {start stop e : Nat} (h : end? lines start stop = some e) :
    e < stop := by
  have := bounds_of_endFrom? h
  have := length_range_le lines start stop
  omega

/-- An `ELSE` is found before the end of the range. -/
theorem lt_of_else? {lines : List Line} {start stop e : Nat} (h : else? lines start stop = some e) :
    e < stop := by
  have := bounds_of_elseFrom? h
  have := length_range_le lines start stop
  omega

/-- A block ends at its branch or at its end, in any case within it. -/
theorem getD_else?_le (lines : List Line) (start stop : Nat) :
    (else? lines start stop).getD stop ≤ stop := by
  cases h : else? lines start stop with
  | none => exact Nat.le_refl _
  | some e => exact Nat.le_of_lt (lt_of_else? h)

/-- The lines of a range, by their number in it. -/
theorem getElem?_range (lines : List Line) (start stop i : Nat) :
    (range lines start stop)[i]? = if start + i < stop then lines[start + i]? else none := by
  rw [range, List.getElem?_drop, List.getElem?_take]

/-- A label leads to the first line of the range that carries it. -/
theorem label?_eq_some {lines : List Line} {start stop target : Nat} {label : String}
    (h : label? lines start stop label = some target) :
    start ≤ target ∧ target < stop ∧ (∃ line, lines[target]? = some line ∧ line.label = some label) ∧
      ∀ i line, start ≤ i → i < target → lines[i]? = some line → line.label ≠ some label := by
  obtain ⟨k, hfind, rfl⟩ := Option.map_eq_some_iff.mp h
  obtain ⟨hk, hlabel, hbefore⟩ := List.findIdx?_eq_some_iff_getElem.mp hfind
  have hget (j : Nat) (hj : j < (range lines start stop).length) :
      start + j < stop ∧ lines[start + j]? = some (range lines start stop)[j] := by
    have hsome := List.getElem?_eq_getElem hj
    rw [getElem?_range] at hsome
    split at hsome
    · next hstop => exact ⟨hstop, hsome⟩
    · cases hsome
  obtain ⟨hstop, htarget⟩ := hget k hk
  rw [Nat.add_comm k start]
  refine ⟨Nat.le_add_right _ _, hstop, ⟨_, htarget, eq_of_beq hlabel⟩, ?_⟩
  intro i line hi hlt hline heq
  obtain ⟨j, rfl⟩ := Nat.exists_eq_add_of_le hi
  have hj : j < k := Nat.lt_of_add_lt_add_left hlt
  have hother := hget j (Nat.lt_trans hj hk)
  rw [hline] at hother
  refine hbefore j hj ?_
  rw [← Option.some.inj hother.2, heq]
  exact beq_self_eq_true _

/-- A label is missing only if no line of the range has it. -/
theorem label?_eq_none_iff {lines : List Line} {start stop : Nat} {label : String} :
    label? lines start stop label = none ↔
      ∀ i line, start ≤ i → i < stop → lines[i]? = some line → line.label ≠ some label := by
  rw [label?, Option.map_eq_none_iff, List.findIdx?_eq_none_iff]
  constructor
  · intro h i line hstart hstop hline heq
    obtain ⟨j, rfl⟩ := Nat.exists_eq_add_of_le hstart
    have hmem : line ∈ range lines start stop := by
      refine List.mem_of_getElem? (i := j) ?_
      rw [getElem?_range, if_pos hstop, hline]
    have hfalse := h line hmem
    rw [heq, beq_self_eq_true] at hfalse
    cases hfalse
  · intro h line hmem
    obtain ⟨j, hj⟩ := List.mem_iff_getElem?.mp hmem
    rw [getElem?_range] at hj
    split at hj
    · next hstop => exact beq_eq_false_iff_ne.mpr (h _ line (Nat.le_add_right _ _) hstop hj)
    · cases hj

/-! ### Lines among others -/

section Excerpt

variable (before ls after : List Line)

/-- A range of lines that stand among others is the same range in them, further down. -/
theorem range_excerpt (x : Nat) {y : Nat} (hy : y ≤ ls.length) :
    range (before ++ ls ++ after) (before.length + x) (before.length + y) = range ls x y := by
  unfold range
  rw [List.append_assoc, List.take_length_add_append, List.drop_length_add_append,
    List.take_append_of_le_length hy]

/-- Searches see the lines of the range only, so they find the same among others, further down. -/
theorem end?_excerpt (x : Nat) {y : Nat} (hy : y ≤ ls.length) :
    Block.end? (before ++ ls ++ after) (before.length + x) (before.length + y)
      = (end? ls x y).map (before.length + ·) := by
  unfold end?
  rw [range_excerpt before ls after x hy, endFrom?_add]

theorem else?_excerpt (x : Nat) {y : Nat} (hy : y ≤ ls.length) :
    else? (before ++ ls ++ after) (before.length + x) (before.length + y)
      = (else? ls x y).map (before.length + ·) := by
  unfold else?
  rw [range_excerpt before ls after x hy, elseFrom?_add]

theorem getD_else?_excerpt (x : Nat) {y : Nat} (hy : y ≤ ls.length) :
    (else? (before ++ ls ++ after) (before.length + x) (before.length + y)).getD (before.length + y)
      = before.length + (else? ls x y).getD y := by
  rw [else?_excerpt before ls after x hy, Option.getD_map]

/-- The same for labels, which are what a jump looks for. -/
theorem label?_excerpt (x : Nat) {y : Nat} (hy : y ≤ ls.length) (label : String) :
    label? (before ++ ls ++ after) (before.length + x) (before.length + y) label
      = (label? ls x y label).map (before.length + ·) := by
  unfold label?
  rw [range_excerpt before ls after x hy, Option.map_map]
  congr 1
  funext i
  show i + (before.length + x) = before.length + (i + x)
  omega

theorem getElem?_excerpt {i : Nat} (hi : i < ls.length) :
    (before ++ ls ++ after)[before.length + i]? = ls[i]? := by
  rw [List.append_assoc, List.getElem?_append_right (Nat.le_add_right _ _), Nat.add_sub_cancel_left,
    List.getElem?_append_left hi]

end Excerpt

end Block

/-! ## Running a range -/

namespace Run

variable {α β : Type}

/-- An error is marked where it arises, so the parts of a run can be marked one by one. -/
theorem marked_bind (x : Run α) (f : α → Run β) :
    (x >>= f).marked = x.marked >>= fun a => (f a).marked := by
  funext m
  show Run.marked (x.andThen f) m = x.marked.andThen (fun a => (f a).marked) m
  simp only [Run.marked, Run.andThen]
  cases x m with
  | done a m' => rfl
  | failed e m' => rfl
  | outOfFuel => rfl

theorem marked_pure (a : α) : (pure a : Run α).marked = pure a := rfl

theorem marked_map (f : α → β) (x : Run α) : (f <$> x).marked = f <$> x.marked := by
  rw [map_eq_pure_bind, map_eq_pure_bind, marked_bind]
  rfl

end Run

namespace Machine

/-- The cursor with its line counted from `k`. -/
def Cursor.shift (k : Nat) : Cursor → Cursor
  | .line i => .line (k + i)
  | .leave flow => .leave flow

/-- Where a run goes on is moved along, unless it leaves the lines. -/
theorem Cursor.shift_after (k next : Nat) (flow : Flow) :
    (Cursor.after next flow).shift k = Cursor.after (k + next) flow := by
  cases flow with
  | next => rfl
  | exit => rfl
  | jump label => rfl

section Excerpt

variable {c : Calls} {before ls after : List Line}

/-- Ranges within `ls` are run as they would be on their own. -/
def RunsExcerpt (c : Calls) (before ls after : List Line) : Prop :=
  ∀ x y top, y ≤ ls.length →
    c.lines (before ++ ls ++ after) (before.length + x) (before.length + y) top = c.lines ls x y top

/-- A run that starts with the search for an `END`. -/
theorem blockEnd_bind_excerpt (i : Nat) {stop : Nat} (hstop : stop ≤ ls.length)
    {f g : Nat → Run Cursor}
    (h : ∀ e ≤ ls.length, f (before.length + e) = Cursor.shift before.length <$> g e) :
    blockEnd (before ++ ls ++ after) (before.length + i) (before.length + stop) >>= f
      = Cursor.shift before.length <$> (blockEnd ls i stop >>= g) := by
  unfold blockEnd
  rw [Nat.add_assoc, Block.end?_excerpt before ls after (i + 1) hstop]
  cases he : Block.end? ls (i + 1) stop with
  | none => rfl
  | some e => exact h e (Nat.le_of_lt (Nat.lt_of_lt_of_le (Block.lt_of_end? he) hstop))

/-- A run after which the cursor goes to a given line if the run ends normally. -/
theorem map_shift_after (k next : Nat) (x : Run Flow) :
    Cursor.shift k <$> (do return Cursor.after next (← x))
      = (do return Cursor.after (k + next) (← x) : Run Cursor) := by
  simp only [map_bind, map_pure, Cursor.shift_after]

/-- A condition with the line to go on at when it is false. -/
theorem map_shift_branch (k e next : Nat) (cond : Run Bool) (x : Run Flow) :
    Cursor.shift k <$> (do if ← cond then return Cursor.after e (← x) else return .line next)
      = (do if ← cond then return Cursor.after (k + e) (← x) else return .line (k + next) :
          Run Cursor) := by
  rw [map_bind]
  congr 1
  funext yes
  cases yes with
  | true => exact map_shift_after k e x
  | false => rfl

/-- A line does the same among others: the calls run the same lines, and the cursor is moved. -/
theorem runSingle_excerpt (hc : RunsExcerpt c before ls after) (i : Nat) {stop : Nat}
    (hstop : stop ≤ ls.length) (line : Line) :
    runSingle c (before ++ ls ++ after) (before.length + i) (before.length + stop) line
      = Cursor.shift before.length <$> runSingle c ls i stop line := by
  unfold runSingle
  dsimp only
  split
  · rw [map_bind]
    congr 1
    funext _
    refine blockEnd_bind_excerpt i hstop fun e he => ?_
    rw [map_shift_branch, Nat.add_assoc, Block.getD_else?_excerpt before ls after _ he]
  · refine blockEnd_bind_excerpt i hstop fun e he => ?_
    split
    · rw [map_shift_after]
    · rw [map_shift_after, Nat.add_assoc, Block.getD_else?_excerpt before ls after _ he,
        hc _ _ _ (Nat.le_trans (Block.getD_else?_le _ _ _) he)]
  · rw [map_shift_after, Nat.add_assoc]

/-- The same for a header, whose block is searched for among the lines of the range. -/
theorem runHeader_excerpt (hc : RunsExcerpt c before ls after) (i : Nat) {stop : Nat}
    (hstop : stop ≤ ls.length) (line : Line) :
    runHeader c (before ++ ls ++ after) (before.length + i) (before.length + stop) line
      = Cursor.shift before.length <$> runHeader c ls i stop line := by
  refine blockEnd_bind_excerpt i hstop fun e he => ?_
  have hbody := hc (i + 1) e false he
  have hbranch := hc (i + 1) _ false (Nat.le_trans (Block.getD_else?_le ls (i + 1) e) he)
  dsimp only
  split
  · rw [map_shift_branch, Nat.add_assoc, Block.getD_else?_excerpt before ls after _ he, hbranch]
  · rw [map_shift_branch, Nat.add_assoc, Block.getD_else?_excerpt before ls after _ he, hbranch]
  · rw [map_bind, Nat.add_assoc, Block.range_excerpt before ls after _ he]
    rfl
  · rw [map_shift_after, Nat.add_assoc, hbody]
  · rw [map_shift_after, Nat.add_assoc, hbody]
  · exact runSingle_excerpt hc i hstop line

theorem runLine_excerpt (hc : RunsExcerpt c before ls after) (i : Nat) {stop : Nat}
    (hstop : stop ≤ ls.length) (line : Line) :
    runLine c (before ++ ls ++ after) (before.length + i) (before.length + stop) line
      = Cursor.shift before.length <$> runLine c ls i stop line := by
  unfold runLine
  split
  · exact runHeader_excerpt hc i hstop line
  · exact runSingle_excerpt hc i hstop line

/-- By induction on the lines that may still be run, with both cursors at the same line. -/
theorem linesFrom_excerpt (hc : RunsExcerpt c before ls after) (start : Nat) {stop : Nat}
    (hstop : stop ≤ ls.length) (top : Bool) (n i : Nat) :
    linesFrom c (before ++ ls ++ after) (before.length + start) (before.length + stop) top n
        (before.length + i)
      = linesFrom c ls start stop top n i := by
  induction n generalizing i with
  | zero => rfl
  | succ n ih =>
    -- wherever a line leads within the range, the same is reached on its own
    have hafter (cursor : Cursor) :
        afterLine c (before ++ ls ++ after) (before.length + start) (before.length + stop) top n
            (cursor.shift before.length)
          = afterLine c ls start stop top n cursor := by
      cases cursor with
      | line next => exact ih next
      | leave flow =>
        cases flow with
        | next => rfl
        | exit => rfl
        | jump label =>
          simp only [Cursor.shift, afterLine]
          rw [Block.label?_excerpt before ls after start hstop]
          cases Block.label? ls start stop label with
          | none => rfl
          | some target => exact ih target
    rw [linesFrom_succ, linesFrom_succ]
    by_cases hi : stop ≤ i
    · rw [if_pos (Nat.add_le_add_left hi _), if_pos hi]
    · rw [if_neg (by omega), if_neg hi, Block.getElem?_excerpt before ls after (by omega)]
      cases ls[i]? with
      | none => rfl
      | some line =>
        simp only [runLine_excerpt hc i hstop line, Run.marked_map, bind_map_left, hafter]

theorem runLines_excerpt (hc : RunsExcerpt c before ls after) (x y : Nat) (top : Bool)
    (hy : y ≤ ls.length) :
    runLines c (before ++ ls ++ after) (before.length + x) (before.length + y) top
      = runLines c ls x y top := by
  unfold runLines
  have hmin : min (before.length + y) (before ++ ls ++ after).length = before.length + min y ls.length := by
    simp only [List.length_append]
    omega
  rw [hmin]
  exact linesFrom_excerpt hc x (Nat.min_le_right _ _) top _ _

end Excerpt

end Machine

/-- **A range of lines runs as its lines on their own**, whatever stands before and after them. -/
theorem Calls.ofFuel_lines_excerpt (before ls after : List Line) (n : Nat) :
    Machine.RunsExcerpt (Calls.ofFuel n) before ls after := by
  induction n with
  | zero => exact fun _ _ _ _ => rfl
  | succ n ih => exact fun x y top hy => Machine.runLines_excerpt ih x y top hy

end QuestScript
