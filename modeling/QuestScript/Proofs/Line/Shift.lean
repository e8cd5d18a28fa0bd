import QuestScript.Machine.Block
import QuestScript.Proofs.Line.Statement

/-!
# Statements behind other text

The scan of a text looks at nothing before it, and the offsets of its statements are counted from where
the text starts. So a text that is moved behind another one has the same statements, moved by as much
(`Statement.scanFrom_add`), and they are run as they were (`Calls.ofFuel_statements_moved`).
-/

namespace QuestScript

open Text (byteSize)

/-! ## Moving offsets -/

namespace Text

/-- A position behind a prefix cuts the text where it cuts what follows the prefix. Both are no boundary
of a character, or neither is. -/
theorem splitBytes_add (as cs : List Char) (n : Nat) :
    splitBytes (as ++ cs) (byteSize as + n) = (splitBytes cs n).map fun (a, b) => (as ++ a, b) := by
  induction as with
  | nil =>
    rw [byteSize_nil, Nat.zero_add, List.nil_append]
    cases splitBytes cs n <;> rfl
  | cons c as ih =>
    have hc : 0 < c.utf8Size := Char.utf8Size_pos c
    obtain ⟨k, hk⟩ : ∃ k, byteSize (c :: as) + n = k + 1 :=
      ⟨byteSize (c :: as) + n - 1, by rw [byteSize_cons]; omega⟩
    have hk' : c.utf8Size + byteSize as + n = k + 1 := hk
    have hsub : k + 1 - c.utf8Size = byteSize as + n := by omega
    rw [hk, List.cons_append, splitBytes, if_pos (by omega), hsub, ih, Option.map_map]
    rfl

theorem charAt?_add (as cs : List Char) (n : Nat) : charAt? (as ++ cs) (byteSize as + n) = charAt? cs n := by
  rw [charAt?, charAt?, splitBytes_add]
  cases splitBytes cs n <;> rfl

/-- A part of the text that lies behind a prefix is a part of the rest. -/
theorem slice?_add (as cs : List Char) (start stop : Nat) :
    slice? (as ++ cs) (byteSize as + start) (byteSize as + stop) = slice? cs start stop := by
  unfold slice?
  rw [splitBytes_add, Nat.add_sub_add_left]
  by_cases h : start ≤ stop
  · rw [if_pos h, if_pos (Nat.add_le_add_left h _)]
    cases splitBytes cs start <;> rfl
  · rw [if_neg h, if_neg (by omega)]

end Text

namespace Statement

/-- A statement of a text that is moved by `k` bytes. -/
def shift (k : Nat) (s : Statement) : Statement :=
  { s with param := s.param + k, stop := s.stop + k, args := s.args.map (·.offset k) }

theorem shift_stop (k : Nat) (s : Statement) : (s.shift k).stop = s.stop + k := rfl

theorem shift_kind (k : Nat) (s : Statement) : (s.shift k).kind = s.kind := rfl

theorem trimmedSpan_add (base k : Nat) (cs : List Char) :
    trimmedSpan (base + k) cs = (trimmedSpan base cs).offset k := by
  simp only [trimmedSpan, Span.offset, Span.mk.injEq]
  omega

theorem isEmpty_offset (s : Span) (k : Nat) : (s.offset k).isEmpty = s.isEmpty := by
  simp [Span.isEmpty, Span.offset]

/-- The sides of an assignment are counted from the start of its text, so they move with it. -/
theorem assignmentArgs_add (base k : Nat) (cs : List Char) :
    assignmentArgs (base + k) cs
      = ((assignmentArgs base cs).1.map (·.offset k), (assignmentArgs base cs).2) := by
  unfold assignmentArgs
  dsimp only
  rw [Nat.add_right_comm base k]
  cases Text.cutAtDelimiter? (Text.dropBlanks cs) '=' with
  | none =>
    dsimp only
    rw [trimmedSpan_add, isEmpty_offset]
    rfl
  | some cut =>
    obtain ⟨before, after⟩ := cut
    generalize base + Text.leadingBlanks cs = start
    -- a sign of two characters starts in the text before the equals sign
    have hsign : before.getLast?.any isCompound = true → 0 < byteSize before := by
      intro h
      refine Text.byteSize_pos ?_
      rintro rfl
      cases h
    simp only [Nat.add_right_comm start k, Nat.add_right_comm _ k 1, trimmedSpan_add, isEmpty_offset,
      List.map_cons, List.map_nil, Prod.mk.injEq, List.cons.injEq, and_true, true_and]
    split
    · next h =>
      have := hsign h
      simp only [Span.offset, Span.mk.injEq, and_true]
      omega
    · rfl

/-- Arguments between commas move with their text. How many there are, and so the error, stays the same. -/
theorem separatedArgs_add (room pos k : Nat) (cs : List Char) :
    separatedArgs room (pos + k) cs
      = ((separatedArgs room pos cs).1.map (·.offset k), (separatedArgs room pos cs).2) := by
  induction room generalizing pos cs with
  | zero => rfl
  | succ room ih =>
    simp only [separatedArgs]
    cases Text.cutAtDelimiter? cs ',' with
    | none => simp only [List.map_cons, List.map_nil, Span.offset, Nat.add_right_comm pos k]
    | some cut =>
      obtain ⟨before, after⟩ := cut
      dsimp only
      split
      · simp only [List.map_cons, List.map_nil, Span.offset, Nat.add_right_comm pos k]
      · simp only [Nat.add_right_comm _ k, ih, List.map_cons, Span.offset]

/-- Brackets around all arguments are taken off wherever the text stands. -/
theorem stripBrackets?_add (base k : Nat) (cs : List Char) :
    stripBrackets? (base + k) cs = (stripBrackets? base cs).map fun (pos, body) => (pos + k, body) := by
  unfold stripBrackets?
  dsimp only
  split
  · cases Text.cutAtDelimiter? (Text.dropBlanks cs) ')' with
    | none => rfl
    | some cut =>
      obtain ⟨before, after⟩ := cut
      dsimp only
      split
      · simp only [Option.map_some, Nat.add_right_comm _ k]
      · simp only [Option.map_some, Nat.add_right_comm _ k]
  · simp only [Option.map_some, Nat.add_right_comm _ k]

theorem regularArgs_add (kind : StatementKind) (base k : Nat) (cs : List Char) :
    regularArgs kind (base + k) cs
      = ((regularArgs kind base cs).1.map (·.offset k), (regularArgs kind base cs).2) := by
  unfold regularArgs
  rw [stripBrackets?_add]
  cases stripBrackets? base cs with
  | none => rfl
  | some stripped =>
    obtain ⟨pos, body⟩ := stripped
    simp only [Option.map_some]
    split
    · rfl
    · simp only [separatedArgs_add, List.length_map]

/-- The kind decides how parameters are read, and each way of reading them moves with the text. -/
theorem ofParams_add (kind : StatementKind) (param k : Nat) (cs : List Char) :
    ofParams kind (param + k) cs = (ofParams kind param cs).shift k := by
  cases kind <;> simp only [ofParams, shift, assignmentArgs_add, regularArgs_add, List.map_nil,
    Nat.add_right_comm param k]

/-- The statement at the start of a text moves, and the cut after it is counted from there. -/
theorem first_add (start k : Nat) (cs : List Char) :
    first (start + k) cs = ((first start cs).1.shift k, (first start cs).2) := by
  unfold first
  dsimp only
  split
  · rw [ofParams_add]
  · rw [Nat.add_right_comm start k, ofParams_add]

/-- **The scan of a text depends on where it starts only in its offsets.** -/
theorem scanFrom_add (start k : Nat) (cs : List Char) :
    scanFrom (start + k) cs = (scanFrom start cs).map (shift k) := by
  induction cs using (measure List.length).wf.induction generalizing start with
  | _ cs ih =>
    rw [scanFrom, scanFrom.eq_def start]
    simp only [first_add]
    split
    · rfl
    · next n hn =>
      split
      · next hlt =>
        rw [Nat.add_right_comm start k, Nat.add_right_comm _ k, ih _ hlt]
        rfl
      · rfl

end Statement

/-! ## Statements that read the same -/

/-- A statement has the kind, the error and the texts of the arguments that another has in its line. -/
structure Statement.ReadsAs (line : Line) (s : Statement) (line' : Line) (s' : Statement) : Prop where
  kind : s'.kind = s.kind
  error : s'.error = s.error
  args : s'.args.map line'.slice = s.args.map line.slice

namespace Machine

open Statement (ReadsAs)

variable {line line' : Line} {s s' : Statement}

/-- Arguments are evaluated by their texts. Where these stand in the line does not matter. -/
theorem evalArgs_congr (c : Calls) (kind : StatementKind) (index : Nat) {spans spans' : List Span}
    (h : spans'.map line'.slice = spans.map line.slice) :
    evalArgs c line' kind index spans' = evalArgs c line kind index spans := by
  induction spans generalizing spans' index with
  | nil =>
    rw [List.map_nil, List.map_eq_nil_iff] at h
    rw [h]
    rfl
  | cons span spans ih =>
    obtain ⟨span', spans', rfl, hspan, hspans⟩ := List.map_eq_cons_iff.mp h
    simp only [evalArgs, hspan, ih _ hspans]

theorem checkScanned_readsAs (h : ReadsAs line s line' s') : checkScanned s' = checkScanned s := by
  unfold checkScanned
  rw [h.error]

theorem statementArgs_readsAs (h : ReadsAs line s line' s') (c : Calls) :
    statementArgs c line' s' = statementArgs c line s := by
  unfold statementArgs
  rw [checkScanned_readsAs h, h.kind, evalArgs_congr c s.kind 0 h.args]

theorem condition_readsAs (h : ReadsAs line s line' s') (c : Calls) : condition c line' s' = condition c line s := by
  unfold condition
  rw [statementArgs_readsAs h]

/-- Each argument has the same text, and one that is missing is missing in both. -/
theorem arg_readsAs (h : ReadsAs line s line' s') (index : Nat) : line'.arg s' index = line.arg s index := by
  have harg (l : Line) (t : Statement) : l.arg t index = ((t.args.map l.slice)[index]?).getD [] := by
    unfold Line.arg
    rw [List.getElem?_map]
    cases t.args[index]? with
    | none => rfl
    | some span => rfl
  rw [harg, harg, h.args]

theorem length_args_readsAs (h : ReadsAs line s line' s') : s'.args.length = s.args.length := by
  have hlength := congrArg List.length h.args
  rwa [List.length_map, List.length_map] at hlength

/-- A statement without a block looks at nothing but its kind, its error and its arguments. -/
theorem runSimple_readsAs (h : ReadsAs line s line' s') (c : Calls) : runSimple c line' s' = runSimple c line s := by
  have hassign : assign c line' s' = assign c line s := by
    unfold assign
    simp only [checkScanned_readsAs h, length_args_readsAs h, arg_readsAs h]
  have hdeclare : declare c line' s' = declare c line s := by
    unfold declare declared
    simp only [checkScanned_readsAs h, length_args_readsAs h, arg_readsAs h]
  unfold runSimple
  rw [h.kind, hassign, hdeclare, statementArgs_readsAs h]

end Machine

/-! ## Lines with text before them -/

/-- The statements of `line` from number `low` on stand in `moved` behind other text, and `j` numbers
later. -/
structure Line.Moved (before : List Char) (j low : Nat) (line moved : Line) : Prop where
  text : moved.text = before ++ line.text
  number : moved.number = line.number
  count : moved.statements.length = line.statements.length + j
  get : ∀ i, low ≤ i →
    moved.statements[i + j]? = line.statements[i]?.map (Statement.shift (byteSize before))

namespace Line.Moved

variable {before : List Char} {j low : Nat} {line moved : Line}

/-- A span of the line holds the text that it holds in the moved one. -/
theorem slice (h : Moved before j low line moved) (span : Span) :
    moved.slice (span.offset (byteSize before)) = line.slice span := by
  unfold Line.slice Span.slice Span.offset
  dsimp only
  rw [h.text, Nat.add_comm span.start, Nat.add_comm span.stop, Text.slice?_add]

theorem params (h : Moved before j low line moved) (s : Statement) :
    moved.params (s.shift (byteSize before)) = line.params s := h.slice ⟨s.param, s.stop⟩

/-- A statement reads the same behind other text. -/
theorem readsAs (h : Moved before j low line moved) (s : Statement) :
    Statement.ReadsAs line s moved (s.shift (byteSize before)) where
  kind := rfl
  error := rfl
  args := by
    rw [Statement.shift, List.map_map]
    exact List.map_congr_left fun span _ => h.slice span

/-- The colon is looked for where the statement stops, in text that has moved as well. -/
theorem hasColon (h : Moved before j low line moved) (s : Statement) :
    moved.hasColon (s.shift (byteSize before)) = line.hasColon s := by
  unfold Line.hasColon Statement.shift
  dsimp only
  rw [h.text, Nat.add_comm s.stop, Text.charAt?_add]

/-- The statements of a range are the same, moved. -/
theorem range (h : Moved before j low line moved) {start : Nat} (hstart : low ≤ start) (stop : Nat) :
    (moved.statements.take (stop + j)).drop (start + j)
      = ((line.statements.take stop).drop start).map (Statement.shift (byteSize before)) := by
  refine List.ext_getElem? fun i => ?_
  rw [List.getElem?_drop, List.getElem?_take, List.getElem?_map, List.getElem?_drop, List.getElem?_take,
    Nat.add_right_comm start j, h.get _ (by omega)]
  simp only [Nat.add_lt_add_iff_right]
  split
  · rfl
  · rfl

end Line.Moved

/-- The other branch is looked for by the kinds of the statements, so it is found the same number of
statements later. -/
theorem Block.inlineElse?_add (depth index j : Nat) {statements moved : List Statement}
    (h : moved.map (·.kind) = statements.map (·.kind)) :
    inlineElse? depth (index + j) moved = (inlineElse? depth index statements).map (· + j) := by
  induction statements generalizing depth index moved with
  | nil =>
    rw [List.map_nil, List.map_eq_nil_iff] at h
    rw [h]
    rfl
  | cons s ss ih =>
    obtain ⟨t, ts, rfl, hkind, htail⟩ := List.map_eq_cons_iff.mp h
    replace hkind : t.kind = s.kind := hkind
    simp only [inlineElse?]
    rw [hkind, Nat.add_right_comm index j]
    split
    · exact ih _ _ htail
    · split
      · rfl
      · exact ih _ _ htail
    · exact ih _ _ htail

/-- The other branch is not before the place where the search starts. -/
theorem Block.le_of_inlineElse? {depth index e : Nat} {statements : List Statement}
    (h : inlineElse? depth index statements = some e) : index ≤ e := by
  induction statements generalizing depth index with
  | nil => cases h
  | cons s ss ih =>
    simp only [inlineElse?] at h
    split at h
    · exact Nat.le_of_succ_le (ih h)
    · split at h
      · cases h
        exact Nat.le_refl _
      · exact Nat.le_of_succ_le (ih h)
    · exact Nat.le_of_succ_le (ih h)

namespace Machine

section Moved

variable {c : Calls} {before : List Char} {j low : Nat} {line moved : Line}

theorem condition_moved (h : line.Moved before j low moved) (c : Calls) (s : Statement) :
    condition c moved (s.shift (byteSize before)) = condition c line s := condition_readsAs (h.readsAs s) c

theorem requireColon_moved (h : line.Moved before j low moved) (s : Statement) :
    requireColon moved (s.shift (byteSize before)) = requireColon line s := by
  unfold requireColon
  rw [h.hasColon]

theorem addAction_moved (h : line.Moved before j low moved) (c : Calls) (s : Statement) (code : List Line) :
    addAction c moved (s.shift (byteSize before)) code = addAction c line s code := by
  unfold addAction
  rw [statementArgs_readsAs (h.readsAs s)]

/-- The code of an action reaches from the colon of the header to that of its last statement, if there is
one. Both places move. -/
theorem inlineCode_moved (h : line.Moved before j low moved) (s last : Statement) :
    inlineCode moved (s.shift (byteSize before)) (last.shift (byteSize before)) = inlineCode line s last := by
  have hstop : (if moved.hasColon (last.shift (byteSize before)) then (last.shift (byteSize before)).stop + 1
        else (last.shift (byteSize before)).stop)
      = byteSize before + (if line.hasColon last then last.stop + 1 else last.stop) := by
    rw [h.hasColon, Statement.shift_stop]
    split <;> omega
  have hstart : (s.shift (byteSize before)).stop + 1 = byteSize before + (s.stop + 1) := by
    rw [Statement.shift_stop]
    omega
  unfold inlineCode
  dsimp only
  rw [hstop, hstart, h.text, Text.slice?_add]

theorem inlineAction_moved (h : line.Moved before j low moved) (c : Calls) {index : Nat} (hindex : low ≤ index)
    (stop : Nat) (s : Statement) :
    inlineAction c moved (index + j) (stop + j) (s.shift (byteSize before))
      = inlineAction c line index stop s := by
  unfold inlineAction
  rw [requireColon_moved h]
  congr 1
  funext _
  by_cases hstop : stop ≤ index + 1
  · rw [if_pos hstop, if_pos (by omega)]
  · have hlast : moved.statements[stop + j - 1]?.getD (s.shift (byteSize before))
        = (line.statements[stop - 1]?.getD s).shift (byteSize before) := by
      rw [Nat.sub_add_comm (by omega : 1 ≤ stop), h.get _ (by omega), Option.getD_map]
    rw [if_neg hstop, if_neg (by omega)]
    dsimp only
    rw [hlast, inlineCode_moved h, addAction_moved h, h.number]

/-- The calls run the statements of both lines alike. -/
def RunsMoved (c : Calls) (j low : Nat) (line moved : Line) : Prop :=
  ∀ start stop, low ≤ start → c.statements moved (start + j) (stop + j) = c.statements line start stop

/-- A conditional in one line runs the same branch of both lines, since both branches stand behind its
header. -/
theorem inlineIf_moved (h : line.Moved before j low moved) (hc : RunsMoved c j low line moved) {index : Nat}
    (hindex : low ≤ index) (stop : Nat) (s : Statement) :
    inlineIf c moved (index + j) (stop + j) (s.shift (byteSize before)) = inlineIf c line index stop s := by
  have hbranch : Block.inlineElse? 0 (index + j + 1) ((moved.statements.take (stop + j)).drop (index + j + 1))
      = (Block.inlineElse? 0 (index + 1) ((line.statements.take stop).drop (index + 1))).map (· + j) := by
    rw [Nat.add_right_comm index j]
    refine Block.inlineElse?_add 0 (index + 1) j ?_
    rw [h.range (by omega) stop, List.map_map]
    rfl
  have hsame (a b : Nat) : (a + j == b + j) = (a == b) := by
    rw [Bool.eq_iff_iff, beq_iff_eq, beq_iff_eq, Nat.add_right_cancel_iff]
  unfold inlineIf
  rw [requireColon_moved h, condition_moved h]
  dsimp only
  rw [hbranch]
  cases he : Block.inlineElse? 0 (index + 1) ((line.statements.take stop).drop (index + 1)) with
  | none =>
    simp only [Option.map_none, Option.getD_none, Nat.add_right_comm _ j, hsame]
    rw [hc _ _ (by omega)]
  | some e =>
    -- both parts lie behind the header, so they are among the statements that are moved
    have hle := Block.le_of_inlineElse? he
    simp only [Option.map_some, Option.getD_some, Nat.add_right_comm _ j, hsame]
    rw [hc _ _ (by omega), hc _ _ (by omega)]

theorem runLoop_moved (h : line.Moved before j low moved) (c : Calls) (s : Statement) (body : Run Flow) :
    runLoop c moved (s.shift (byteSize before)) body = runLoop c line s body := by
  unfold runLoop
  rw [requireColon_moved h, h.params, h.number]

theorem runFor_moved (h : line.Moved before j low moved) (c : Calls) (s : Statement) (body : Run Flow) :
    runFor c moved (s.shift (byteSize before)) body = runFor c line s body := by
  unfold runFor
  rw [requireColon_moved h, h.params]

theorem runSimple_moved (h : line.Moved before j low moved) (c : Calls) (s : Statement) :
    runSimple c moved (s.shift (byteSize before)) = runSimple c line s := runSimple_readsAs (h.readsAs s) c

/-- By induction on the statements: each one does what it did, and the blocks that start at it are the
same. -/
theorem statementsFrom_moved (h : line.Moved before j low moved) (hc : RunsMoved c j low line moved)
    (stop : Nat) {index : Nat} (hindex : low ≤ index) (statements : List Statement) :
    statementsFrom c moved (stop + j) (index + j) (statements.map (Statement.shift (byteSize before)))
      = statementsFrom c line stop index statements := by
  induction statements generalizing index with
  | nil => rfl
  | cons s rest ih =>
    have hbody := hc (index + 1) stop (by omega)
    simp only [List.map_cons, statementsFrom, Statement.shift_kind, inlineIf_moved h hc hindex,
      inlineAction_moved h c hindex, runLoop_moved h, runFor_moved h, runSimple_moved h,
      Nat.add_right_comm index j, hbody, ih (Nat.le_succ_of_le hindex)]

/-- A range of statements is run as it was, if its start has moved. -/
theorem runStatements_moved (h : line.Moved before j low moved) (hc : RunsMoved c j low line moved)
    {start : Nat} (hstart : low ≤ start) (stop : Nat) :
    runStatements c moved (start + j) (stop + j) = runStatements c line start stop := by
  unfold runStatements
  rw [h.count, Nat.add_min_add_right]
  dsimp only
  rw [h.range hstart]
  exact statementsFrom_moved h hc _ hstart _

end Moved

end Machine

/-- **Statements that are moved behind other text run as they did.** -/
theorem Calls.ofFuel_statements_moved {before : List Char} {j low : Nat} {line moved : Line}
    (h : line.Moved before j low moved) (n : Nat) : Machine.RunsMoved (Calls.ofFuel n) j low line moved := by
  induction n with
  | zero => exact fun _ _ _ => rfl
  | succ n ih => exact fun _ stop hstart => Machine.runStatements_moved h ih hstart stop

end QuestScript
