import QuestScript.Proofs.Discipline
import QuestScript.Proofs.Line.Inline

/-!
# Running conditionals on one line

The machine runs a conditional on one line from the flat list of its statements: it looks for the `ELSE` by
counting the `IF`s it passes, and runs a range of the list. `Inline.run` is the run one expects from the tree
of the line: each condition that is reached is evaluated, the part that it chooses is run in a group of its
own, and each statement runs as it would on a line of its own. `Inline.statements_run` says that both are the
same.
-/

namespace QuestScript

open Text (byteSize)

/-! ## Statements between other text -/

namespace Statement

theorem slice_offset {cs : List Char} {span : Span} (h : span.Covers 0 cs) (before after : List Char) :
    (span.offset (byteSize before)).slice (before ++ (cs ++ after)) = span.slice cs := by
  obtain ⟨as, part, bs, rfl, hstart, hstop⟩ := h
  rw [Nat.zero_add] at hstart hstop
  have hout : before ++ (as ++ (part ++ bs) ++ after) = (before ++ as) ++ (part ++ (bs ++ after)) := by simp
  unfold Span.slice Span.offset
  rw [hstart, hstop, Text.slice?_append, hout, Nat.add_comm _ (byteSize before), Nat.add_right_comm _ _ (byteSize before),
    Nat.add_comm (byteSize as) (byteSize before), ← Text.byteSize_append, Text.slice?_append]

/-- The arguments of the statements of a line are parts of it. -/
theorem covers_scan {cs : List Char} {s : Statement} (hs : s ∈ scan cs) : ∀ a ∈ s.args, a.Covers 0 cs := by
  obtain ⟨before, part, after, rfl, hplaced⟩ := (sequence_scan cs).exists_placed s hs
  refine Span.InOrder.covers (.prepend before (.append ?_ after))
  have hargs := hplaced.args
  rwa [hplaced.param] at hargs

/-- A statement reads the same with its line between other text. -/
theorem readsAs_shift {before cs after : List Char} {line : Line} (hline : line.text = before ++ (cs ++ after))
    (number : Nat) {s : Statement} (hs : s ∈ scan cs) :
    ReadsAs (Line.scan cs number) s line (s.shift (byteSize before)) where
  kind := rfl
  error := rfl
  args := by
    rw [shift, List.map_map]
    refine List.map_congr_left fun a ha => ?_
    show (a.offset (byteSize before)).slice line.text = a.slice cs
    rw [hline, slice_offset (covers_scan hs a ha)]

end Statement

open Statement (ReadsAs)

/-! ## The run of the tree -/

namespace Simple

/-- The statement, run on a line of its own. -/
def run (c : Calls) (number : Nat) (s : Simple) : Run Flow :=
  Machine.runStatements c (Line.scan s.text number) 0 1

variable (s : Simple)

theorem scan_text : Statement.scan s.text = [s.statement 0] := by
  have hscan := s.scanAt_alone 0
  rw [Statement.scanAt, Nat.zero_add] at hscan
  rw [Statement.scan, hscan]
  rfl

theorem shift_statement (base : Nat) : (s.statement 0).shift base = s.statement base := by
  unfold statement
  rw [Nat.add_comm base, Nat.zero_add, Statement.first_add]

theorem readsAs {before after : List Char} {line : Line} (hline : line.text = before ++ (s.text ++ after))
    (number : Nat) : ReadsAs (Line.scan s.text number) (s.statement 0) line (s.statement (byteSize before)) := by
  rw [← s.shift_statement (byteSize before)]
  refine Statement.readsAs_shift hline number ?_
  rw [s.scan_text]
  exact List.mem_singleton_self _

end Simple

namespace Condition

/-- The truth of the condition, evaluated in a header of its own. -/
def holds (calls : Calls) (number : Nat) (c : Condition) : Run Bool :=
  Machine.condition calls (Line.scan (c.text ++ [':']) number) (c.statement 0)

variable (c : Condition)

theorem scan_text : Statement.scan (c.text ++ [':']) = [c.statement 0] := by
  have hscan := c.scanAt_alone 0
  rw [Statement.scanAt, Nat.zero_add] at hscan
  rw [Statement.scan, hscan]
  rfl

theorem shift_statement (base : Nat) : (c.statement 0).shift base = c.statement base := by
  unfold statement
  rw [Nat.add_comm base, Nat.zero_add, Statement.first_add]

theorem readsAs {before after : List Char} {line : Line} (hline : line.text = before ++ (c.text ++ ':' :: after))
    (number : Nat) :
    ReadsAs (Line.scan (c.text ++ [':']) number) (c.statement 0) line (c.statement (byteSize before)) := by
  have htext : line.text = before ++ ((c.text ++ [':']) ++ after) := by simp [hline]
  rw [← c.shift_statement (byteSize before)]
  refine Statement.readsAs_shift htext number ?_
  rw [c.scan_text]
  exact List.mem_singleton_self _

theorem hasColon {before after : List Char} {line : Line} (hline : line.text = before ++ (c.text ++ ':' :: after)) :
    line.hasColon (c.statement (byteSize before)) = true := by
  rw [Line.hasColon, hline, c.stop_statement, Text.charAt?_add, Text.charAt?_append]
  rfl

end Condition

namespace Inline

variable {paired : Bool} {cs : List Char}

/-- The run of the code: its statements in order, and of a conditional the part that its condition chooses, in
a group of its own. Each part has one fuel less than the code it stands in. -/
def run (number : Nat) : {paired : Bool} → {cs : List Char} → Inline paired cs → Nat → Run Flow
  | _, _, _, 0 => fun _ => .outOfFuel
  | _, _, last s _ _, n + 1 => s.run (Calls.ofFuel n) number
  | _, _, next s _ rest, n + 1 => do
    match ← s.run (Calls.ofFuel n) number with
    | .next => rest.run number (n + 1)
    | flow => pure flow
  | _, _, ifThen c yes, n + 1 => do
    if ← c.holds (Calls.ofFuel n) number then (yes.run number n).grouped else pure .next
  | _, _, ifElse c yes _ no, n + 1 => do
    if ← c.holds (Calls.ofFuel n) number then (yes.run number n).grouped else (no.run number n).grouped

/-! ## The search for an `ELSE` -/

/-- The number of `IF`s without an `ELSE`. -/
def waiting : {paired : Bool} → {cs : List Char} → Inline paired cs → Nat
  | _, _, last _ _ _ => 0
  | _, _, next _ _ rest => rest.waiting
  | _, _, ifThen _ yes => yes.waiting + 1
  | _, _, ifElse _ _ _ no => no.waiting

theorem waiting_eq_zero (code : Inline paired cs) (h : paired = true) : code.waiting = 0 := by
  induction code with
  | last _ _ _ => rfl
  | next _ _ _ ih => exact ih h
  | ifThen _ _ _ => cases h
  | ifElse _ _ _ _ _ ihno => exact ihno h

/-- The search passes over code, and leaves its `IF`s without an `ELSE` behind. -/
theorem inlineElse?_append (code : Inline paired cs) (base depth index : Nat) (rest : List Statement) :
    Block.inlineElse? depth index (code.statements base ++ rest)
      = Block.inlineElse? (depth + code.waiting) (index + (code.statements base).length) rest := by
  have hsimple (s : Simple) (base depth index : Nat) (ss : List Statement) :
      Block.inlineElse? depth index (s.statement base :: ss) = Block.inlineElse? depth (index + 1) ss := by
    have hkind := s.isSimple_kind base
    rw [Block.inlineElse?.eq_def]
    dsimp only
    split
    · next h =>
      rw [h] at hkind
      cases hkind
    · next h =>
      rw [h] at hkind
      cases hkind
    · rfl
  have hcondition (c : Condition) (base depth index : Nat) (ss : List Statement) :
      Block.inlineElse? depth index (c.statement base :: ss) = Block.inlineElse? (depth + 1) (index + 1) ss := by
    rw [Block.inlineElse?.eq_def]
    simp only [c.kind_statement]
  have helse (start depth index : Nat) (joint code : List Char) (ss : List Statement) :
      Block.inlineElse? (depth + 1) index (Joint.statement start joint code :: ss)
        = Block.inlineElse? depth (index + 1) ss := rfl
  induction code generalizing base depth index rest with
  | last s _ _ => exact hsimple s base depth index rest
  | next s _ _ ih =>
    rw [statements, List.cons_append, hsimple, ih, List.length_cons, waiting, Nat.add_right_comm index]
    rfl
  | ifThen c _ ih =>
    rw [statements, List.cons_append, hcondition, ih, List.length_cons, waiting, Nat.add_right_comm depth,
      Nat.add_right_comm index]
    rfl
  | @ifElse c as bs joint _ yes _ no ihyes ihno =>
    have hflat : statements base (ifElse c yes ‹_› no) ++ rest
        = c.statement base :: (yes.statements (base + byteSize c.text + 1)
          ++ Joint.statement (base + byteSize c.text + 1 + byteSize as) joint bs
            :: (no.statements (base + byteSize c.text + 1 + byteSize as + 4 + byteSize joint) ++ rest)) := by
      rw [statements]
      simp
    rw [hflat, hcondition, ihyes, yes.waiting_eq_zero rfl, Nat.add_zero, helse, ihno, waiting, statements]
    congr 1
    simp only [List.length_cons, List.length_append]
    omega

end Inline

/-! ## The run of the list -/

namespace Machine

variable {line : Line} {s : Statement}

/-- A statement that is no header runs, and then those behind it. -/
theorem statementsFrom_simple (c : Calls) (line : Line) (stop index : Nat) (hkind : s.kind.isSimple = true)
    (rest : List Statement) :
    statementsFrom c line stop index (s :: rest) = (do
      match ← runSimple c line s with
      | .next => statementsFrom c line stop (index + 1) rest
      | flow => pure flow) := by
  have hne {kind : StatementKind} (hk : kind.isSimple = false) : ¬ s.kind = kind := by
    rintro rfl
    rw [hkind] at hk
    cases hk
  rw [statementsFrom.eq_def]
  dsimp only
  split
  · next h => exact absurd h (hne rfl)
  · next h => exact absurd h (hne rfl)
  · next h => exact absurd h (hne rfl)
  · next h => exact absurd h (hne rfl)
  · next h => exact absurd h (hne rfl)
  · next h => exact absurd h (hne rfl)
  · rfl

/-- The last of some statements decides how they end. -/
theorem statementsFrom_single (c : Calls) (line : Line) (stop index : Nat) (hkind : s.kind.isSimple = true) :
    statementsFrom c line stop index [s] = runSimple c line s := by
  have hflow : (fun flow => match flow with
      | .next => statementsFrom c line stop (index + 1) []
      | flow => pure flow) = (pure : Flow → Run Flow) := by
    funext flow
    cases flow <;> rfl
  rw [statementsFrom_simple c line stop index hkind, hflow, bind_pure]

/-- A statement that is no header runs the same on a line of its own. -/
theorem runStatements_alone (c : Calls) (hline : line.statements = [s]) (hkind : s.kind.isSimple = true) :
    runStatements c line 0 1 = runSimple c line s := by
  have hrange : runStatements c line 0 1 = statementsFrom c line 1 0 [s] := by
    rw [runStatements, hline]
    rfl
  rw [hrange, statementsFrom_single c line 1 0 hkind]

/-- What a conditional does when its parts are not empty. -/
theorem inlineIf_of_branch (c : Calls) {index stop : Nat} {branch : Option Nat} (hcolon : line.hasColon s = true)
    (hbranch : Block.inlineElse? 0 (index + 1) ((line.statements.take stop).drop (index + 1)) = branch)
    (hyes : branch.getD stop ≠ index + 1) (hno : ∀ e ∈ branch, e + 1 ≠ stop) :
    inlineIf c line index stop s = (do
      if ← condition c line s then (c.statements line (index + 1) (branch.getD stop)).grouped
      else
        match branch with
        | some e => (c.statements line (e + 1) stop).grouped
        | none => pure .next) := by
  unfold inlineIf requireColon
  rw [if_pos hcolon, hbranch, pure_bind]
  cases branch with
  | none =>
    rw [Option.getD_none] at hyes
    simp [hyes.symm]
  | some e =>
    rw [Option.getD_some] at hyes
    simp [hyes, hno e rfl]

end Machine

namespace Line

/-- Statements stand on a line from number `index` on. -/
def HasAt (line : Line) (index : Nat) (ss : List Statement) : Prop :=
  ∃ pre post, line.statements = pre ++ (ss ++ post) ∧ pre.length = index

namespace HasAt

variable {line : Line} {index : Nat} {ss : List Statement}

theorem part (h : line.HasAt index ss) (pre : List Statement) {part : List Statement} (post : List Statement)
    {i : Nat} (hss : ss = pre ++ (part ++ post)) (hi : i = index + pre.length) : line.HasAt i part := by
  obtain ⟨before, after, hline, rfl⟩ := h
  exact ⟨before ++ pre, post ++ after, by rw [hline, hss]; simp, by rw [hi, List.length_append]⟩

theorem range (h : line.HasAt index ss) : (line.statements.take (index + ss.length)).drop index = ss := by
  obtain ⟨pre, post, hline, rfl⟩ := h
  rw [hline, List.take_length_add_append, List.take_left, List.drop_left]

theorem statements (h : line.HasAt index ss) (n : Nat) :
    (Calls.ofFuel (n + 1)).statements line index (index + ss.length)
      = Machine.statementsFrom (Calls.ofFuel n) line (index + ss.length) index ss := by
  have hle : index + ss.length ≤ line.statements.length := by
    obtain ⟨pre, post, hline, rfl⟩ := h
    rw [hline, List.length_append, List.length_append]
    omega
  show Machine.runStatements _ _ _ _ = _
  unfold Machine.runStatements
  dsimp only
  rw [Nat.min_eq_left hle, h.range]

end HasAt

end Line

namespace Inline

open Machine
open Statement (Stands)

variable {paired : Bool} {cs : List Char} {number : Nat}

/-- Code runs as its tree does wherever it stands on a line. -/
def RunsAs (number : Nat) (code : Inline paired cs) : Prop :=
  ∀ (line : Line) (base index : Nat), Stands line.text base cs → line.HasAt index (code.statements base) →
    ∀ n, statementsFrom (Calls.ofFuel n) line (index + (code.statements base).length) index (code.statements base)
      = code.run number (n + 1)

/-- The calls run the code as its tree does. -/
theorem RunsAs.statements {code : Inline paired cs} (h : RunsAs number code) {line : Line} {base index : Nat}
    (htext : Stands line.text base cs) (hline : line.HasAt index (code.statements base)) (n : Nat) :
    (Calls.ofFuel n).statements line index (index + (code.statements base).length) = code.run number n := by
  cases n with
  | zero =>
    rw [Inline.run]
    rfl
  | succ n => rw [hline.statements, h line base index htext hline]

theorem runSimple_eq (s : Simple) (c : Calls) (number : Nat) {line : Line} {base : Nat}
    (htext : Stands line.text base s.text) : runSimple c line (s.statement base) = s.run c number := by
  obtain ⟨before, after, htext, rfl⟩ := htext
  rw [runSimple_readsAs (s.readsAs htext number)]
  exact (runStatements_alone c s.scan_text (s.isSimple_kind 0)).symm

theorem runsAs_last (s : Simple) (parted : paired = true → s.Parted) : RunsAs number (last s paired parted) := by
  intro line base index htext hline n
  rw [statements, statementsFrom_single _ _ _ _ (s.isSimple_kind _), runSimple_eq s _ number htext, run]

theorem runsAs_next (s : Simple) (closed : s.Closed) {rest : Inline paired cs} (hrest : RunsAs number rest) :
    RunsAs number (next s closed rest) := by
  intro line base index htext hline n
  have hs : Stands line.text base s.text := htext.part [] ('&' :: cs) rfl rfl
  have hcode : Stands line.text (base + byteSize s.text + 1) cs := by
    refine htext.part (s.text ++ ['&']) [] (by simp) ?_
    rw [Text.byteSize_append, ← Nat.add_assoc]
    rfl
  have hstatements : line.HasAt (index + 1) (rest.statements (base + byteSize s.text + 1)) :=
    hline.part [s.statement base] [] (by rw [statements, List.append_nil]; rfl) rfl
  have hgo := hrest line _ _ hcode hstatements n
  rw [statements, statementsFrom_simple _ _ _ _ (s.isSimple_kind _), runSimple_eq s _ number hs, run, ← hgo,
    List.length_cons, Nat.add_assoc index 1, Nat.add_comm 1]

/-- The header of a conditional chooses one of the parts behind it. -/
theorem statementsFrom_condition (c : Condition) (calls : Calls) (number : Nat) {line : Line} {base index : Nat}
    (htext : Stands line.text base (c.text ++ [':'])) {part : List Statement} (hline : line.HasAt (index + 1) part)
    {branch : Option Nat} (hbranch : Block.inlineElse? 0 (index + 1) part = branch)
    (hyes : branch.getD (index + 1 + part.length) ≠ index + 1)
    (hno : ∀ e ∈ branch, e + 1 ≠ index + 1 + part.length) :
    statementsFrom calls line (index + 1 + part.length) index (c.statement base :: part) = (do
      if ← c.holds calls number then
        (calls.statements line (index + 1) (branch.getD (index + 1 + part.length))).grouped
      else
        match branch with
        | some e => (calls.statements line (e + 1) (index + 1 + part.length)).grouped
        | none => pure .next) := by
  obtain ⟨before, after, htext, rfl⟩ := htext
  rw [List.append_assoc, List.singleton_append] at htext
  have hif : statementsFrom calls line (index + 1 + part.length) index (c.statement (byteSize before) :: part)
      = inlineIf calls line index (index + 1 + part.length) (c.statement (byteSize before)) := by
    rw [statementsFrom.eq_def]
    simp only [c.kind_statement]
  rw [hif, inlineIf_of_branch calls (c.hasColon htext) (by rw [hline.range, hbranch]) hyes hno,
    condition_readsAs (c.readsAs htext number)]
  rfl

theorem runsAs_ifThen (c : Condition) {yes : Inline paired cs} (hyes : RunsAs number yes) :
    RunsAs number (ifThen c yes) := by
  intro line base index htext hline n
  have hheader : Stands line.text base (c.text ++ [':']) := htext.part [] cs (by simp) rfl
  have hcode : Stands line.text (base + byteSize c.text + 1) cs := by
    refine htext.part (c.text ++ [':']) [] (by simp) ?_
    rw [Text.byteSize_append, ← Nat.add_assoc]
    rfl
  have hstatements : line.HasAt (index + 1) (yes.statements (base + byteSize c.text + 1)) :=
    hline.part [c.statement base] [] (by rw [statements, List.append_nil]; rfl) rfl
  have hrun := hyes.statements hcode hstatements n
  have hbranch := yes.inlineElse?_append (base + byteSize c.text + 1) 0 (index + 1) []
  have hpos := List.length_pos_iff.mpr (yes.statements_ne_nil (base + byteSize c.text + 1))
  rw [List.append_nil, Block.inlineElse?] at hbranch
  have hif := statementsFrom_condition c (Calls.ofFuel n) number hheader hstatements hbranch
    (by rw [Option.getD_none]; omega) (fun e he => by cases he)
  rw [statements, run, List.length_cons, Nat.add_comm _ 1, ← Nat.add_assoc, hif, Option.getD_none, hrun]

theorem runsAs_ifElse (c : Condition) {as bs joint : List Char} {yes : Inline true as} {no : Inline paired bs}
    (between : Joint joint bs) (hyes : RunsAs number yes) (hno : RunsAs number no) :
    RunsAs number (ifElse c yes between no) := by
  intro line base index htext hline n
  have hheader : Stands line.text base (c.text ++ [':']) :=
    htext.part [] (as ++ ("ELSE".toList ++ (joint ++ bs))) (by simp) rfl
  have hcode : Stands line.text (base + byteSize c.text + 1) as := by
    refine htext.part (c.text ++ [':']) ("ELSE".toList ++ (joint ++ bs)) (by simp) ?_
    rw [Text.byteSize_append, ← Nat.add_assoc]
    rfl
  have hcode' : Stands line.text (base + byteSize c.text + 1 + byteSize as + 4 + byteSize joint) bs := by
    refine htext.part (c.text ++ [':'] ++ as ++ "ELSE".toList ++ joint) [] (by simp) ?_
    have hcolon : byteSize [':'] = 1 := rfl
    have hword : byteSize "ELSE".toList = 4 := rfl
    simp only [Text.byteSize_append]
    omega
  have hrunYes {i : Nat} (h : line.HasAt i (yes.statements (base + byteSize c.text + 1))) :=
    hyes.statements hcode h n
  have hrunNo {i : Nat}
      (h : line.HasAt i (no.statements (base + byteSize c.text + 1 + byteSize as + 4 + byteSize joint))) :=
    hno.statements hcode' h n
  have hbranch := yes.inlineElse?_append (base + byteSize c.text + 1) 0 (index + 1)
  have hpos := List.length_pos_iff.mpr (yes.statements_ne_nil (base + byteSize c.text + 1))
  have hpos' := List.length_pos_iff.mpr
    (no.statements_ne_nil (base + byteSize c.text + 1 + byteSize as + 4 + byteSize joint))
  have helse (i start : Nat) (ss : List Statement) :
      Block.inlineElse? 0 i (Joint.statement start joint bs :: ss) = some i := rfl
  rw [yes.waiting_eq_zero rfl] at hbranch
  rw [statements] at hline ⊢
  rw [run]
  -- the offsets have done their work
  generalize yes.statements _ = ys at *
  generalize no.statements _ = ns at *
  replace hbranch := (hbranch _).trans (helse _ (base + byteSize c.text + 1 + byteSize as) ns)
  generalize Joint.statement _ joint bs = e at *
  have hlength : (ys ++ e :: ns).length = ys.length + 1 + ns.length := by
    rw [List.length_append, List.length_cons, Nat.add_comm ns.length, Nat.add_assoc]
  have hpart : line.HasAt (index + 1) (ys ++ e :: ns) := hline.part [c.statement base] [] (by simp) rfl
  have hyesAt : line.HasAt (index + 1) ys := hpart.part [] (e :: ns) rfl rfl
  have hnoAt : line.HasAt (index + 1 + ys.length + 1) ns := hpart.part (ys ++ [e]) [] (by simp) (by simp; omega)
  have hif := statementsFrom_condition c (Calls.ofFuel n) number hheader hpart hbranch
    (by rw [Option.getD_some]; omega) (by rintro _ ⟨⟩; omega)
  have hstop : index + (c.statement base :: (ys ++ e :: ns)).length = index + 1 + (ys ++ e :: ns).length := by
    rw [List.length_cons]
    omega
  rw [hstop, hif, Option.getD_some, hrunYes hyesAt]
  simp only [hlength, ← Nat.add_assoc, hrunNo hnoAt]

/-- Code runs as its tree does. -/
theorem runsAs (number : Nat) (code : Inline paired cs) : RunsAs number code := by
  induction code with
  | last s _ parted => exact runsAs_last s parted
  | next s closed _ ih => exact runsAs_next s closed ih
  | ifThen c _ ih => exact runsAs_ifThen c ih
  | ifElse c _ between _ ihyes ihno => exact runsAs_ifElse c between ihyes ihno

/-- **A conditional on one line runs the statements that its conditions select.** -/
theorem statements_run (code : Inline paired cs) (number n : Nat) :
    (Calls.ofFuel n).statements (Line.scan cs number) 0 (Line.scan cs number).statements.length
      = code.run number n := by
  have htext : Stands (Line.scan cs number).text 0 cs := ⟨[], [], (List.append_nil cs).symm, rfl⟩
  have hline : (Line.scan cs number).HasAt 0 (code.statements 0) :=
    ⟨[], [], by rw [List.append_nil]; exact code.statements_scan number, rfl⟩
  have hrun := (runsAs number code).statements htext hline n
  rwa [Nat.zero_add, ← code.statements_scan number] at hrun

/-- The line of the introduction: the first `ELSE` belongs to the second `IF`. -/
example : Nonempty (Inline false "IF A: IF B: *P 1 & *P 2 ELSE *P 3 ELSE *P 4".toList) := by
  let simple (core : String) (starts : ∃ c ∈ core.toList.head?, Text.isBlank c = false)
      (kind : (StatementKind.ofText core.toList).1.isSimple = true)
      (noAmpersand : Text.delimiterPos? core.toList '&' = none)
      (noElse : Text.wordPos? core.toList "ELSE".toList true = none) : Simple :=
    ⟨[' '], core.toList, List.all_eq_true.mp rfl, starts, kind, noAmpersand, noElse⟩
  let outer : Condition := ⟨[], " A".toList, List.all_eq_true.mp rfl, by decide, by decide, by decide +kernel⟩
  let inner : Condition := ⟨[' '], " B".toList, List.all_eq_true.mp rfl, by decide, by decide, by decide +kernel⟩
  let one := simple "*P 1 " ⟨'*', rfl, rfl⟩ (by decide +kernel) (by decide +kernel) (by decide +kernel)
  let two := simple "*P 2 " ⟨'*', rfl, rfl⟩ (by decide +kernel) (by decide +kernel) (by decide +kernel)
  let three := simple "*P 3 " ⟨'*', rfl, rfl⟩ (by decide +kernel) (by decide +kernel) (by decide +kernel)
  let four := simple "*P 4" ⟨'*', rfl, rfl⟩ (by decide +kernel) (by decide +kernel) (by decide +kernel)
  have hclosed : one.Closed := by decide
  have htwo : two.Parted := ⟨by decide, fun _ hlast => by cases hlast; rfl⟩
  have hthree : three.Parted := ⟨by decide, fun _ hlast => by cases hlast; rfl⟩
  exact ⟨ifElse outer
    (ifElse inner (next one hclosed (last two true fun _ => htwo)) (.plain rfl (by decide))
      (last three true fun _ => hthree))
    (.plain rfl (by decide)) (last four false nofun)⟩

end Inline

end QuestScript
