import QuestScript.Proofs.Line.Statement
import QuestScript.Proofs.Text.Trim

/-!
# Where statements and arguments stand

The scan keeps statements and arguments as offsets into the text of a line. `Span.InOrder` says what good
offsets are: read from left to right, each span covers a part of the text that the ones before it have
left. So a span stays inside the text, its bounds are between two characters, and no two spans overlap.

The arguments of a statement lie in order in its parameters (`inOrder_ofParams`), and the statements of a
line in its text (`placed_scan`).
-/

namespace QuestScript

open Text (byteSize delimiterPos? cutAtDelimiter? leadingBlanks dropBlanks isBlank trim)

/-! ## Spans in order -/

/-- Byte `n` of a text is at one of its ends or between two characters. -/
def Text.IsBoundary (cs : List Char) (n : Nat) : Prop := ∃ before after, cs = before ++ after ∧ byteSize before = n

namespace Span

/-- A span of a text that starts at byte `base` covers a part of it. -/
def Covers (base : Nat) (cs : List Char) (s : Span) : Prop :=
  ∃ before part after, cs = before ++ (part ++ after) ∧ s.start = base + byteSize before ∧
    s.stop = base + byteSize before + byteSize part

/-- Spans of a text that starts at byte `base`, from left to right. -/
inductive InOrder : Nat → List Char → List Span → Prop
  | nil (base : Nat) (cs : List Char) : InOrder base cs []
  | cons {base : Nat} {spans : List Span} (before part : List Char) {after : List Char}
      (rest : InOrder (base + byteSize before + byteSize part) after spans) :
      InOrder base (before ++ (part ++ after))
        (⟨base + byteSize before, base + byteSize before + byteSize part⟩ :: spans)

variable {base : Nat} {cs : List Char} {s : Span} {spans : List Span}

theorem Covers.prepend (as : List Char) (h : Covers (base + byteSize as) cs s) : Covers base (as ++ cs) s := by
  obtain ⟨before, part, after, rfl, hstart, hstop⟩ := h
  refine ⟨as ++ before, part, after, by simp, ?_, ?_⟩
  · rw [hstart, Text.byteSize_append, Nat.add_assoc]
  · rw [hstop, Text.byteSize_append, Nat.add_assoc base]

theorem Covers.bounds (h : Covers base cs s) :
    base ≤ s.start ∧ s.start ≤ s.stop ∧ s.stop ≤ base + byteSize cs := by
  obtain ⟨before, part, after, rfl, hstart, hstop⟩ := h
  rw [Text.byteSize_append, Text.byteSize_append]
  omega

/-- Both bounds of a span are between two characters, whatever stands before and behind the text. -/
theorem Covers.isBoundary (h : Covers base cs s) {as : List Char} (has : byteSize as = base) (bs : List Char) :
    Text.IsBoundary (as ++ (cs ++ bs)) s.start ∧ Text.IsBoundary (as ++ (cs ++ bs)) s.stop := by
  obtain ⟨before, part, after, rfl, hstart, hstop⟩ := h
  refine ⟨⟨as ++ before, part ++ (after ++ bs), by simp, ?_⟩, ⟨as ++ before ++ part, after ++ bs, by simp, ?_⟩⟩
  · rw [hstart, Text.byteSize_append, has]
  · rw [hstop, Text.byteSize_append, Text.byteSize_append, has]

namespace InOrder

/-- `cons` with the offsets given by equations. -/
theorem span (before part after : List Char) (hcs : cs = before ++ (part ++ after))
    (hstart : s.start = base + byteSize before) (hstop : s.stop = s.start + byteSize part)
    (rest : InOrder s.stop after spans) : InOrder base cs (s :: spans) := by
  obtain ⟨start, stop⟩ := s
  dsimp only at hstart hstop rest
  subst hcs hstart hstop
  exact .cons before part rest

theorem covers (h : InOrder base cs spans) : ∀ s ∈ spans, Covers base cs s := by
  induction h with
  | nil => simp
  | @cons base spans before part after _ ih =>
    intro s hs
    rcases List.mem_cons.mp hs with rfl | hs
    · exact ⟨before, part, after, rfl, rfl, rfl⟩
    · rw [← List.append_assoc]
      refine Covers.prepend (before ++ part) ?_
      rw [Text.byteSize_append, ← Nat.add_assoc]
      exact ih s hs

/-- No span starts before the ones on its left have stopped. -/
theorem pairwise (h : InOrder base cs spans) : spans.Pairwise fun a b => a.stop ≤ b.start := by
  induction h with
  | nil => exact .nil
  | cons before part hrest ih => exact .cons (fun b hb => (hrest.covers b hb).bounds.1) ih

theorem prepend (as : List Char) (h : InOrder (base + byteSize as) cs spans) : InOrder base (as ++ cs) spans := by
  cases h with
  | nil => exact .nil base _
  | @cons _ spans before part after rest =>
    have hsize : base + byteSize as + byteSize before = base + byteSize (as ++ before) := by
      rw [Text.byteSize_append, Nat.add_assoc]
    rw [hsize] at rest ⊢
    rw [← List.append_assoc]
    exact .cons (as ++ before) part rest

theorem append (h : InOrder base cs spans) (bs : List Char) : InOrder base (cs ++ bs) spans := by
  induction h with
  | nil => exact .nil _ _
  | cons before part _ ih =>
    rw [List.append_assoc, List.append_assoc]
    exact .cons before part ih

end InOrder

end Span

open QuestScript.Span (InOrder)

/-! ## Cuts of a text -/

namespace Text

variable {cs as bs : List Char} {ch : Char}

theorem cutAtDelimiter?_eq_some (hch : isQuote ch = false) (h : cutAtDelimiter? cs ch = some (as, bs)) :
    cs = as ++ ch :: bs := by
  unfold cutAtDelimiter? at h
  split at h
  · cases h
  · next pos hpos =>
    obtain ⟨before, after, rfl, rfl⟩ := Statement.exists_of_delimiterPos? hch hpos
    rw [splitBytes_append] at h
    cases h
    rfl

end Text

/-! ## Arguments -/

namespace Statement

theorem inOrder_trimmedSpan (base : Nat) (cs : List Char) {rest : List Char} {spans : List Span}
    (h : InOrder (base + byteSize cs) rest spans) :
    InOrder base (cs ++ rest) (trimmedSpan base cs :: spans) := by
  obtain ⟨after, hcs, -⟩ := Text.exists_trim cs
  have hsize : byteSize cs = leadingBlanks cs + (byteSize (trim cs) + byteSize after) := by
    conv_lhs => rw [hcs]
    rw [Text.byteSize_append, Text.byteSize_append, byteSize_takeWhile_isBlank]
  have htext : cs ++ rest = cs.takeWhile isBlank ++ (trim cs ++ (after ++ rest)) := by
    conv_lhs => rw [hcs]
    simp
  refine .span _ _ _ htext ?_ rfl (.prepend after ?_)
  · rw [byteSize_takeWhile_isBlank]
    rfl
  · have hstop : (trimmedSpan base cs).stop + byteSize after = base + byteSize cs := by
      simp only [trimmedSpan]
      omega
    rwa [hstop]

/-- The names of an assignment are all that stands before its sign. -/
theorem exists_sign (before : List Char) :
    ∃ op, before = (if before.getLast?.any isCompound then before.dropLast else before) ++ op ∧
      byteSize op = if before.getLast?.any isCompound then 1 else 0 := by
  by_cases h : before.getLast?.any isCompound = true
  · rw [if_pos h, if_pos h]
    obtain ⟨c, hlast, hc⟩ := (Option.any_eq_true _ _).mp h
    obtain ⟨names, rfl⟩ := List.getLast?_eq_some_iff.mp hlast
    refine ⟨[c], by simp, ?_⟩
    have hop : c = '+' ∨ c = '-' ∨ c = '*' ∨ c = '/' := by simpa [isCompound, or_assoc] using hc
    rcases hop with rfl | rfl | rfl | rfl <;> rfl
  · rw [if_neg h, if_neg h]
    exact ⟨[], by simp, rfl⟩

theorem inOrder_assignmentArgs (base : Nat) (cs : List Char) :
    InOrder base cs (assignmentArgs base cs).1 := by
  have hblanks : cs = cs.takeWhile isBlank ++ dropBlanks cs := List.takeWhile_append_dropWhile.symm
  rw [hblanks]
  refine .prepend _ ?_
  rw [← hblanks, byteSize_takeWhile_isBlank]
  unfold assignmentArgs
  dsimp only
  split
  · next before after hcut =>
    obtain ⟨op, hbefore, hop⟩ := exists_sign before
    have hsize := congrArg byteSize hbefore
    rw [Text.byteSize_append] at hsize
    rw [Text.cutAtDelimiter?_eq_some (by decide) hcut]
    conv => arg 2; rw [hbefore, List.append_assoc]
    generalize (if before.getLast?.any isCompound then before.dropLast else before) = names at hsize
    generalize base + leadingBlanks cs = start
    have hvalues : InOrder (start + byteSize before + 1) after
        [trimmedSpan (start + byteSize before + 1) after] := by
      have h := inOrder_trimmedSpan (start + byteSize before + 1) after (.nil _ [])
      rwa [List.append_nil] at h
    refine inOrder_trimmedSpan start names (.span [] (op ++ ['=']) after ?_ ?_ ?_ hvalues)
    · simp
    · dsimp only
      rw [Text.byteSize_nil, Nat.add_zero]
      split at hop
      · next h => rw [if_pos h]; omega
      · next h => rw [if_neg h]; omega
    · dsimp only
      rw [Text.byteSize_append]
      show start + byteSize before + 1 = _ + (byteSize op + 1)
      split at hop
      · next h => rw [if_pos h]; omega
      · next h => rw [if_neg h]; omega
  · have h := inOrder_trimmedSpan (base + leadingBlanks cs) (dropBlanks cs) (.nil _ [])
    rwa [List.append_nil] at h

theorem inOrder_separatedArgs (room pos : Nat) (cs : List Char) :
    InOrder pos cs (separatedArgs room pos cs).1 := by
  induction room generalizing pos cs with
  | zero => exact .nil pos cs
  | succ room ih =>
    rw [separatedArgs]
    split
    · exact .span [] cs [] (by simp) rfl rfl (.nil _ _)
    · next before after hcut =>
      rw [Text.cutAtDelimiter?_eq_some (by decide) hcut]
      dsimp only
      split
      · exact .span [] before _ rfl rfl rfl (.nil _ _)
      · refine .span [] before _ rfl rfl rfl ?_
        have hafter : ',' :: after = ',' :: after.takeWhile isBlank ++ dropBlanks after := by
          rw [List.cons_append, dropBlanks, List.takeWhile_append_dropWhile]
        rw [hafter]
        refine .prepend _ ?_
        have hsize : byteSize (',' :: after.takeWhile isBlank) = 1 + leadingBlanks after := by
          rw [Text.byteSize_cons, byteSize_takeWhile_isBlank]
          rfl
        rw [hsize, ← Nat.add_assoc]
        exact ih _ _

/-- What stands in the brackets is a part of the text. -/
theorem covers_stripBrackets? {base pos : Nat} {cs body : List Char}
    (h : stripBrackets? base cs = some (pos, body)) :
    ∃ before after, cs = before ++ (body ++ after) ∧ pos = base + byteSize before := by
  have hblanks : cs = cs.takeWhile isBlank ++ dropBlanks cs := List.takeWhile_append_dropWhile.symm
  have hsize := byteSize_takeWhile_isBlank cs
  have hwhole : ∃ before after, cs = before ++ (dropBlanks cs ++ after) ∧
      base + leadingBlanks cs = base + byteSize before :=
    ⟨cs.takeWhile isBlank, [], by rw [List.append_nil]; exact hblanks, by rw [hsize]⟩
  unfold stripBrackets? at h
  dsimp only at h
  split at h
  · next rest hrest =>
    split at h
    · cases h
    · next inner after hcut =>
      have hbody := Text.cutAtDelimiter?_eq_some (by decide) hcut
      split at h
      · cases h
        exact hwhole
      · cases h
        rw [hrest] at hbody
        cases inner with
        | nil => cases hbody
        | cons c inner =>
          cases hbody
          refine ⟨cs.takeWhile isBlank ++ '(' :: inner.takeWhile isBlank, ')' :: after, ?_, ?_⟩
          · have hinner : inner.takeWhile isBlank ++ dropBlanks inner = inner :=
              List.takeWhile_append_dropWhile
            conv_lhs => rw [hblanks, hrest, ← hinner]
            simp
          · rw [Text.byteSize_append, Text.byteSize_cons, hsize, byteSize_takeWhile_isBlank]
            show base + leadingBlanks cs + 1 + leadingBlanks inner = _
            have hbracket : '('.utf8Size = 1 := rfl
            omega
  · cases h
    exact hwhole

theorem inOrder_regularArgs (kind : StatementKind) (base : Nat) (cs : List Char) :
    InOrder base cs (regularArgs kind base cs).1 := by
  unfold regularArgs
  split
  · exact .nil base cs
  · next pos body hstrip =>
    obtain ⟨before, after, rfl, rfl⟩ := covers_stripBrackets? hstrip
    dsimp only
    split
    · exact .nil base _
    · exact .prepend before ((inOrder_separatedArgs _ _ body).append after)

theorem args_ofParams (kind : StatementKind) (param : Nat) (cs : List Char) :
    (ofParams kind param cs).args = [] ∨ (ofParams kind param cs).args = (assignmentArgs param cs).1 ∨
      (ofParams kind param cs).args = (regularArgs kind param cs).1 := by
  cases kind <;> simp [ofParams]

/-- The arguments of a statement lie in order in its parameters. -/
theorem inOrder_ofParams (kind : StatementKind) (param : Nat) (cs : List Char) :
    InOrder param cs (ofParams kind param cs).args := by
  rcases args_ofParams kind param cs with h | h | h
  · rw [h]
    exact .nil param cs
  · rw [h]
    exact inOrder_assignmentArgs param cs
  · rw [h]
    exact inOrder_regularArgs kind param cs

theorem param_ofParams (kind : StatementKind) (param : Nat) (cs : List Char) :
    (ofParams kind param cs).param = param := by
  unfold ofParams
  split
  rfl

/-! ## Parts of a text -/

/-- A part of a text starts at byte `base`. -/
def Stands (text : List Char) (base : Nat) (cs : List Char) : Prop :=
  ∃ before after, text = before ++ (cs ++ after) ∧ byteSize before = base

namespace Stands

variable {text cs : List Char} {base : Nat}

theorem part (h : Stands text base cs) (as : List Char) {bs : List Char} (ds : List Char) {pos : Nat}
    (hcs : cs = as ++ (bs ++ ds)) (hpos : pos = base + byteSize as) : Stands text pos bs := by
  obtain ⟨before, after, rfl, rfl⟩ := h
  refine ⟨before ++ as, ds ++ after, by rw [hcs]; simp, ?_⟩
  rw [hpos, Text.byteSize_append]

theorem slice (h : Stands text base cs) : Text.slice? text base (base + byteSize cs) = some cs := by
  obtain ⟨before, after, rfl, rfl⟩ := h
  exact Text.slice?_append before cs after

end Stands

/-! ## Statements -/

/-- A statement of a text that starts at byte `start`: its parameters are a part of the text, and its
arguments lie in order in them. -/
structure Placed (start : Nat) (before part : List Char) (s : Statement) : Prop where
  param : s.param = start + byteSize before
  stop : s.stop = s.param + byteSize part
  args : InOrder s.param part s.args

theorem placed_ofParams (kind : StatementKind) (start : Nat) (before part : List Char) :
    Placed start before part (ofParams kind (start + byteSize before) part) where
  param := param_ofParams _ _ _
  stop := by rw [stop_ofParams, param_ofParams]
  args := by
    rw [param_ofParams]
    exact inOrder_ofParams _ _ _

/-- A text can be cut at the end of another one with the same start, or at its own end if that comes
first. -/
theorem exists_cut {cs as text : List Char} (has : as <+: cs) (htext : text <+: cs) :
    ∃ before part, text = before ++ part ∧ byteSize before = min (byteSize as) (byteSize text) := by
  rcases List.prefix_or_prefix_of_prefix has htext with ⟨rest, rfl⟩ | ⟨rest, rfl⟩
  · exact ⟨as, rest, rfl, by rw [Text.byteSize_append]; omega⟩
  · exact ⟨text, [], (List.append_nil _).symm, by rw [Text.byteSize_append]; omega⟩

/-- The parameters of a statement are what its text has behind the keyword. -/
theorem placed_params (kind : StatementKind) (start : Nat) {cs as text : List Char} (has : as <+: cs)
    (htext : text <+: cs) :
    ∃ before part, text = before ++ part ∧
      Placed start before part (ofParams kind (start + min (byteSize as) (byteSize text))
        (Text.dropBytes text (min (byteSize as) (byteSize text)))) := by
  obtain ⟨before, part, rfl, hsize⟩ := exists_cut has htext
  refine ⟨before, part, rfl, ?_⟩
  rw [← hsize, Text.dropBytes, Text.splitBytes_append]
  exact placed_ofParams kind start before part

/-- The first statement of a text is placed in the text before its cut. -/
theorem placed_first (start : Nat) (cs : List Char) :
    ∃ before part, Statement.before (first start cs).2.stop cs = before ++ part ∧
      Placed start before part (first start cs).1 := by
  unfold first
  rcases hk : StatementKind.ofText cs with ⟨kind, keyword⟩
  cases keyword with
  | none =>
    dsimp only
    split
    · exact ⟨[], cs, rfl, placed_ofParams kind start [] cs⟩
    · exact placed_params _ start List.nil_prefix (isPrefix_before _ cs)
  | some n =>
    obtain ⟨as, has, -, hsize⟩ := exists_params hk
    dsimp only
    rw [← hsize]
    split
    · exact ⟨[], cs, rfl, placed_ofParams kind start [] cs⟩
    · exact placed_params _ start has (isPrefix_before _ cs)

/-- Statements of a text that starts at byte `start`, from left to right. -/
inductive Sequence : Nat → List Char → List Statement → Prop
  | last {start : Nat} {s : Statement} (before part after : List Char) (h : Placed start before part s) :
      Sequence start (before ++ (part ++ after)) [s]
  | cons {start : Nat} {s : Statement} {ss : List Statement} (before part : List Char) {after : List Char}
      (h : Placed start before part s)
      (rest : Sequence (start + byteSize before + byteSize part) after ss) :
      Sequence start (before ++ (part ++ after)) (s :: ss)

namespace Sequence

variable {start : Nat} {cs : List Char} {ss : List Statement}

theorem ne_nil (h : Sequence start cs ss) : ss ≠ [] := by
  cases h with
  | last => exact List.cons_ne_nil _ _
  | cons => exact List.cons_ne_nil _ _

theorem prepend (as : List Char) (h : Sequence (start + byteSize as) cs ss) : Sequence start (as ++ cs) ss := by
  have hplaced {before part : List Char} {s : Statement} (h : Placed (start + byteSize as) before part s) :
      Placed start (as ++ before) part s :=
    ⟨by rw [h.param, Text.byteSize_append, Nat.add_assoc], h.stop, h.args⟩
  cases h with
  | last before part after h =>
    rw [← List.append_assoc]
    exact .last _ _ _ (hplaced h)
  | cons before part h rest =>
    rw [← List.append_assoc]
    refine .cons _ _ (hplaced h) ?_
    rwa [Text.byteSize_append, ← Nat.add_assoc start]

/-- Every statement is placed in the text. -/
theorem exists_placed (h : Sequence start cs ss) :
    ∀ s ∈ ss, ∃ before part after, cs = before ++ (part ++ after) ∧ Placed start before part s := by
  induction h with
  | last before part after h => exact List.forall_mem_singleton.mpr ⟨before, part, after, rfl, h⟩
  | @cons start s ss before part after h _ ih =>
    refine List.forall_mem_cons.mpr ⟨⟨before, part, after, rfl, h⟩, ?_⟩
    intro t ht
    obtain ⟨before', part', after', rfl, h'⟩ := ih t ht
    refine ⟨before ++ part ++ before', part', after', by simp, ?_, h'.stop, h'.args⟩
    rw [h'.param, Text.byteSize_append, Text.byteSize_append]
    omega

/-- No statement stops behind the parameters of the next. -/
theorem pairwise (h : Sequence start cs ss) : ss.Pairwise fun a b => a.stop ≤ b.param := by
  induction h with
  | last => exact List.pairwise_singleton _ _
  | @cons start s ss before part after h hrest ih =>
    refine .cons ?_ ih
    intro t ht
    obtain ⟨before', part', after', -, h'⟩ := hrest.exists_placed t ht
    rw [h.stop, h.param, h'.param]
    exact Nat.le_add_right _ _

end Sequence

/-- The statements of a text are found from left to right. -/
theorem sequence_scanFrom (start : Nat) (cs : List Char) : Sequence start cs (scanFrom start cs) := by
  induction cs using (measure List.length).wf.induction generalizing start with
  | _ cs ih =>
    obtain ⟨hfits, -⟩ := first_fits start cs
    obtain ⟨before, part, hbefore, hplaced⟩ := placed_first start cs
    rcases hfirst : first start cs with ⟨statement, cut⟩
    rw [hfirst] at hfits hbefore hplaced
    dsimp only at hfits hbefore hplaced
    have hone : cut.next = none → ∀ rest, cs = Statement.before cut.stop cs ++ rest →
        Sequence start cs (scanFrom start cs) := by
      intro hnext rest hrest
      rw [hbefore, List.append_assoc] at hrest
      rw [scanFrom_last hfirst hnext, hrest]
      exact .last before part rest hplaced
    cases hfits with
    | whole => exact hone rfl [] (List.append_nil cs).symm
    | @colon as h =>
      refine hone rfl [':'] ?_
      rw [Statement.before, Option.bind_some, h, Text.splitBytes_append]
    | @inner as sep bs h hne =>
      have has : Statement.before (some (byteSize as)) cs = as := by
        rw [Statement.before, Option.bind_some, h, List.append_assoc, Text.splitBytes_append]
      have hsize : byteSize as = byteSize before + byteSize part := by
        rw [← has, hbefore, Text.byteSize_append]
      have htext : cs = before ++ (part ++ (sep ++ bs.takeWhile isBlank ++ dropBlanks bs)) := by
        rw [has] at hbefore
        rw [h, hbefore, List.append_assoc sep, dropBlanks, List.takeWhile_append_dropWhile]
        simp
      have hstart : start + byteSize before + byteSize part + byteSize (sep ++ bs.takeWhile isBlank)
          = start + byteSize (as ++ sep) + leadingBlanks bs := by
        rw [Text.byteSize_append, Text.byteSize_append, byteSize_takeWhile_isBlank]
        omega
      rw [scanFrom_inner hfirst h hne]
      conv => arg 2; rw [htext]
      refine .cons before part hplaced (.prepend _ ?_)
      rw [hstart]
      exact ih (dropBlanks bs) (length_dropBlanks_lt h hne) _

/-- **The statements of a line are placed in its text from left to right.** -/
theorem sequence_scan (cs : List Char) : Sequence 0 cs (scan cs) := by
  have hblanks : cs = cs.takeWhile isBlank ++ dropBlanks cs := List.takeWhile_append_dropWhile.symm
  have hscan : Sequence 0 cs (scanFrom (leadingBlanks cs) (dropBlanks cs)) := by
    conv => arg 2; rw [hblanks]
    refine .prepend _ ?_
    rw [byteSize_takeWhile_isBlank, Nat.zero_add]
    exact sequence_scanFrom _ _
  unfold scan mergeElseIf
  split
  · next a b hab =>
    rw [hab] at hscan
    split
    · -- the `ELSE` that goes leaves the `IF` where it is
      obtain ⟨before, part, after, rfl, hplaced⟩ := hscan.exists_placed b (by simp)
      exact .last before part after ⟨hplaced.param, hplaced.stop, hplaced.args⟩
    · exact hscan
  · exact hscan

end Statement

end QuestScript
