import QuestScript.Proofs.Line.Bytes
import QuestScript.Proofs.Line.Spans

/-!
# The scan with every offset checked

The scan of a line is about offsets: it cuts the text at places it has computed, looks at single bytes,
and goes on where the last statement was cut off. `Checked.scan` is the scan in this form. It works on the
whole text and its bytes, has no answer when an offset is outside of the text or a cut is inside of a
character, and does not go on for ever, but only for a number of turns that it is given.

It always has an answer, the one of `Statement.scan`, when it is given one turn more than the line has
characters. That is `scan_inside`, which also says where the statements stand.
-/

namespace QuestScript

open Text (byteSize delimiterPos? cutAtDelimiter? leadingBlanks dropBlanks isBlank slice? utf8)

namespace Statement

/-! ## The checked scan -/

namespace Checked

/-- A span without the blanks at its ends, which are looked for byte by byte. -/
def trimmedSpan (text : List Char) (start stop : Nat) : Option Span := do
  let start := min (← Bytes.skipBlanks (utf8 text) start) stop
  let stop ← Bytes.trimEnd (utf8 text) start stop
  return ⟨start, stop⟩

/-- Where the sign of an assignment starts whose equals sign is byte `eq`. -/
def sign (text : List Char) (start eq : Nat) : Option Nat :=
  if start < eq then do
    let b ← (utf8 text)[eq - 1]?
    return if Bytes.satisfies isCompound b then eq - 1 else eq
  else return eq

/-- The sides of an assignment, cut out of the text. -/
def assignmentArgs (text : List Char) (start stop : Nat) : Option (List Span × Option ErrorKind) := do
  let start := min (← Bytes.skipBlanks (utf8 text) start) stop
  let body ← slice? text start stop
  match ← Bytes.delimiterPos (utf8 body) '=' with
  | some p =>
    let eq := start + p
    let sign ← sign text start eq
    let names ← trimmedSpan text start sign
    let values ← trimmedSpan text (eq + 1) stop
    return ([names, ⟨sign, eq + 1⟩, values],
      if names.isEmpty || values.isEmpty then some .badSyntax else none)
  | none =>
    let names ← trimmedSpan text start stop
    return ([names], if names.isEmpty then some .badSyntax else none)

/-- Arguments between commas, each of which is looked for in a part that is cut out first. -/
def separatedArgs (text : List Char) (stop : Nat) : Nat → Nat → Option (List Span × Option ErrorKind)
  | 0, _ => some ([], some .argumentCount)
  | room + 1, pos => do
    let part ← slice? text pos stop
    match ← Bytes.delimiterPos (utf8 part) ',' with
    | none => return ([⟨pos, stop⟩], none)
    | some p =>
      let next := min (← Bytes.skipBlanks (utf8 text) (pos + p + 1)) stop
      if stop ≤ next then return ([⟨pos, pos + p⟩], some .badSyntax)
      else
        let (spans, error) ← separatedArgs text stop room next
        return (⟨pos, pos + p⟩ :: spans, error)

/-- The bounds of the arguments, inside of the brackets around them; the inner `none` stands for a bracket
that is never closed. -/
def argBounds (text : List Char) (start stop : Nat) : Option (Option (Nat × Nat)) := do
  let pos := min (← Bytes.skipBlanks (utf8 text) start) stop
  if (utf8 text)[pos]?.any (Bytes.satisfies (· == '(')) ∧ pos < stop then
    let part ← slice? text pos stop
    match ← Bytes.delimiterPos (utf8 part) ')' with
    | none => return none
    | some p =>
      let close := pos + p
      let after ← slice? text (close + 1) stop
      if Text.hasText after then return some (pos, stop)
      else
        let pos ← Bytes.skipBlanks (utf8 text) (pos + 1)
        return some (min pos close, close)
  else return some (pos, stop)

/-- The arguments of a statement. -/
def regularArgs (text : List Char) (kind : StatementKind) (start stop : Nat) :
    Option (List Span × Option ErrorKind) := do
  match ← argBounds text start stop with
  | none => return ([], some .missingBracket)
  | some (pos, stop) =>
    let (least, most) := kind.arity
    let (args, error) ← if pos < stop then separatedArgs text stop most pos else some ([], none)
    return (args, if args.length < least then some .argumentCount else error)

/-- A statement with its parameters. -/
def ofParams (text : List Char) (kind : StatementKind) (param stop : Nat) : Option Statement := do
  let param := min param stop
  let (args, error) ←
    match kind with
    | .unknown | .label | .otherwise | .endBlock | .comment | .loop | .forTo => some ([], none)
    | .assign | .declare => assignmentArgs text param stop
    | _ => regularArgs text kind param stop
  return { kind, param, stop, args, error }

/-- The cut after a header. -/
def headerCut (cs : List Char) : Option Cut := do
  match ← Bytes.delimiterPos (utf8 cs) ':' with
  | some p => return { stop := some p, next := if p + 1 < byteSize cs then some (p + 1) else none }
  | none => return {}

/-- The cut after an `ELSE` at byte `start` whose parameters start at byte `param`. -/
def elseCut (text : List Char) (start param : Nat) : Option Cut :=
  if param < byteSize text then do
    let b ← (utf8 text)[param]?
    let next := if Bytes.satisfies (· == ':') b then param + 1 else param
    return { stop := some (param - start), next := if next < byteSize text then some (next - start) else none }
  else return {}

/-- The cut after another statement. -/
def plainCut (cs : List Char) : Option Cut := do
  let amp ← Bytes.delimiterPos (utf8 cs) '&'
  let word ← Bytes.wordPos cs "ELSE".toList
  match amp, word with
  | some a, some e => return if e < a then ⟨some e, some e⟩ else ⟨some a, some (a + 1)⟩
  | none, some e => return ⟨some e, some e⟩
  | some a, none => return ⟨some a, some (a + 1)⟩
  | none, none => return {}

/-- The kind of the statement from byte `start` to byte `stop` that has the kind `kind` by its keyword. -/
def kindOf (text : List Char) (kind : StatementKind) (start stop : Nat) : Option StatementKind :=
  if kind = .unknown ∧ stop ≠ start then do
    let part ← slice? text start stop
    let eq ← Bytes.delimiterPos (utf8 part) '='
    return if eq.isSome then .assign else .implicit
  else return kind

/-- The statement from byte `start` to a cut. -/
def upTo (text : List Char) (start : Nat) (kind : StatementKind) (param : Nat) (cut : Cut) :
    Option Statement := do
  let stop := (cut.stop.map (start + ·)).getD (byteSize text)
  let kind ← kindOf text kind start stop
  ofParams text kind param stop

/-- Where the parameters of the statement at byte `start` start, behind its keyword. -/
def paramAt (text : List Char) (start : Nat) : Option Nat → Option Nat
  | some n => Bytes.skipBlanks (utf8 text) (start + n)
  | none => some start

/-- The cut after a statement. -/
def cutAfter (text cs : List Char) (kind : StatementKind) (start param : Nat) : Option Cut :=
  if kind.endsAtColon then headerCut cs
  else if kind = .otherwise then elseCut text start param
  else plainCut cs

/-- The statement at byte `start` and the cut after it. -/
def first (text : List Char) (start : Nat) : Option (Statement × Cut) := do
  let cs ← slice? text start (byteSize text)
  let (kind, keyword) ← Bytes.kind (utf8 cs)
  let param ← paramAt text start keyword
  if cs.isEmpty || kind = .comment then return (← ofParams text kind param (byteSize text), {})
  else
    let cut ← cutAfter text cs kind start param
    return (← upTo text start kind param cut, cut)

/-- The statements from byte `start` on, in at most the given number of turns. -/
def scanFrom (text : List Char) : Nat → Nat → Option (List Statement)
  | 0, _ => none
  | turns + 1, start => do
    let (statement, cut) ← first text start
    match cut.next with
    | none => return [statement]
    | some n =>
      let next ← Bytes.skipBlanks (utf8 text) (start + n)
      let rest ← scanFrom text turns next
      return statement :: rest

/-- The two words that open a branch as one. -/
def mergeElseIf (text : List Char) : List Statement → List Statement
  | [a, b] =>
    if a.kind = .otherwise && b.kind = .ifThen && !(utf8 text)[a.param]?.any (Bytes.satisfies (· == ':')) then
      [{ b with kind := .elseIf }]
    else [a, b]
  | statements => statements

/-- All statements of a text, in at most so many turns. -/
def scan (text : List Char) (turns : Nat) : Option (List Statement) := do
  let start ← Bytes.skipBlanks (utf8 text) 0
  let statements ← scanFrom text turns start
  return mergeElseIf text statements

end Checked

/-! ## Parts of a text -/

namespace Stands

variable {text cs : List Char} {base : Nat}

/-- Without its leading blanks a part starts further on. -/
theorem dropBlanks (h : Stands text base cs) : Stands text (base + leadingBlanks cs) (Text.dropBlanks cs) := by
  refine h.part (cs.takeWhile isBlank) [] ?_ ?_
  · rw [List.append_nil, Text.dropBlanks, List.takeWhile_append_dropWhile]
  · rw [byteSize_takeWhile_isBlank]

theorem slice_dropBlanks (h : Stands text base cs) :
    slice? text (base + leadingBlanks cs) (base + byteSize cs) = some (Text.dropBlanks cs) := by
  have hslice := h.dropBlanks.slice
  rwa [Nat.add_assoc, byteSize_dropBlanks] at hslice

/-- Skipping blanks from the start of a part leads into the part or to its end. -/
theorem skipBlanks (h : Stands text base cs) :
    ∃ pos, Bytes.skipBlanks (utf8 text) base = some pos ∧
      min pos (base + byteSize cs) = base + leadingBlanks cs := by
  obtain ⟨before, after, rfl, rfl⟩ := h
  refine ⟨_, Bytes.skipBlanks_utf8 before (cs ++ after), ?_⟩
  have hsize := byteSize_dropBlanks cs
  rw [Nat.add_min_add_left]
  congr 1
  unfold leadingBlanks at hsize ⊢
  rw [List.takeWhile_append]
  split
  · next hall =>
    -- the part holds blanks only, so it ends where they do
    have hnil : Text.dropBlanks cs = [] := by
      rw [← Text.drop_leadingBlanks, Text.leadingBlanks, hall, List.drop_length]
    rw [hnil, Text.byteSize_nil] at hsize
    rw [List.length_append]
    omega
  · omega

/-- From its end a part is trimmed within its bounds. -/
theorem trimEnd (h : Stands text base cs) :
    Bytes.trimEnd (utf8 text) base (base + byteSize cs)
      = some (base + byteSize (Text.dropTrailing isBlank cs)) := by
  obtain ⟨before, after, rfl, rfl⟩ := h
  exact Bytes.trimEnd_utf8 before cs after

/-- Where the part ends, counted from behind its leading blanks. -/
theorem stop_dropBlanks (base : Nat) (cs : List Char) :
    base + byteSize cs = base + leadingBlanks cs + byteSize (Text.dropBlanks cs) := by
  rw [Nat.add_assoc, byteSize_dropBlanks]

/-- The parts on both sides of a delimiter. -/
theorem cut (h : Stands text base cs) {ch : Char} (hch : Text.isQuote ch = false) (hone : ch.utf8Size = 1)
    {before after : List Char} (hcut : cutAtDelimiter? cs ch = some (before, after)) :
    cs = before ++ ch :: after ∧ Stands text base before ∧ Stands text (base + byteSize before + 1) after ∧
      base + byteSize cs = base + byteSize before + 1 + byteSize after := by
  have htext := Text.cutAtDelimiter?_eq_some hch hcut
  refine ⟨htext, h.part [] (ch :: after) htext rfl, h.part (before ++ [ch]) [] (by simpa using htext) ?_, ?_⟩
  · rw [Text.byteSize_append, ← Nat.add_assoc, Text.byteSize_cons, hone]
    rfl
  · rw [htext, Text.byteSize_append, Text.byteSize_cons, hone, ← Nat.add_assoc, ← Nat.add_assoc]

/-- Whether a part starts with an opening bracket. -/
theorem openRound_iff (h : Stands text base cs) :
    ((Text.charAt? text base).any (· == '(') = true ∧ base < base + byteSize cs) ↔ cs.head? = some '(' := by
  obtain ⟨before, after, rfl, rfl⟩ := h
  rw [Text.charAt?_append]
  cases cs with
  | nil => simp
  | cons c body =>
    have hpos := Char.utf8Size_pos c
    simp
    omega

end Stands

/-! ## Arguments -/

section Arguments

variable {text cs : List Char} {base : Nat}

/-- Both ends of the span are boundaries, so no check fails. -/
theorem checked_trimmedSpan (h : Stands text base cs) :
    Checked.trimmedSpan text base (base + byteSize cs) = some (trimmedSpan base cs) := by
  obtain ⟨pos, hpos, hmin⟩ := h.skipBlanks
  have hend := h.dropBlanks.trimEnd
  rw [Nat.add_assoc, byteSize_dropBlanks] at hend
  unfold Checked.trimmedSpan
  simp only [hpos, hmin, hend, Option.bind_eq_bind, Option.bind_some]
  rfl

theorem oneByte_isCompound : Bytes.OneByte isCompound :=
  Bytes.oneByte_of_subset ['+', '-', '*', '/'] (by decide) fun c hc => by
    simpa [isCompound, or_assoc] using hc

/-- Where a text is cut in two, the search has found a delimiter. -/
theorem delimiterPos?_of_cut {ch : Char} (hch : Text.isQuote ch = false) {before after : List Char}
    (h : cutAtDelimiter? cs ch = some (before, after)) : delimiterPos? cs ch = some (byteSize before) := by
  unfold cutAtDelimiter? at h
  split at h
  · cases h
  · next pos hpos =>
    obtain ⟨as, bs, rfl, rfl⟩ := exists_of_delimiterPos? hch hpos
    rw [Text.splitBytes_append] at h
    cases h
    exact hpos

theorem delimiterPos?_of_cut_eq_none {ch : Char} (hch : Text.isQuote ch = false)
    (h : cutAtDelimiter? cs ch = none) : delimiterPos? cs ch = none := by
  cases hpos : delimiterPos? cs ch with
  | none => rfl
  | some pos =>
    obtain ⟨as, bs, rfl, rfl⟩ := exists_of_delimiterPos? hch hpos
    simp [cutAtDelimiter?, hpos, Text.splitBytes_append] at h

/-- The sign in front of the equals sign is one byte long. -/
theorem checked_sign (h : Stands text base cs) :
    Checked.sign text base (base + byteSize cs)
      = some (if cs.getLast?.any isCompound then base + byteSize cs - 1 else base + byteSize cs) := by
  unfold Checked.sign
  by_cases hne : cs = []
  · subst hne
    simp
  · have hpos := Text.byteSize_pos hne
    rw [if_pos (by omega)]
    obtain ⟨before, after, rfl, rfl⟩ := h
    obtain ⟨b, hb, hlast⟩ := Option.map_eq_some_iff.mp (Bytes.getElem?_last before after hne oneByte_isCompound)
    rw [hb, Option.bind_eq_bind, Option.bind_some, hlast]
    rfl

/-- In front of a compound assignment the names end before the sign. -/
theorem names_of_sign (h : Stands text base cs) :
    let names := if cs.getLast?.any isCompound then cs.dropLast else cs
    Stands text base names ∧
      (if cs.getLast?.any isCompound then base + byteSize cs - 1 else base + byteSize cs)
        = base + byteSize names := by
  intro names
  obtain ⟨op, hop, hsize⟩ := exists_sign cs
  have hbytes := congrArg byteSize hop
  rw [Text.byteSize_append, hsize] at hbytes
  refine ⟨h.part [] op hop rfl, ?_⟩
  change byteSize cs = byteSize names + _ at hbytes
  split
  · next hc =>
    rw [if_pos hc] at hbytes
    omega
  · next hc =>
    rw [if_neg hc] at hbytes
    omega

/-- In the cases of the assignment: with an equals sign, with a longer sign, and without. -/
theorem checked_assignmentArgs (h : Stands text base cs) :
    Checked.assignmentArgs text base (base + byteSize cs) = some (assignmentArgs base cs) := by
  have hbody := h.dropBlanks
  obtain ⟨pos, hpos, hmin⟩ := h.skipBlanks
  unfold Checked.assignmentArgs assignmentArgs
  simp only [hpos, hmin, h.slice_dropBlanks, Bytes.delimiterPos_utf8 (by decide : '='.utf8Size = 1),
    Option.bind_eq_bind, Option.bind_some]
  rw [Stands.stop_dropBlanks base cs]
  generalize base + leadingBlanks cs = start at hbody
  cases hcut : cutAtDelimiter? (dropBlanks cs) '=' with
  | none =>
    rw [delimiterPos?_of_cut_eq_none (by decide) hcut]
    simp only [checked_trimmedSpan hbody, Option.bind_some]
    rfl
  | some cut =>
    obtain ⟨before, after⟩ := cut
    obtain ⟨-, hbefore, hafter, hend⟩ := hbody.cut (by decide) (by decide) hcut
    obtain ⟨hnames, hsign⟩ := names_of_sign hbefore
    rw [delimiterPos?_of_cut (by decide) hcut]
    simp only [checked_sign hbefore, Option.bind_some]
    rw [hend, hsign, checked_trimmedSpan hnames, checked_trimmedSpan hafter]
    rfl

/-- By induction on the room that is left, each argument being a part of the text. -/
theorem checked_separatedArgs (room : Nat) (h : Stands text base cs) :
    Checked.separatedArgs text (base + byteSize cs) room base = some (separatedArgs room base cs) := by
  induction room generalizing base cs with
  | zero => rfl
  | succ room ih =>
    unfold Checked.separatedArgs separatedArgs
    simp only [h.slice, Bytes.delimiterPos_utf8 (by decide : ','.utf8Size = 1), Option.bind_eq_bind,
      Option.bind_some]
    cases hcut : cutAtDelimiter? cs ',' with
    | none =>
      rw [delimiterPos?_of_cut_eq_none (by decide) hcut]
      rfl
    | some cut =>
      obtain ⟨before, after⟩ := cut
      obtain ⟨-, -, hafter, hend⟩ := h.cut (by decide) (by decide) hcut
      have hbytes := byteSize_dropBlanks after
      obtain ⟨next, hnext, hmin⟩ := hafter.skipBlanks
      rw [delimiterPos?_of_cut (by decide) hcut, hend]
      simp only [hnext, hmin, Option.bind_some]
      by_cases hnil : dropBlanks after = []
      · rw [hnil, Text.byteSize_nil] at hbytes
        rw [if_pos (by omega), if_pos (by rw [hnil]; rfl)]
        rfl
      · have hpos := Text.byteSize_pos hnil
        have hrest := ih hafter.dropBlanks
        rw [Nat.add_assoc _ (leadingBlanks after), hbytes] at hrest
        rw [if_neg (by omega), if_neg (by simpa using hnil), hrest]
        rfl

/-- Brackets that are taken off stand in the text. -/
theorem checked_argBounds (h : Stands text base cs) :
    Checked.argBounds text base (base + byteSize cs)
      = some ((stripBrackets? base cs).map fun (pos, body) => (pos, pos + byteSize body)) := by
  have hbody := h.dropBlanks
  obtain ⟨pos, hpos, hmin⟩ := h.skipBlanks
  unfold Checked.argBounds stripBrackets?
  simp only [hpos, hmin, h.slice_dropBlanks, Bytes.delimiterPos_utf8 (by decide : ')'.utf8Size = 1),
    Bytes.any_getElem?_utf8 (Bytes.oneByte_beq (by decide : '('.utf8Size = 1)), Option.bind_eq_bind,
    Option.bind_some]
  rw [Stands.stop_dropBlanks base cs]
  generalize base + leadingBlanks cs = pos at hbody
  split
  · next hbracket =>
    obtain ⟨body, hcs⟩ := List.head?_eq_some_iff.mp (hbody.openRound_iff.mp hbracket)
    rw [hcs] at hbody ⊢
    cases hcut : cutAtDelimiter? ('(' :: body) ')' with
    | none =>
      rw [delimiterPos?_of_cut_eq_none (by decide) hcut]
      rfl
    | some cut =>
      obtain ⟨before, after⟩ := cut
      obtain ⟨htext, -, hafter, hend⟩ := hbody.cut (by decide) (by decide) hcut
      rw [delimiterPos?_of_cut (by decide) hcut]
      simp only [hend, hafter.slice, Option.bind_some]
      split
      · rw [Option.map_some, hend]
        rfl
      · -- the first bracket is not the one that closes it
        obtain ⟨inner, rfl⟩ : ∃ inner, before = '(' :: inner := by
          cases before with
          | nil => cases htext
          | cons c inner =>
            cases htext
            exact ⟨inner, rfl⟩
        have hinner : Stands text (pos + 1) inner :=
          hbody.part ['('] (')' :: after) htext rfl
        have hclose : pos + byteSize ('(' :: inner) = pos + 1 + byteSize inner := by
          rw [Text.byteSize_cons, ← Nat.add_assoc]
          rfl
        have hbytes := byteSize_dropBlanks inner
        obtain ⟨next, hnext, hmin⟩ := hinner.skipBlanks
        rw [hclose, hnext, Option.map_some, Option.bind_some, hmin]
        show some (some (_, _)) = some (some (_, pos + 1 + leadingBlanks inner + byteSize (dropBlanks inner)))
        rw [Nat.add_assoc _ (leadingBlanks inner), hbytes]
        rfl
  · next hbracket =>
    split
    · next body hcs =>
      exact absurd (hbody.openRound_iff.mpr (by rw [hcs]; rfl)) hbracket
    · rfl

theorem checked_regularArgs (kind : StatementKind) (h : Stands text base cs) :
    Checked.regularArgs text kind base (base + byteSize cs) = some (regularArgs kind base cs) := by
  unfold Checked.regularArgs regularArgs
  rw [checked_argBounds h]
  simp only [Option.bind_eq_bind, Option.bind_some]
  cases hstrip : stripBrackets? base cs with
  | none => rfl
  | some stripped =>
    obtain ⟨pos, body⟩ := stripped
    obtain ⟨before, after, hcs, hpos⟩ := covers_stripBrackets? hstrip
    have hbody : Stands text pos body := h.part before after hcs hpos
    dsimp only [Option.map_some]
    by_cases hnil : body = []
    · subst hnil
      simp
    · have hlt : pos < pos + byteSize body := by
        have := Text.byteSize_pos hnil
        omega
      simp [hlt, hnil, checked_separatedArgs _ hbody]

/-- The arguments of a statement are cut out of its parameters. -/
theorem checked_ofParams (kind : StatementKind) (h : Stands text base cs) :
    Checked.ofParams text kind base (base + byteSize cs) = some (ofParams kind base cs) := by
  have hassignment := checked_assignmentArgs h
  have hregular := checked_regularArgs kind h
  unfold Checked.ofParams ofParams
  rw [Nat.min_eq_left (Nat.le_add_right _ _)]
  cases kind <;> simp [hassignment, hregular]

end Arguments

/-! ## Statements -/

/-- No keyword starts a comment. -/
theorem ofText_ne_comment (cs : List Char) (n : Nat) : StatementKind.ofText cs ≠ (.comment, some n) := by
  have hall : ∀ k ∈ StatementKind.keywords, k.2 ≠ .comment := by decide +kernel
  intro h
  obtain ⟨k, hk, -, hcomment, -⟩ := StatementKind.exists_of_ofText_eq h
  exact hall k hk hcomment

section Scan

variable {text cs : List Char} {start : Nat}

/-- A cut that fits is inside of the text. -/
theorem stop_of_fits {cut : Cut} (h : cut.Fits cs) (start : Nat) :
    (cut.stop.map (start + ·)).getD (start + byteSize cs) = start + byteSize (Statement.before cut.stop cs) := by
  have hbefore {as bs : List Char} (hcs : cs = as ++ bs) :
      Statement.before (some (byteSize as)) cs = as := by
    rw [Statement.before, Option.bind_some, hcs, Text.splitBytes_append]
  cases h with
  | whole => rfl
  | colon h => rw [hbefore h]; rfl
  | inner h _ => rw [hbefore (h.trans (List.append_assoc _ _ _))]; rfl

/-- The parameters and the end of a statement are boundaries, in whichever order they come. -/
theorem checked_params (kind : StatementKind) {as part : List Char} (h : Stands text start cs)
    (has : as <+: cs) (hpart : part <+: cs) :
    Checked.ofParams text kind (start + byteSize as) (start + byteSize part)
      = some (ofParams kind (start + min (byteSize as) (byteSize part))
          (Text.dropBytes part (min (byteSize as) (byteSize part)))) := by
  obtain ⟨rest, rfl⟩ := hpart
  obtain ⟨before, params, rfl, hsize⟩ := exists_cut has (List.prefix_append part rest)
  have hparams : Stands text (start + byteSize before) params :=
    h.part before rest (by simp) rfl
  have hchecked := checked_ofParams kind hparams
  have hmin : min (start + byteSize as) (start + byteSize (before ++ params)) = start + byteSize before := by
    omega
  have hstop : start + byteSize before + byteSize params = start + byteSize (before ++ params) := by
    rw [Text.byteSize_append, Nat.add_assoc]
  rw [← hsize, Text.dropBytes, Text.splitBytes_append, ← hchecked, hstop]
  unfold Checked.ofParams
  rw [hmin, Nat.min_eq_left (by omega)]

theorem checked_kindOf (kind : StatementKind) {part : List Char} (h : Stands text start part) :
    Checked.kindOf text kind start (start + byteSize part)
      = some (if kind = .unknown then withoutKeyword part else kind) := by
  unfold Checked.kindOf
  by_cases hkind : kind = .unknown
  · subst hkind
    by_cases hnil : part = []
    · subst hnil
      rw [if_neg (by simp)]
      rfl
    · have hpos := Text.byteSize_pos hnil
      have heq := Bytes.delimiterPos_utf8 (by decide : '='.utf8Size = 1) part
      rw [if_pos ⟨rfl, by omega⟩, if_pos rfl, withoutKeyword, if_neg (by simpa using hnil)]
      simp only [h.slice, heq, Option.bind_eq_bind, Option.bind_some]
      rfl
  · rw [if_neg fun h => hkind h.1, if_neg hkind]
    rfl

/-- A cut that fits is a boundary. -/
theorem checked_upTo (kind : StatementKind) {as : List Char} {cut : Cut} (h : Stands text start cs)
    (hend : byteSize text = start + byteSize cs) (has : as <+: cs) (hfits : cut.Fits cs) :
    Checked.upTo text start kind (start + byteSize as) cut
      = some (ofParams (if kind = .unknown then withoutKeyword (Statement.before cut.stop cs) else kind)
          (start + min (byteSize as) (byteSize (Statement.before cut.stop cs)))
          (Text.dropBytes (Statement.before cut.stop cs)
            (min (byteSize as) (byteSize (Statement.before cut.stop cs))))) := by
  have hprefix := isPrefix_before cut.stop cs
  unfold Checked.upTo
  rw [hend, stop_of_fits hfits]
  generalize Statement.before cut.stop cs = part at hprefix
  obtain ⟨rest, hrest⟩ := hprefix
  have hpart : Stands text start part := h.part [] rest hrest.symm rfl
  have hkind := checked_kindOf kind hpart
  simp only [hkind, Option.bind_eq_bind, Option.bind_some]
  exact checked_params _ h has ⟨rest, hrest⟩

theorem checked_headerCut (cs : List Char) : Checked.headerCut cs = some (headerCut cs) := by
  unfold Checked.headerCut headerCut
  rw [Bytes.delimiterPos_utf8 (by decide), Option.bind_eq_bind, Option.bind_some]
  cases delimiterPos? cs ':' <;> rfl

theorem checked_plainCut (cs : List Char) : Checked.plainCut cs = some (plainCut cs) := by
  have hword := Bytes.keywords_oneByte ("ELSE", .otherwise) (by decide +kernel)
  unfold Checked.plainCut plainCut
  rw [Bytes.delimiterPos_utf8 (by decide), Bytes.wordPos_utf8 hword]
  cases delimiterPos? cs '&' <;> cases Text.wordPos? cs "ELSE".toList true <;> rfl

/-- The word and what is behind it are parts of the text. -/
theorem checked_elseCut {before as : List Char} (h : text = before ++ cs) (has : as <+: cs) :
    Checked.elseCut text (byteSize before) (byteSize before + byteSize as) = some (elseCut (byteSize as) cs) := by
  obtain ⟨bs, rfl⟩ := has
  unfold Checked.elseCut elseCut
  rw [Text.charAt?_append]
  cases bs with
  | nil =>
    rw [if_neg (by rw [h]; simp)]
    rfl
  | cons c bs =>
    have hpos := Char.utf8Size_pos c
    have hsize : byteSize text = byteSize before + byteSize (as ++ c :: bs) := by rw [h, Text.byteSize_append]
    have hrest : byteSize (as ++ c :: bs) = byteSize as + (c.utf8Size + byteSize bs) := by
      rw [Text.byteSize_append, Text.byteSize_cons]
    obtain ⟨b, hb, hstarts⟩ := Bytes.exists_first_byte (before ++ as) c bs
    rw [List.append_assoc, ← h, Text.byteSize_append] at hb
    rw [if_pos (by omega), hb, Option.bind_eq_bind, Option.bind_some,
      Bytes.satisfies_of_starts (Bytes.oneByte_beq (by decide)) hstarts, List.head?_cons]
    by_cases hc : c = ':'
    · subst hc
      have hlt : byteSize before + byteSize as + 1 < byteSize text ↔
          byteSize as + 1 < byteSize (as ++ ':' :: bs) := by omega
      have hnext : byteSize before + byteSize as + 1 - byteSize before = byteSize as + 1 := by omega
      simp only [beq_self_eq_true, if_true, hlt, hnext, Nat.add_sub_cancel_left]
      rfl
    · have hlt : byteSize before + byteSize as < byteSize text := by omega
      simp only [beq_eq_false_iff_ne.mpr hc, Bool.false_eq_true, if_false, if_pos hlt, Nat.add_sub_cancel_left]
      rfl

theorem checked_cutAfter (kind : StatementKind) {before as : List Char} (h : text = before ++ cs)
    (has : as <+: cs) :
    Checked.cutAfter text cs kind (byteSize before) (byteSize before + byteSize as)
      = some (if kind.endsAtColon then headerCut cs
          else if kind = .otherwise then elseCut (byteSize as) cs else plainCut cs) := by
  unfold Checked.cutAfter
  rw [checked_headerCut, checked_elseCut h has, checked_plainCut]
  split
  · rfl
  · split <;> rfl

/-- The parameters start behind some characters of the text, which hold the keyword. -/
theorem checked_paramAt {before : List Char} (h : text = before ++ cs) {kind : StatementKind} {keyword : Option Nat}
    (hk : StatementKind.ofText cs = (kind, keyword)) :
    ∃ as, as <+: cs ∧ byteSize as = (keyword.map fun n => n + leadingBlanks (cs.drop n)).getD 0 ∧
      Checked.paramAt text (byteSize before) keyword = some (byteSize before + byteSize as) ∧
      (kind = .otherwise → as ≠ []) ∧ (kind = .comment → as = []) := by
  cases keyword with
  | none =>
    refine ⟨[], List.nil_prefix, rfl, rfl, ?_, fun _ => rfl⟩
    rintro rfl
    exact absurd hk (ofText_ne_otherwise cs)
  | some n =>
    obtain ⟨word, hword, -, -, hsize⟩ := exists_keyword hk
    obtain ⟨as, has, hn, hparams⟩ := exists_params hk
    refine ⟨as, has, hparams, ?_, ?_, ?_⟩
    · have hskip := Bytes.skipBlanks_utf8 (before ++ word) (cs.drop n)
      rw [List.append_assoc, ← hword, ← h, Text.byteSize_append, hsize, Nat.add_assoc, ← hparams] at hskip
      exact hskip
    · rintro - rfl
      rw [Text.byteSize_nil] at hparams
      omega
    · rintro rfl
      exact absurd hk (ofText_ne_comment cs n)

/-- The first statement of what is left, with all offsets counted in the whole text. -/
theorem checked_first {before : List Char} (h : text = before ++ cs) :
    Checked.first text (byteSize before) = some (first (byteSize before) cs) := by
  have hstands : Stands text (byteSize before) cs := ⟨before, [], by rw [h, List.append_nil], rfl⟩
  have hend : byteSize text = byteSize before + byteSize cs := by rw [h, Text.byteSize_append]
  rcases hk : StatementKind.ofText cs with ⟨kind, keyword⟩
  obtain ⟨as, has, hsize, hparam, hne, hcomment⟩ := checked_paramAt h hk
  have hfits := cut_fits (by rw [hk]) has hne
  unfold Checked.first first
  simp only [hend, hstands.slice, Bytes.kind_utf8, hk, hparam, checked_cutAfter kind h has,
    checked_upTo kind hstands hend has hfits, Option.bind_eq_bind, Option.bind_some]
  split
  · next hlast =>
    have hnil : as = [] := by
      rcases Bool.or_eq_true_iff.mp hlast with hempty | hkind
      · rw [List.isEmpty_iff.mp hempty] at has
        exact List.prefix_nil.mp has
      · exact hcomment (of_decide_eq_true hkind)
    rw [hnil, Text.byteSize_nil, Nat.add_zero, checked_ofParams kind hstands]
    rfl
  · rw [hsize]
    cases keyword <;> rfl

/-- The checked scan has an answer when the turns do not run out, which each make the text shorter. -/
theorem checked_scanFrom {turns : Nat} {before : List Char} (h : text = before ++ cs)
    (hturns : cs.length < turns) :
    Checked.scanFrom text turns (byteSize before) = some (scanFrom (byteSize before) cs) := by
  induction turns generalizing before cs with
  | zero => exact absurd hturns (Nat.not_lt_zero _)
  | succ turns ih =>
    obtain ⟨hfits, -⟩ := first_fits (byteSize before) cs
    rcases hfirst : first (byteSize before) cs with ⟨statement, cut⟩
    rw [hfirst] at hfits
    unfold Checked.scanFrom
    simp only [checked_first h, hfirst, Option.bind_eq_bind, Option.bind_some]
    cases hfits with
    | whole =>
      rw [scanFrom_last hfirst rfl]
      rfl
    | colon _ =>
      rw [scanFrom_last hfirst rfl]
      rfl
    | @inner as sep bs hcs hne =>
      rw [scanFrom_inner hfirst hcs hne]
      generalize as ++ sep = as at hcs hne
      have htext : text = (before ++ as) ++ bs := by rw [h, hcs, List.append_assoc]
      have hskip := Bytes.skipBlanks_utf8 (before ++ as) bs
      rw [← htext, Text.byteSize_append] at hskip
      have hnext : text = ((before ++ as) ++ bs.takeWhile isBlank) ++ dropBlanks bs := by
        rw [htext, List.append_assoc _ (bs.takeWhile isBlank), dropBlanks, List.takeWhile_append_dropWhile]
      have hscan := ih hnext (by have := length_dropBlanks_lt hcs hne; omega)
      rw [Text.byteSize_append, Text.byteSize_append, byteSize_takeWhile_isBlank] at hscan
      simp only [hskip, hscan, Option.bind_some]
      rfl

theorem checked_mergeElseIf (text : List Char) (statements : List Statement) :
    Checked.mergeElseIf text statements = mergeElseIf text statements := by
  have hcolon (n : Nat) :
      (utf8 text)[n]?.any (Bytes.satisfies (· == ':')) = (Text.charAt? text n == some ':') := by
    rw [Bytes.any_getElem?_utf8 (Bytes.oneByte_beq (by decide))]
    cases Text.charAt? text n <;> rfl
  rcases statements with - | ⟨a, - | ⟨b, - | ⟨c, rest⟩⟩⟩
  · rfl
  · rfl
  · rw [Checked.mergeElseIf, mergeElseIf, hcolon]
    rfl
  · rfl

/-- By strong induction on what is left of the text. Each statement is a turn. -/
theorem checked_scan {turns : Nat} (hturns : text.length < turns) :
    Checked.scan text turns = some (scan text) := by
  have hblanks : text = text.takeWhile isBlank ++ dropBlanks text := List.takeWhile_append_dropWhile.symm
  have hturns : (dropBlanks text).length < turns := (Text.dropBlanks_length_le text).trans_lt hturns
  have hskip := Bytes.skipBlanks_utf8 [] text
  rw [List.nil_append, Text.byteSize_nil, Nat.zero_add] at hskip
  have hscan := checked_scanFrom hblanks hturns
  rw [byteSize_takeWhile_isBlank] at hscan
  unfold Checked.scan scan
  simp only [hskip, hscan, Option.bind_eq_bind, Option.bind_some]
  exact congrArg some (checked_mergeElseIf text _)

end Scan

/-- A statement is inside of its text, and its arguments are inside of the statement. -/
structure Inside (text : List Char) (s : Statement) : Prop where
  param_le : s.param ≤ s.stop
  stop_le : s.stop ≤ byteSize text
  param_isBoundary : Text.IsBoundary text s.param
  stop_isBoundary : Text.IsBoundary text s.stop
  args_bounds : ∀ a ∈ s.args, s.param ≤ a.start ∧ a.start ≤ a.stop ∧ a.stop ≤ s.stop
  args_isBoundary : ∀ a ∈ s.args, Text.IsBoundary text a.start ∧ Text.IsBoundary text a.stop
  args_pairwise : s.args.Pairwise fun a b => a.stop ≤ b.start

theorem Placed.inside {before part after : List Char} {s : Statement} (h : Placed 0 before part s) :
    Inside (before ++ (part ++ after)) s := by
  have hparam : s.param = byteSize before := by rw [h.param, Nat.zero_add]
  have hstop : s.stop = byteSize (before ++ part) := by rw [h.stop, hparam, Text.byteSize_append]
  have hcovers := h.args.covers
  refine ⟨?_, ?_, ⟨before, part ++ after, rfl, hparam.symm⟩, ⟨before ++ part, after, by simp, hstop.symm⟩,
    ?_, ?_, h.args.pairwise⟩
  · rw [h.stop]
    exact Nat.le_add_right _ _
  · rw [hstop, ← List.append_assoc, Text.byteSize_append (before ++ part)]
    exact Nat.le_add_right _ _
  · intro a ha
    rw [h.stop]
    exact (hcovers a ha).bounds
  · intro a ha
    exact (hcovers a ha).isBoundary hparam.symm after

end Statement

/-- **The scan of a line is total, and its statements are inside of the line.** Whatever the line holds, the
scan comes to its end, looks at no byte outside of the text and never cuts a character in two; there is at
least one statement, and each stops before the parameters of the next. -/
theorem Line.scan_inside (text : List Char) (number : Nat) :
    (∀ turns, text.length < turns →
      Statement.Checked.scan text turns = some (Line.scan text number).statements) ∧
    (Line.scan text number).statements ≠ [] ∧
    (∀ s ∈ (Line.scan text number).statements, Statement.Inside text s) ∧
    (Line.scan text number).statements.Pairwise fun a b => a.stop ≤ b.param := by
  have hsequence := Statement.sequence_scan text
  refine ⟨fun turns hturns => Statement.checked_scan hturns, hsequence.ne_nil, ?_, hsequence.pairwise⟩
  intro s hs
  obtain ⟨before, part, after, rfl, hplaced⟩ := hsequence.exists_placed s hs
  exact hplaced.inside

end QuestScript
