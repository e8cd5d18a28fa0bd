import Mathlib.Data.List.Find
import QuestScript.Proofs.Line.Shift

/-!
# Two spellings of a branch

The header of a branch with a condition is written `ELSEIF` or `ELSE IF`. The scan takes the second one
for an `ELSE` with a conditional behind it, and joins the two if nothing else stands on the line.

Both spellings are compared with the header `IF` of the same condition: its statements stand in them
behind other text (`Line.Moved`). A header of one statement has the same condition in both spellings,
`ELSE IF` with code behind it is an `ELSE` whose code is the whole line of the `IF`.
-/

namespace QuestScript

open Text (byteSize delimiterPos? Standing)

theorem Text.dropBytes_add (as cs : List Char) (n : Nat) :
    dropBytes (as ++ cs) (byteSize as + n) = dropBytes cs n := by
  rw [dropBytes, dropBytes, splitBytes_add]
  cases splitBytes cs n <;> rfl

/-! ## Keywords before other text -/

namespace StatementKind

/-- What stands behind a word adds no keyword to those the word starts with, unless a longer keyword goes
on as the text does; and a keyword that is the word must have ended there. -/
theorem startsWith_append {word rest : List Char} {k : String}
    (hlong : ∀ more, k.toList = word ++ more → more ≠ [] → more.head? ≠ rest.head?)
    (hends : k.toList = word → Text.atBoundary rest = true) :
    startsWith k (word ++ rest) = startsWith k word := by
  unfold startsWith
  by_cases hk : k.toList <+: word
  · obtain ⟨more, rfl⟩ := hk
    rw [List.append_assoc, ← String.length_toList, List.drop_left, List.drop_left,
      List.isPrefixOf_iff_prefix.mpr (List.prefix_append _ _), List.isPrefixOf_iff_prefix.mpr (List.prefix_append _ _)]
    cases more with
    | nil => rw [List.nil_append, hends (List.append_nil _).symm]; rfl
    | cons c more => rfl
  · have hnone : ¬k.toList <+: word ++ rest := by
      intro h
      rcases List.prefix_or_prefix_of_prefix h (List.prefix_append word rest) with hk' | ⟨more, hmore⟩
      · exact hk hk'
      · rw [← hmore, List.prefix_append_right_inj] at h
        obtain ⟨tail, rfl⟩ := h
        have hne : more ≠ [] := by
          rintro rfl
          rw [List.append_nil] at hmore
          exact hk (hmore ▸ List.prefix_refl _)
        obtain ⟨c, more, rfl⟩ := List.exists_cons_of_ne_nil hne
        exact hlong _ hmore.symm hne rfl
    rw [← List.isPrefixOf_iff_prefix, Bool.not_eq_true] at hk hnone
    rw [hk, hnone, Bool.false_and, Bool.false_and]

/-- Text that adds no keyword does not change the kind of a statement. -/
theorem ofText_append {word rest : List Char} (hne : word ≠ [])
    (h : ∀ k ∈ keywords, startsWith k.1 (word ++ rest) = startsWith k.1 word) :
    ofText (word ++ rest) = ofText word := by
  have hfind : (keywords.find? fun k => startsWith k.1 (word ++ rest))
      = keywords.find? fun k => startsWith k.1 word := List.find?_congr h
  obtain ⟨c, word, rfl⟩ := List.exists_cons_of_ne_nil hne
  by_cases hlabel : c = ':'
  · subst hlabel
    rfl
  by_cases hcomment : c = '!'
  · subst hcomment
    rfl
  rw [List.cons_append, ofText_eq (by simpa using hlabel) (by simpa using hcomment),
    ofText_eq (by simpa using hlabel) (by simpa using hcomment), ← List.cons_append, hfind]

/-- A longer keyword does not go on with a delimiter, so a keyword is also found before one. -/
theorem ofText_append_of_atBoundary {word rest : List Char} (hne : word ≠ [])
    (hrest : Text.atBoundary rest = true)
    (hword : ∀ k ∈ keywords, word <+: k.1.toList →
      k.1.toList = word ∨ Text.atBoundary (k.1.toList.drop word.length) = false) :
    ofText (word ++ rest) = ofText word := by
  refine ofText_append hne fun k hk => startsWith_append ?_ fun _ => hrest
  intro more hmore hmore' hhead
  rcases hword k hk ⟨more, hmore.symm⟩ with heq | hinside
  · rw [hmore] at heq
    exact hmore' (List.append_right_eq_self.mp heq)
  · rw [hmore, List.drop_left] at hinside
    obtain ⟨c, more, rfl⟩ := List.exists_cons_of_ne_nil hmore'
    obtain ⟨tail, rfl⟩ := List.head?_eq_some_iff.mp hhead.symm
    rw [show Text.atBoundary (c :: tail) = Text.atBoundary (c :: more) from rfl, hinside] at hrest
    cases hrest

end StatementKind

namespace Statement

section Keywords

variable {rest : List Char} (hrest : Text.atBoundary rest = true)
include hrest

theorem ofText_if : StatementKind.ofText ("IF".toList ++ rest) = (.ifThen, some 2) := by
  rw [StatementKind.ofText_append_of_atBoundary (by decide) hrest (by decide +kernel)]
  decide +kernel

theorem ofText_elseIf : StatementKind.ofText ("ELSEIF".toList ++ rest) = (.elseIf, some 6) := by
  rw [StatementKind.ofText_append_of_atBoundary (by decide) hrest (by decide +kernel)]
  decide +kernel

end Keywords

/-- The same cut in a text that is moved by `k` bytes. -/
def Cut.shift (k : Nat) (cut : Cut) : Cut := ⟨cut.stop.map (k + ·), cut.next.map (k + ·)⟩

theorem headerCut_append (as cs : List Char) (hclosed : Standing.after {} as = {})
    (hnone : delimiterPos? as ':' = none) :
    headerCut (as ++ cs) = (headerCut cs).shift (byteSize as) := by
  unfold headerCut
  rw [Text.delimiterPos?_append (by decide) hclosed hnone, Text.byteSize_append]
  cases delimiterPos? cs ':' with
  | none => rfl
  | some p =>
    simp only [Option.map_some, Cut.shift, Cut.mk.injEq, true_and, Nat.add_assoc, Nat.add_lt_add_iff_left]
    split <;> rfl

theorem before_append (as cs : List Char) (n : Option Nat) :
    before (n.map (byteSize as + ·)) (as ++ cs) = as ++ before n cs := by
  cases n with
  | none => rfl
  | some n =>
    simp only [before, Option.map_some, Option.bind_some, Text.splitBytes_add]
    cases Text.splitBytes cs n <;> rfl

theorem first_header {cs : List Char} {kind : StatementKind} {n : Nat}
    (hkind : StatementKind.ofText cs = (kind, some n)) (hne : cs ≠ []) (hcolon : kind.endsAtColon = true)
    (start : Nat) :
    first start cs
      = (ofParams kind
            (start + min (n + Text.leadingBlanks (cs.drop n)) (byteSize (before (headerCut cs).stop cs)))
            (Text.dropBytes (before (headerCut cs).stop cs)
              (min (n + Text.leadingBlanks (cs.drop n)) (byteSize (before (headerCut cs).stop cs)))),
          headerCut cs) := by
  have hcomment : kind ≠ .comment := by
    rintro rfl
    cases hcolon
  have hunknown : kind ≠ .unknown := by
    rintro rfl
    cases hcolon
  have hplain : ¬(cs.isEmpty || decide (kind = .comment)) = true := by simp [hne, hcomment]
  unfold first
  simp only [hkind, if_neg hplain, if_pos hcolon, if_neg hunknown]

/-- The statement as the header of a branch. -/
def asElseIf (s : Statement) : Statement := { s with kind := .elseIf }

theorem ofParams_elseIf (param : Nat) (cs : List Char) :
    ofParams .elseIf param cs = (ofParams .ifThen param cs).asElseIf := rfl

/-! ## The scan of the two spellings -/

section Scan

variable {rest : List Char} (hrest : Text.atBoundary rest = true)
include hrest

/-- The header of a branch is that of a conditional with four letters before it. -/
theorem first_elseIf (start : Nat) :
    first start ("ELSEIF".toList ++ rest)
      = ((first (start + 4) ("IF".toList ++ rest)).1.asElseIf,
          (first (start + 4) ("IF".toList ++ rest)).2.shift 4) := by
  have hcut : headerCut ("ELSEIF".toList ++ rest) = (headerCut ("IF".toList ++ rest)).shift 4 :=
    headerCut_append "ELSE".toList ("IF".toList ++ rest) (by decide) (by decide +kernel)
  have hparam : 6 + Text.leadingBlanks (("ELSEIF".toList ++ rest).drop 6)
      = 4 + (2 + Text.leadingBlanks (("IF".toList ++ rest).drop 2)) :=
    Nat.add_assoc 4 2 (Text.leadingBlanks rest)
  rw [first_header (ofText_elseIf hrest) nofun rfl, first_header (ofText_if hrest) nofun rfl, hcut, hparam]
  generalize 2 + Text.leadingBlanks (("IF".toList ++ rest).drop 2) = param
  generalize headerCut ("IF".toList ++ rest) = cut
  have htext : before (cut.shift 4).stop ("ELSEIF".toList ++ rest)
      = "ELSE".toList ++ before cut.stop ("IF".toList ++ rest) :=
    before_append "ELSE".toList ("IF".toList ++ rest) cut.stop
  rw [htext]
  generalize before cut.stop ("IF".toList ++ rest) = text
  have hmin : min (4 + param) (byteSize ("ELSE".toList ++ text)) = 4 + min param (byteSize text) := by
    rw [Text.byteSize_append]
    exact Nat.add_min_add_left 4 param (byteSize text)
  have hdrop (n : Nat) : Text.dropBytes ("ELSE".toList ++ text) (4 + n) = Text.dropBytes text n :=
    Text.dropBytes_add "ELSE".toList text n
  rw [hmin, hdrop, ofParams_elseIf, Nat.add_assoc]

/-- `ELSEIF` has the statements of `IF`, but for the kind of the first one. -/
theorem scanFrom_elseIf (start : Nat) :
    scanFrom start ("ELSEIF".toList ++ rest)
      = (scanFrom (start + 4) ("IF".toList ++ rest)).modifyHead asElseIf := by
  have hfits := (first_fits (start + 4) ("IF".toList ++ rest)).1
  have helseIf := first_elseIf hrest start
  rcases hfirst : first (start + 4) ("IF".toList ++ rest) with ⟨s, cut⟩
  rw [hfirst] at hfits helseIf
  cases hfits with
  | whole => rw [scanFrom_last hfirst rfl, scanFrom_last helseIf rfl, List.modifyHead_cons]
  | colon h => rw [scanFrom_last hfirst rfl, scanFrom_last helseIf rfl, List.modifyHead_cons]
  | @inner as sep bs h hne =>
    have hcut : Cut.shift 4 ⟨some (byteSize as), some (byteSize (as ++ sep))⟩
        = ⟨some (byteSize ("ELSE".toList ++ as)), some (byteSize ("ELSE".toList ++ as ++ sep))⟩ := by
      rw [List.append_assoc, Text.byteSize_append "ELSE".toList, Text.byteSize_append "ELSE".toList]
      rfl
    have hcs : "ELSEIF".toList ++ rest = ("ELSE".toList ++ as ++ sep) ++ bs := by
      rw [List.append_assoc, List.append_assoc, ← List.append_assoc as, ← h]
      rfl
    rw [hcut] at helseIf
    rw [scanFrom_inner helseIf hcs (by simp), scanFrom_inner hfirst h hne, List.modifyHead_cons,
      List.append_assoc, Text.byteSize_append "ELSE".toList, Nat.add_assoc start 4]
    rfl

end Scan

section Else

variable {blanks rest : List Char} (hboundary : Text.atBoundary (blanks ++ rest) = true)
  (hblanks : ∀ c ∈ blanks, Text.isBlank c = true) (hrest : ∀ c ∈ rest.head?, Text.isBlank c = false)
include hboundary hblanks hrest

/-- An `ELSE` ends behind its blanks. -/
theorem first_else {cut : Cut}
    (hcut : elseCut (byteSize ("ELSE".toList ++ blanks)) ("ELSE".toList ++ blanks ++ rest) = cut)
    (hstop : cut.stop = some (byteSize ("ELSE".toList ++ blanks))) (start : Nat) :
    first start ("ELSE".toList ++ blanks ++ rest)
      = (ofParams .otherwise (start + byteSize ("ELSE".toList ++ blanks)) [], cut) := by
  have hkind : StatementKind.ofText ("ELSE".toList ++ blanks ++ rest) = (.otherwise, some 4) := by
    rw [List.append_assoc]
    exact ofText_else hboundary
  have htake : (blanks ++ rest).takeWhile Text.isBlank = blanks :=
    (Token.takeWhile_append_of_stop hblanks hrest).1
  have hparam : 4 + Text.leadingBlanks (("ELSE".toList ++ blanks ++ rest).drop 4)
      = byteSize ("ELSE".toList ++ blanks) := by
    rw [List.append_assoc, Text.byteSize_append]
    show 4 + Text.leadingBlanks (blanks ++ rest) = 4 + _
    rw [← byteSize_takeWhile_isBlank, htake]
  refine first_of_keyword hkind (by simp) (by decide) (by decide) hparam hcut ?_ start
  rw [hstop, before, Option.bind_some, Text.splitBytes_append, List.append_nil]

/-- The scan goes on with the text behind the blanks, unless a colon stands there. -/
theorem scanFrom_else (hne : rest ≠ []) (hcolon : rest.head? ≠ some ':') (start : Nat) :
    scanFrom start ("ELSE".toList ++ blanks ++ rest)
      = ofParams .otherwise (start + byteSize ("ELSE".toList ++ blanks)) []
          :: scanFrom (start + byteSize ("ELSE".toList ++ blanks)) rest := by
  have hcut : elseCut (byteSize ("ELSE".toList ++ blanks)) ("ELSE".toList ++ blanks ++ rest)
      = ⟨some (byteSize ("ELSE".toList ++ blanks)), some (byteSize ("ELSE".toList ++ blanks ++ []))⟩ := by
    obtain ⟨c, rest, rfl⟩ := List.exists_cons_of_ne_nil hne
    unfold elseCut
    rw [Text.charAt?_append, List.head?_cons, List.append_nil]
    split
    · next h => exact absurd h hcolon
    · rfl
    · next h => cases h
  have hfirst := first_else hboundary hblanks hrest hcut rfl start
  have hdrop : Text.dropBlanks rest = rest := Text.dropWhile_eq_self_iff.mpr hrest
  have hlead : Text.leadingBlanks rest = 0 := by
    have hbytes := byteSize_dropBlanks rest
    rw [hdrop] at hbytes
    omega
  have htext : "ELSE".toList ++ blanks ++ rest = ("ELSE".toList ++ blanks ++ []) ++ rest := by
    rw [List.append_nil]
  rw [scanFrom_inner hfirst htext (by simp), hdrop, hlead, List.append_nil, Nat.add_zero]

end Else

end Statement

/-! ## The lines of the two spellings -/

namespace Line

/-- A line that starts with a keyword has no label. -/
theorem labelOf_cons {c : Char} (hblank : Text.isBlank c = false) (hcolon : c ≠ ':') (cs : List Char) :
    labelOf (c :: cs) = none := by
  have hdrop : Text.dropBlanks (c :: cs) = c :: cs := List.dropWhile_cons_of_neg (by simp [hblank])
  obtain ⟨ds, hds⟩ : ∃ ds, Text.trim (c :: cs) = c :: ds := by
    unfold Text.trim Text.dropTrailing
    rw [hdrop, List.reverse_cons, List.dropWhile_append]
    split
    · exact ⟨[], by simp [hblank]⟩
    · exact ⟨_, by rw [List.reverse_append]; rfl⟩
  unfold labelOf
  rw [hds]
  split
  · next heq =>
    cases heq
    exact absurd rfl hcolon
  · rfl

/-- Whether a statement is a header that ends its line does not depend on the text before it. -/
theorem isHeader_append (as : List Char) {cs : List Char} (hne : cs ≠ []) {s t : Statement}
    (hkind : t.kind.endsAtColon = s.kind.endsAtColon) : isHeader (as ++ cs) [t] = isHeader cs [s] := by
  unfold isHeader
  dsimp only
  rw [hkind, List.getLast?_append, List.getLast?_eq_some_getLast hne, Option.some_or]

end Line

/-- The blanks between two words. -/
structure Gap where
  blanks : List Char
  nonempty : blanks ≠ []
  blank : ∀ c ∈ blanks, Text.isBlank c = true

theorem Gap.boundary (gap : Gap) {cs : List Char} : Text.atBoundary (gap.blanks ++ cs) = true := by
  obtain ⟨b, bs, hb⟩ := List.exists_cons_of_ne_nil gap.nonempty
  have hblank := gap.blank b (by simp [hb])
  rw [hb]
  exact Text.isDelimiter_of_isBlank hblank

/-- A header with a condition, but for its keyword: what stands behind it, and on which line. -/
structure Heading where
  rest : List Char
  number : Nat
  boundary : Text.atBoundary rest = true

namespace Heading

open Statement

/-- `IF`, with the condition and the code of the header. -/
def ifThen (h : Heading) : Line := Line.scan ("IF".toList ++ h.rest) h.number

/-- The header as `ELSEIF`. -/
def elseIf (h : Heading) : Line := Line.scan ("ELSEIF".toList ++ h.rest) h.number

/-- The header as `ELSE IF`. -/
def elseThenIf (h : Heading) (gap : Gap) : Line :=
  Line.scan ("ELSE".toList ++ gap.blanks ++ ("IF".toList ++ h.rest)) h.number

variable (h : Heading) (gap : Gap)

/-- The conditional comes first on its line. -/
theorem exists_scanFrom : ∃ s ss, scanFrom 0 ("IF".toList ++ h.rest) = s :: ss ∧ s.kind = .ifThen := by
  have hkind : (first 0 ("IF".toList ++ h.rest)).1.kind = .ifThen := by
    rw [first_header (ofText_if h.boundary) nofun rfl]
    rfl
  rw [scanFrom]
  dsimp only
  split
  · exact ⟨_, _, rfl, hkind⟩
  · split
    · exact ⟨_, _, rfl, hkind⟩
    · exact ⟨_, _, rfl, hkind⟩

theorem statements_ifThen : h.ifThen.statements = scanFrom 0 ("IF".toList ++ h.rest) := by
  obtain ⟨s, ss, hscan, hkind⟩ := h.exists_scanFrom
  have hmerge : h.ifThen.statements
      = mergeElseIf ("IF".toList ++ h.rest) (scanFrom 0 ("IF".toList ++ h.rest)) := rfl
  rw [hmerge, hscan, mergeElseIf_of_ne (by rw [hkind]; nofun)]

theorem exists_statements : ∃ s ss, h.ifThen.statements = s :: ss ∧ s.kind = .ifThen := by
  rw [statements_ifThen]
  exact h.exists_scanFrom

theorem statements_elseIf {s : Statement} {ss : List Statement} (hs : h.ifThen.statements = s :: ss) :
    h.elseIf.statements = (s.shift 4).asElseIf :: ss.map (shift 4) := by
  have hmerge : h.elseIf.statements
      = mergeElseIf ("ELSEIF".toList ++ h.rest) (scanFrom 0 ("ELSEIF".toList ++ h.rest)) := rfl
  rw [hmerge, scanFrom_elseIf h.boundary, scanFrom_add 0 4, ← statements_ifThen, hs, List.map_cons,
    List.modifyHead_cons]
  exact mergeElseIf_of_ne (a := (s.shift 4).asElseIf) nofun _ _

theorem kind_elseIf : h.elseIf.kind = .elseIf := by
  obtain ⟨s, ss, hs, -⟩ := h.exists_statements
  rw [Line.kind, h.statements_elseIf hs]
  rfl

/-- The text before the conditional in `ELSE IF`. -/
def lead (gap : Gap) : List Char := "ELSE".toList ++ gap.blanks

theorem statements_elseThenIf :
    (h.elseThenIf gap).statements
      = mergeElseIf (lead gap ++ ("IF".toList ++ h.rest))
          (ofParams .otherwise (byteSize (lead gap)) []
            :: h.ifThen.statements.map (shift (byteSize (lead gap)))) := by
  have hmerge : (h.elseThenIf gap).statements
      = mergeElseIf (lead gap ++ ("IF".toList ++ h.rest)) (scanFrom 0 (lead gap ++ ("IF".toList ++ h.rest))) :=
    rfl
  have hhead : ∀ c ∈ ("IF".toList ++ h.rest).head?, Text.isBlank c = false := by
    rintro c hc
    cases hc
    rfl
  have hscan : scanFrom 0 (lead gap ++ ("IF".toList ++ h.rest)) = _ :=
    scanFrom_else gap.boundary gap.blank hhead (by simp) (by simp) 0
  rw [hmerge, hscan, scanFrom_add, statements_ifThen, Nat.zero_add]
  rfl

/-- **`ELSE IF` with nothing behind it is an `ELSEIF`.** -/
theorem statements_elseThenIf_single {s : Statement} (hs : h.ifThen.statements = [s])
    (hkind : s.kind = .ifThen) :
    (h.elseThenIf gap).statements = [(s.shift (byteSize (lead gap))).asElseIf] := by
  have hchar : Text.charAt? (lead gap ++ ("IF".toList ++ h.rest)) (byteSize (lead gap)) = some 'I' :=
    Text.charAt?_append _ _
  rw [statements_elseThenIf, hs, List.map_singleton, mergeElseIf, if_pos]
  · rfl
  · rw [shift_kind, hkind]
    simp only [ofParams, hchar]
    decide

/-- **`ELSE IF` with code behind it is an `ELSE`**, and the conditional is its code. -/
theorem statements_elseThenIf_more (hmore : 1 < h.ifThen.statements.length) :
    (h.elseThenIf gap).statements
      = ofParams .otherwise (byteSize (lead gap)) []
          :: h.ifThen.statements.map (shift (byteSize (lead gap))) := by
  rw [statements_elseThenIf]
  obtain ⟨s, t, ss, hss⟩ : ∃ s t ss, h.ifThen.statements = s :: t :: ss := by
    match h.ifThen.statements, hmore with
    | s :: t :: ss, _ => exact ⟨s, t, ss, rfl⟩
  rw [hss]
  rfl

/-! ### The same statements behind other text -/

theorem moved_elseIf : h.ifThen.Moved "ELSE".toList 0 1 h.elseIf where
  text := rfl
  number := rfl
  count := by
    obtain ⟨s, ss, hs, -⟩ := h.exists_statements
    rw [h.statements_elseIf hs, hs, List.length_cons, List.length_cons, List.length_map, Nat.add_zero]
  get := by
    intro i hi
    obtain ⟨i, rfl⟩ : ∃ j, i = j + 1 := ⟨i - 1, by omega⟩
    obtain ⟨s, ss, hs, -⟩ := h.exists_statements
    rw [h.statements_elseIf hs, hs, Nat.add_zero, List.getElem?_cons_succ, List.getElem?_cons_succ,
      List.getElem?_map]
    rfl

variable {h}

theorem moved_elseThenIf_single {s : Statement} (hs : h.ifThen.statements = [s]) (hkind : s.kind = .ifThen) :
    h.ifThen.Moved (lead gap) 0 1 (h.elseThenIf gap) where
  text := rfl
  number := rfl
  count := by rw [statements_elseThenIf_single h gap hs hkind, hs]; rfl
  get := by
    intro i hi
    obtain ⟨i, rfl⟩ : ∃ j, i = j + 1 := ⟨i - 1, by omega⟩
    rw [statements_elseThenIf_single h gap hs hkind, hs]
    rfl

theorem moved_elseThenIf_more (hmore : 1 < h.ifThen.statements.length) :
    h.ifThen.Moved (lead gap) 1 0 (h.elseThenIf gap) where
  text := rfl
  number := rfl
  count := by rw [statements_elseThenIf_more h gap hmore, List.length_cons, List.length_map]
  get := by
    intro i _
    rw [statements_elseThenIf_more h gap hmore, List.getElem?_cons_succ, List.getElem?_map]

/-! ### Headers with their code on the next lines -/

theorem label_elseIf : h.elseIf.label = none := Line.labelOf_cons (by decide) (by decide) _

theorem label_elseThenIf : (h.elseThenIf gap).label = none := Line.labelOf_cons (by decide) (by decide) _

theorem isMultiline_elseIf : h.elseIf.isMultiline = h.ifThen.isMultiline := by
  obtain ⟨s, ss, hs, hkind⟩ := h.exists_statements
  show Line.isHeader ("ELSE".toList ++ ("IF".toList ++ h.rest)) h.elseIf.statements
    = Line.isHeader ("IF".toList ++ h.rest) h.ifThen.statements
  rw [h.statements_elseIf hs, hs]
  cases ss with
  | nil =>
    refine Line.isHeader_append _ (by simp) ?_
    rw [hkind]
    rfl
  | cons t ss => rfl

/-- A header with its code on the next lines has one statement. -/
theorem exists_single (hmulti : h.ifThen.isMultiline = true) :
    ∃ s, h.ifThen.statements = [s] ∧ s.kind = .ifThen := by
  obtain ⟨s, ss, hs, hkind⟩ := h.exists_statements
  cases ss with
  | nil => exact ⟨s, hs, hkind⟩
  | cons t ss =>
    have hfalse : Line.isHeader ("IF".toList ++ h.rest) h.ifThen.statements = true := hmulti
    rw [hs] at hfalse
    cases hfalse

theorem isMultiline_elseThenIf (hmulti : h.ifThen.isMultiline = true) :
    (h.elseThenIf gap).isMultiline = true := by
  obtain ⟨s, hs, hkind⟩ := exists_single hmulti
  have hheader : Line.isHeader ("IF".toList ++ h.rest) h.ifThen.statements = true := hmulti
  rw [hs] at hheader
  show Line.isHeader (lead gap ++ ("IF".toList ++ h.rest)) (h.elseThenIf gap).statements = true
  rw [statements_elseThenIf_single h gap hs hkind, ← hheader]
  refine Line.isHeader_append _ (by simp) ?_
  rw [hkind]
  rfl

/-- A header with a colon and one statement has its code on the next lines. -/
theorem isMultiline_of_hasColon {s : Statement} (hs : h.ifThen.statements = [s])
    (hcolon : h.ifThen.hasColon s = true) : h.ifThen.isMultiline = true := by
  obtain ⟨s', ss, hs', hkind⟩ := h.exists_statements
  rw [hs] at hs'
  cases hs'
  obtain ⟨init, last, hscan, hstop⟩ := stop_last_scanFrom 0 ("IF".toList ++ h.rest)
  rw [← statements_ifThen, hs] at hscan
  obtain ⟨rfl, rfl⟩ : init = [] ∧ s = last := by
    cases init with
    | nil => exact ⟨rfl, by simpa using hscan⟩
    | cons i init => simp at hscan
  show Line.isHeader ("IF".toList ++ h.rest) h.ifThen.statements = true
  rw [hs]
  have hchar : Text.charAt? ("IF".toList ++ h.rest) s.stop = some ':' := beq_iff_eq.mp hcolon
  rw [Line.isHeader, hkind]
  rcases hstop with hstop | ⟨as, has, -⟩
  · have hnone := Text.charAt?_append ("IF".toList ++ h.rest) []
    rw [List.append_nil, ← Nat.zero_add (byteSize _), ← hstop, hchar] at hnone
    cases hnone
  · rw [has, List.getLast?_concat]
    rfl

/-! ### Conditions -/

/-- The condition does not depend on the keyword of its header. -/
theorem condition_asElseIf (c : Calls) (line : Line) {s : Statement} (hkind : s.kind = .ifThen) :
    Machine.condition c line s.asElseIf = Machine.condition c line s := by
  have hargs (index : Nat) (spans : List Span) :
      Machine.evalArgs c line .elseIf index spans = Machine.evalArgs c line .ifThen index spans := by
    induction spans generalizing index with
    | nil => rfl
    | cons span rest ih =>
      simp only [Machine.evalArgs, ih]
      rfl
  unfold Machine.condition Machine.statementArgs
  rw [hkind, ← hargs]
  rfl

theorem condition_moved_asElseIf {before : List Char} {j low : Nat} {line moved : Line}
    (hmoved : line.Moved before j low moved) (c : Calls) {s : Statement} (hkind : s.kind = .ifThen) :
    Machine.condition c moved (s.shift (byteSize before)).asElseIf = Machine.condition c line s := by
  have hshift : (s.shift (byteSize before)).kind = .ifThen := hkind
  rw [condition_asElseIf c moved hshift, Machine.condition_moved hmoved]

end Heading


end QuestScript
