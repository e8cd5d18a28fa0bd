import QuestScript.Proofs.Line.ElseIf
import QuestScript.Proofs.Line.Spans
import QuestScript.Proofs.Text.Words

/-!
# Conditionals on one line

A line may hold a conditional with all its code, and in each part another one:

    IF A: IF B: *P 1 & *P 2 ELSE *P 3 ELSE *P 4

An `ELSE` belongs to the nearest `IF` before it that has none yet. `Inline` is the tree of such a line,
with the line as an index; the scan turns it into a flat list of statements (`statements_scan`).

A part that an `ELSE` may follow must have an `ELSE` for every `IF`, or it would take this one for its own,
and its last statement must end where the word `ELSE` is seen. The first index says whether this is so.
-/

namespace QuestScript

open Text (byteSize delimiterPos? leadingBlanks dropBlanks isBlank Standing)

/-! ## Keywords behind which the line goes on -/

namespace StatementKind

/-- An `&` ends a keyword. -/
theorem ofText_ampersand {core : List Char} (hne : core ≠ []) (rest : List Char) :
    ofText (core ++ '&' :: rest) = ofText core := by
  have hall : ∀ k ∈ keywords, '&' ∉ k.1.toList := by decide +kernel
  refine ofText_append hne fun k hk => startsWith_append ?_ fun _ => rfl
  intro more hmore _ hhead
  obtain ⟨tail, rfl⟩ := List.head?_eq_some_iff.mp hhead
  exact hall k hk (by rw [hmore]; simp)

/-- Neighbours in a text are neighbours wherever they stand in it. -/
theorem mem_zip_tail (as : List Char) (a b : Char) (bs : List Char) :
    (a, b) ∈ (as ++ a :: b :: bs).zip (as ++ a :: b :: bs).tail := by
  induction as with
  | nil => simp
  | cons x as ih =>
    obtain ⟨y, ys, hys⟩ : ∃ y ys, as ++ a :: b :: bs = y :: ys := List.exists_cons_of_ne_nil (by simp)
    rw [hys, List.tail_cons] at ih
    rw [List.cons_append, List.tail_cons, hys, List.zip_cons_cons]
    exact List.mem_cons_of_mem _ ih

/-- An `ELSE` behind a delimiter does not make a keyword longer. -/
theorem ofText_else {core : List Char} (hne : core ≠ []) (hlast : ∀ c ∈ core.getLast?, Text.isDelimiter c = true)
    (rest : List Char) : ofText (core ++ ("ELSE".toList ++ rest)) = ofText core := by
  have hinner : ∀ k ∈ keywords, ∀ p ∈ k.1.toList.zip k.1.toList.tail, p.2 = 'E' → Text.isDelimiter p.1 = false := by
    decide +kernel
  have hend : ∀ k ∈ keywords, k.1.toList.getLast?.any Text.isDelimiter = false := by decide +kernel
  have hdelimiter := hlast _ (List.getLast?_eq_some_getLast hne)
  refine ofText_append hne fun k hk => startsWith_append ?_ ?_
  · intro more hmore _ hhead
    obtain ⟨tail, rfl⟩ : ∃ tail, more = 'E' :: tail := List.head?_eq_some_iff.mp hhead
    have hmem := mem_zip_tail core.dropLast (core.getLast hne) 'E' tail
    have hcore : core.dropLast ++ core.getLast hne :: 'E' :: tail = k.1.toList := by
      rw [hmore]
      conv_rhs => rw [← List.dropLast_concat_getLast hne]
      simp
    rw [hcore] at hmem
    rw [hinner k hk _ hmem rfl] at hdelimiter
    cases hdelimiter
  · intro heq
    have hk' := hend k hk
    rw [heq, List.getLast?_eq_some_getLast hne, Option.any_some, hdelimiter] at hk'
    cases hk'

/-- Kinds of statements that are no headers, and no comment or `ELSE`. -/
def isSimple : StatementKind → Bool
  | .comment | .ifThen | .elseIf | .otherwise | .act | .loop | .forTo => false
  | _ => true

theorem endsAtColon_of_isSimple {kind : StatementKind} (h : kind.isSimple = true) : kind.endsAtColon = false := by
  revert h
  cases kind <;> decide

end StatementKind

namespace Statement

/-- If something is left without the blanks, a text behind it changes nothing about them. -/
theorem dropBlanks_append {as : List Char} (h : dropBlanks as ≠ []) (bs : List Char) :
    dropBlanks (as ++ bs) = dropBlanks as ++ bs := by
  have hany : ¬ (as.dropWhile isBlank).isEmpty = true := by simpa [dropBlanks] using h
  rw [dropBlanks, List.dropWhile_append, if_neg hany]
  rfl

theorem leadingBlanks_append_of_ne_nil {as : List Char} (h : dropBlanks as ≠ []) (bs : List Char) :
    leadingBlanks (as ++ bs) = leadingBlanks as := by
  have hall := byteSize_dropBlanks (as ++ bs)
  rw [dropBlanks_append h, Text.byteSize_append, Text.byteSize_append, ← byteSize_dropBlanks as] at hall
  omega

/-- A text that does not start with a blank adds none to those before it. -/
theorem leadingBlanks_append {as bs : List Char} (h : ∀ c ∈ bs.head?, isBlank c = false) :
    leadingBlanks (as ++ bs) = leadingBlanks as := by
  have hnil : ([] ++ bs).takeWhile isBlank = [] := (Token.takeWhile_append_of_stop (by simp) h).1
  rw [List.nil_append] at hnil
  unfold leadingBlanks
  rw [List.takeWhile_append]
  split
  · next hall => rw [hnil, List.append_nil, hall]
  · rfl

theorem kind_ofParams (kind : StatementKind) (param : Nat) (cs : List Char) :
    (ofParams kind param cs).kind = kind := by
  unfold ofParams
  split
  rfl

/-- Where the parameters start behind a keyword of the given length. -/
def paramAt (cs : List Char) : Option Nat → Nat
  | some n => n + leadingBlanks (cs.drop n)
  | none => 0

/-- The parameters of a statement start where they start without what follows. -/
theorem paramAt_append {core rest : List Char} {kind : StatementKind} {keyword : Option Nat}
    (hk : StatementKind.ofText core = (kind, keyword)) (hrest : ∀ c ∈ rest.head?, isBlank c = false) :
    paramAt (core ++ rest) keyword = paramAt core keyword := by
  cases keyword with
  | none => rfl
  | some n =>
    obtain ⟨word, hword, -, hlength, -⟩ := exists_keyword hk
    have hle : n ≤ core.length := by
      rw [hword, List.length_append]
      omega
    show n + leadingBlanks ((core ++ rest).drop n) = n + leadingBlanks (core.drop n)
    rw [List.drop_append_of_le_length hle, leadingBlanks_append hrest]

/-- The first statement of a text whose keyword is a simple one: it is cut where the plain search cuts it. -/
theorem first_simple {cs : List Char} {kind : StatementKind} {keyword : Option Nat}
    (hk : StatementKind.ofText cs = (kind, keyword)) (hne : cs ≠ []) (hkind : kind.isSimple = true) (start : Nat) :
    first start cs
      = (ofParams (if kind = .unknown then withoutKeyword (before (plainCut cs).stop cs) else kind)
            (start + min (paramAt cs keyword) (byteSize (before (plainCut cs).stop cs)))
            (Text.dropBytes (before (plainCut cs).stop cs)
              (min (paramAt cs keyword) (byteSize (before (plainCut cs).stop cs)))),
          plainCut cs) := by
  have hcolon : ¬ kind.endsAtColon = true := by simp [StatementKind.endsAtColon_of_isSimple hkind]
  have hcomment : kind ≠ .comment := by
    rintro rfl
    cases hkind
  have helse : kind ≠ .otherwise := by
    rintro rfl
    cases hkind
  have hplain : ¬ (cs.isEmpty || decide (kind = .comment)) = true := by simp [hne, hcomment]
  unfold first
  simp only [hk, if_neg hplain, if_neg hcolon, if_neg helse]
  rfl

/-- A statement that is no header is the same when the line goes on behind it. -/
theorem first_append {core rest : List Char} {cut : Cut} (hne : core ≠ [])
    (hkind : (StatementKind.ofText core).1.isSimple = true)
    (hsame : StatementKind.ofText (core ++ rest) = StatementKind.ofText core)
    (hrest : ∀ c ∈ rest.head?, isBlank c = false) (halone : plainCut core = {})
    (hcut : plainCut (core ++ rest) = cut) (hstop : cut.stop = some (byteSize core)) (start : Nat) :
    first start (core ++ rest) = ((first start core).1, cut) := by
  have hbefore : before cut.stop (core ++ rest) = core := by
    rw [hstop, before, Option.bind_some, Text.splitBytes_append]
  rcases hk : StatementKind.ofText core with ⟨kind, keyword⟩
  rw [hk] at hkind hsame
  rw [first_simple hsame (by simp [hne]) hkind, first_simple hk hne hkind, paramAt_append hk hrest, hcut,
    hbefore, halone]
  rfl

/-- A line goes on behind a colon if anything stands there. -/
theorem next_colon (as : List Char) {bs : List Char} (hne : bs ≠ []) :
    (if byteSize as + 1 < byteSize (as ++ ':' :: bs) then some (byteSize as + 1) else none)
      = some (byteSize (as ++ [':'])) := by
  have hpos := Text.byteSize_pos hne
  have hcolon : byteSize (':' :: bs) = 1 + byteSize bs := rfl
  rw [if_pos (by rw [Text.byteSize_append]; omega), Text.byteSize_append]
  rfl

/-- The statements of a text at byte `base` that may start with blanks. -/
def scanAt (base : Nat) (cs : List Char) : List Statement := scanFrom (base + leadingBlanks cs) (dropBlanks cs)

/-- Blanks before the statements are skipped. -/
theorem scanAt_append {lead cs : List Char} (hlead : ∀ c ∈ lead, isBlank c = true)
    (hcs : ∀ c ∈ cs.head?, isBlank c = false) (base : Nat) :
    scanAt base (lead ++ cs) = scanFrom (base + byteSize lead) cs := by
  obtain ⟨htake, hdrop⟩ := Token.takeWhile_append_of_stop hlead hcs
  unfold scanAt
  rw [← byteSize_takeWhile_isBlank, htake, dropBlanks, hdrop]

end Statement

open Statement

/-! ## Statements of a conditional -/

/-- A statement that is no header, comment or `ELSE`, with the blanks before it; behind it the line may go
on with an `&`. -/
structure Simple where
  lead : List Char
  core : List Char
  blank : ∀ c ∈ lead, isBlank c = true
  starts : ∃ c ∈ core.head?, isBlank c = false
  kind : (StatementKind.ofText core).1.isSimple = true
  noAmpersand : delimiterPos? core '&' = none
  noElse : Text.wordPos? core "ELSE".toList true = none

namespace Simple

/-- A statement as it stands, with the blanks before it. -/
def text (s : Simple) : List Char := s.lead ++ s.core

/-- No literal or bracket is left open. -/
def Closed (s : Simple) : Prop := Standing.after {} s.core = {}

/-- An `ELSE` may follow without an `&`. -/
def Parted (s : Simple) : Prop := s.Closed ∧ ∀ c ∈ s.core.getLast?, Text.isDelimiter c = true

instance (s : Simple) : Decidable s.Closed := inferInstanceAs (Decidable (Standing.after {} s.core = {}))

/-- The statement, in a text in which it stands at byte `base` with its blanks. -/
def statement (s : Simple) (base : Nat) : Statement := (first (base + byteSize s.lead) s.core).1

variable (s : Simple)

theorem core_ne_nil : s.core ≠ [] := by
  obtain ⟨c, hc, -⟩ := s.starts
  rintro h
  rw [h] at hc
  cases hc

theorem head?_core (rest : List Char) : ∀ c ∈ (s.core ++ rest).head?, isBlank c = false := by
  obtain ⟨c, hc, hblank⟩ := s.starts
  intro x hx
  rw [List.head?_append, hc, Option.some_or] at hx
  cases hx
  exact hblank

/-- A statement that stands alone is not cut. -/
theorem plainCut_core : plainCut s.core = {} := by
  rw [plainCut, s.noAmpersand, s.noElse]

/-- The search for `ELSE` goes on behind the statement. -/
theorem wordPos?_append {rest : List Char} (hclosed : s.Closed) (hquote : ∀ c ∈ rest.head?, Text.isQuote c = false)
    (hjoin : Text.atBoundary rest = true ∨ ∀ c ∈ s.core.getLast?, Text.isDelimiter c = true) :
    Text.wordPos? (s.core ++ rest) "ELSE".toList true
      = Text.wordFrom? "ELSE".toList true {} (Text.freshAfter true s.core) (byteSize s.core) rest := by
  have hnone := s.noElse
  rw [Text.wordPos?, if_neg (by decide)] at hnone ⊢
  have hword : ("ELSE".toList.all (Text.isDelimiter · == false)) = true := by decide
  rw [Text.wordFrom?_append (fun c hc => eq_of_beq (List.all_eq_true.mp hword c hc)) hnone hclosed hquote hjoin,
    Nat.zero_add]

/-- A statement that closes what it opens is cut at the sign behind it. -/
theorem plainCut_ampersand (hclosed : s.Closed) (rest : List Char) :
    plainCut (s.core ++ '&' :: rest) = ⟨some (byteSize s.core), some (byteSize (s.core ++ ['&']))⟩ := by
  have hamp : delimiterPos? (s.core ++ '&' :: rest) '&' = some (byteSize s.core) := by
    rw [Text.delimiterPos?_append (by decide) hclosed s.noAmpersand, delimiterPos?, Text.delimiterFrom?,
      if_neg (by decide), if_pos (by decide), Option.map_some, Nat.add_zero]
  have hnext : byteSize s.core + 1 = byteSize (s.core ++ ['&']) := by
    rw [Text.byteSize_append]
    rfl
  have hword : Text.wordPos? (s.core ++ '&' :: rest) "ELSE".toList true = _ :=
    s.wordPos?_append hclosed (by rintro c ⟨⟩; rfl) (.inl rfl)
  unfold plainCut
  rw [hamp, hword, ← hnext]
  split
  · next a e ha he =>
    -- an `ELSE` further on does not matter
    cases ha
    obtain ⟨n, rfl, -⟩ := wordAt_of_wordFrom? he
    rw [if_neg (by omega)]
  · next ha _ => cases ha
  · next ha _ =>
    cases ha
    rfl
  · next ha _ => cases ha

/-- A statement that parts from what follows is cut at the word behind it. -/
theorem plainCut_else (hparted : s.Parted) {rest : List Char} (hrest : Text.atBoundary rest = true) :
    plainCut (s.core ++ ("ELSE".toList ++ rest)) = ⟨some (byteSize s.core), some (byteSize (s.core ++ []))⟩ := by
  obtain ⟨hclosed, hlast⟩ := hparted
  have hfresh : Text.freshAfter true s.core = true := by
    unfold Text.freshAfter
    rw [List.getLast?_eq_some_getLast s.core_ne_nil, Option.map_some, Option.getD_some]
    exact hlast _ (List.getLast?_eq_some_getLast s.core_ne_nil)
  have hword : Text.wordPos? (s.core ++ ("ELSE".toList ++ rest)) "ELSE".toList true = some (byteSize s.core) := by
    rw [s.wordPos?_append hclosed (by rintro c ⟨⟩; rfl) (.inr hlast), hfresh]
    show Text.wordFrom? "ELSE".toList true {} true (byteSize s.core) ('E' :: ("LSE".toList ++ rest)) = _
    rw [Text.wordFrom?_cons _ _ _ _ _ (by decide), if_neg (by decide), if_neg (by decide), if_pos]
    rw [Text.startsWord, Bool.and_eq_true, Bool.and_eq_true]
    exact ⟨⟨rfl, List.isPrefixOf_iff_prefix.mpr (List.prefix_append "ELSE".toList rest)⟩, hrest⟩
  have hamp : delimiterPos? (s.core ++ ("ELSE".toList ++ rest)) '&' = _ :=
    Text.delimiterPos?_append (by decide) hclosed s.noAmpersand
  unfold plainCut
  rw [hword, hamp, List.append_nil]
  cases hpos : delimiterPos? ("ELSE".toList ++ rest) '&' with
  | none => rfl
  | some p =>
    obtain ⟨as, bs, htext, rfl⟩ := exists_of_delimiterPos? (by decide) hpos
    have hne : as ≠ [] := by
      rintro rfl
      cases htext
    have := Text.byteSize_pos hne
    simp only [Option.map_some]
    rw [if_pos (by omega)]

theorem first_ampersand (hclosed : s.Closed) (rest : List Char) (start : Nat) :
    first start (s.core ++ '&' :: rest)
      = ((first start s.core).1, ⟨some (byteSize s.core), some (byteSize (s.core ++ ['&']))⟩) :=
  first_append s.core_ne_nil s.kind (StatementKind.ofText_ampersand s.core_ne_nil rest)
    (by rintro c ⟨⟩; rfl) s.plainCut_core (s.plainCut_ampersand hclosed rest) rfl start

theorem first_else (hparted : s.Parted) {rest : List Char} (hrest : Text.atBoundary rest = true) (start : Nat) :
    first start (s.core ++ ("ELSE".toList ++ rest))
      = ((first start s.core).1, ⟨some (byteSize s.core), some (byteSize (s.core ++ []))⟩) :=
  first_append s.core_ne_nil s.kind (StatementKind.ofText_else s.core_ne_nil hparted.2 rest)
    (by rintro c ⟨⟩; rfl) s.plainCut_core (s.plainCut_else hparted hrest) rfl start

/-- The statement is no header, comment or `ELSE` either. -/
theorem isSimple_kind (base : Nat) : (s.statement base).kind.isSimple = true := by
  rcases hk : StatementKind.ofText s.core with ⟨kind, keyword⟩
  have hkind := s.kind
  rw [hk] at hkind
  rw [statement, first_simple hk s.core_ne_nil hkind, kind_ofParams]
  split
  · unfold withoutKeyword
    split
    · rfl
    · split
      · rfl
      · rfl
  · exact hkind

theorem kind_ne_otherwise (base : Nat) : (s.statement base).kind ≠ .otherwise := by
  intro h
  have hsimple := s.isSimple_kind base
  rw [h] at hsimple
  cases hsimple

/-- Alone it is the only statement of its text. -/
theorem scanAt_alone (base : Nat) : scanAt base s.text = [s.statement base] := by
  have hnext : (first (base + byteSize s.lead) s.core).2.next = none := by
    rcases hk : StatementKind.ofText s.core with ⟨kind, keyword⟩
    have hkind := s.kind
    rw [hk] at hkind
    rw [first_simple hk s.core_ne_nil hkind, s.plainCut_core]
  have hcore := s.head?_core []
  rw [List.append_nil] at hcore
  rw [text, scanAt_append s.blank hcore, scanFrom_last rfl hnext]
  rfl

/-- Before the sign it is the first one, and the scan goes on behind the sign. -/
theorem scanAt_ampersand (hclosed : s.Closed) (base : Nat) (rest : List Char) :
    scanAt base (s.text ++ '&' :: rest) = s.statement base :: scanAt (base + byteSize s.text + 1) rest := by
  have hstart : base + byteSize s.lead + byteSize (s.core ++ ['&']) = base + byteSize s.text + 1 := by
    rw [text, Text.byteSize_append, Text.byteSize_append, Nat.add_assoc, Nat.add_assoc base, Nat.add_assoc]
    rfl
  have htext : s.core ++ '&' :: rest = (s.core ++ ['&']) ++ rest := by simp
  rw [text, List.append_assoc, scanAt_append s.blank (s.head?_core _),
    scanFrom_inner (s.first_ampersand hclosed rest _) htext (by simp), hstart]
  rfl

/-- Before the word it is the first one, and the scan goes on at the word. -/
theorem scanAt_else (hparted : s.Parted) (base : Nat) {rest : List Char} (hrest : Text.atBoundary rest = true) :
    scanAt base (s.text ++ ("ELSE".toList ++ rest))
      = s.statement base :: scanFrom (base + byteSize s.text) ("ELSE".toList ++ rest) := by
  have hstart : base + byteSize s.lead + byteSize (s.core ++ []) = base + byteSize s.text := by
    rw [List.append_nil, text, Text.byteSize_append, Nat.add_assoc]
  have htext : s.core ++ ("ELSE".toList ++ rest) = (s.core ++ []) ++ ("ELSE".toList ++ rest) := by
    rw [List.append_nil]
  rw [text, List.append_assoc, scanAt_append s.blank (s.head?_core _),
    scanFrom_inner (s.first_else hparted hrest _) htext (by simp [s.core_ne_nil]), hstart]
  rfl

end Simple

/-- The header of a conditional up to its colon, with the blanks before it. -/
structure Condition where
  lead : List Char
  rest : List Char
  blank : ∀ c ∈ lead, isBlank c = true
  boundary : Text.atBoundary rest = true
  closed : Standing.after {} rest = {}
  noColon : delimiterPos? rest ':' = none

namespace Condition

/-- A condition with its keyword. -/
def core (c : Condition) : List Char := "IF".toList ++ c.rest

/-- The same with the blanks before it. -/
def text (c : Condition) : List Char := c.lead ++ c.core

/-- The header, in a text in which it stands at byte `base` with its blanks. -/
def statement (c : Condition) (base : Nat) : Statement := (first (base + byteSize c.lead) (c.core ++ [':'])).1

variable (c : Condition)

/-- The colon that ends a condition is the first one outside of it. -/
theorem delimiterPos?_colon (rest : List Char) :
    delimiterPos? (c.core ++ ':' :: rest) ':' = some (byteSize c.core) := by
  have hnone : delimiterPos? "IF".toList ':' = none := by decide +kernel
  have hcore : delimiterPos? c.core ':' = none := by
    rw [core, Text.delimiterPos?_append (by decide) (by decide) hnone, c.noColon, Option.map_none]
  have hclosed : Standing.after {} c.core = {} := by
    rw [core, Standing.after_append]
    exact c.closed
  rw [Text.delimiterPos?_append (by decide) hclosed hcore, delimiterPos?, Text.delimiterFrom?, if_neg (by decide),
    if_pos (by decide), Option.map_some, Nat.add_zero]

/-- The header ends at its colon, whatever follows. -/
theorem first_colon (rest : List Char) (start : Nat) :
    first start (c.core ++ ':' :: rest)
      = (ofParams .ifThen (start + min (2 + leadingBlanks c.rest) (byteSize c.core))
            (Text.dropBytes c.core (min (2 + leadingBlanks c.rest) (byteSize c.core))),
          headerCut (c.core ++ ':' :: rest)) := by
  have hkind : StatementKind.ofText (c.core ++ ':' :: rest) = (.ifThen, some 2) := by
    rw [core, List.append_assoc]
    exact ofText_if (Text.atBoundary_append c.boundary rfl)
  have hstop : (headerCut (c.core ++ ':' :: rest)).stop = some (byteSize c.core) := by
    rw [headerCut, c.delimiterPos?_colon]
  have hbefore : before (some (byteSize c.core)) (c.core ++ ':' :: rest) = c.core := by
    rw [before, Option.bind_some, Text.splitBytes_append]
  have hparam : leadingBlanks ((c.core ++ ':' :: rest).drop 2) = leadingBlanks c.rest := by
    show leadingBlanks (c.rest ++ ':' :: rest) = _
    exact leadingBlanks_append (by rintro c ⟨⟩; rfl)
  rw [first_header hkind (by simp) rfl, hstop, hbefore, hparam]

theorem head?_core (rest : List Char) : ∀ x ∈ (c.core ++ rest).head?, isBlank x = false := by
  rintro x ⟨⟩
  rfl

theorem kind_statement (base : Nat) : (c.statement base).kind = .ifThen := by
  rw [statement, c.first_colon, kind_ofParams]

theorem stop_statement (base : Nat) : (c.statement base).stop = base + byteSize c.text := by
  have hcut : (first (base + byteSize c.lead) (c.core ++ [':'])).2.stop = some (byteSize c.core) := by
    rw [c.first_colon, headerCut, c.delimiterPos?_colon]
  have hstop := (first_fits (base + byteSize c.lead) (c.core ++ [':'])).2
  rw [hcut, before, Option.bind_some, Text.splitBytes_append] at hstop
  rw [statement, hstop, text, Text.byteSize_append, Nat.add_assoc]

/-- With nothing behind its colon the header is the only statement. -/
theorem scanAt_alone (base : Nat) : scanAt base (c.text ++ [':']) = [c.statement base] := by
  have hnext : (first (base + byteSize c.lead) (c.core ++ [':'])).2.next = none := by
    rw [c.first_colon, headerCut, c.delimiterPos?_colon, Text.byteSize_append]
    exact if_neg (Nat.lt_irrefl _)
  rw [text, List.append_assoc, scanAt_append c.blank (c.head?_core _), scanFrom_last rfl hnext]
  rfl

/-- Behind the colon the scan goes on with the code of the conditional. -/
theorem scanAt_colon {rest : List Char} (hne : rest ≠ []) (base : Nat) :
    scanAt base (c.text ++ ':' :: rest) = c.statement base :: scanAt (base + byteSize c.text + 1) rest := by
  have hcut : headerCut (c.core ++ ':' :: rest) = ⟨some (byteSize c.core), some (byteSize (c.core ++ [':']))⟩ := by
    rw [headerCut, c.delimiterPos?_colon]
    simp only [next_colon c.core hne]
  have hfirst : first (base + byteSize c.lead) (c.core ++ ':' :: rest)
      = (c.statement base, ⟨some (byteSize c.core), some (byteSize (c.core ++ [':']))⟩) := by
    rw [statement, c.first_colon, c.first_colon, hcut]
  have hstart : base + byteSize c.lead + byteSize (c.core ++ [':']) = base + byteSize c.text + 1 := by
    rw [text, Text.byteSize_append, Text.byteSize_append, Nat.add_assoc, Nat.add_assoc base, Nat.add_assoc]
    rfl
  have htext : c.core ++ ':' :: rest = (c.core ++ [':']) ++ rest := by simp
  rw [text, List.append_assoc, scanAt_append c.blank (c.head?_core _), scanFrom_inner hfirst htext (by simp),
    hstart]
  rfl

end Condition

/-- What may stand between an `ELSE` and its code: nothing, or blanks and a colon. -/
inductive Joint : List Char → List Char → Prop
  | plain {code : List Char} (boundary : Text.atBoundary code = true)
      (noColon : (dropBlanks code).head? ≠ some ':') : Joint [] code
  | colon {blanks code : List Char} (blank : ∀ c ∈ blanks, isBlank c = true) : Joint (blanks ++ [':']) code

namespace Joint

variable {joint code : List Char}

theorem atBoundary (h : Joint joint code) : Text.atBoundary (joint ++ code) = true := by
  cases h with
  | plain hboundary _ => exact hboundary
  | @colon blanks code hblank =>
    cases blanks with
    | nil => rfl
    | cons b bs => exact Text.isDelimiter_of_isBlank (hblank b List.mem_cons_self)

/-- What joins code to the word before it does so whatever follows the code. -/
theorem append (h : Joint joint code) (hcode : dropBlanks code ≠ []) (rest : List Char) :
    Joint joint (code ++ rest) := by
  cases h with
  | plain hboundary hcolon =>
    refine .plain ?_ ?_
    · cases code with
      | nil => exact absurd rfl hcode
      | cons x code => exact hboundary
    · rw [dropBlanks_append hcode]
      obtain ⟨c, tail, htail⟩ := List.exists_cons_of_ne_nil hcode
      rw [htail] at hcolon ⊢
      exact hcolon
  | colon hblank => exact .colon hblank

/-- The `ELSE` with its blanks, at byte `start`. -/
def statement (start : Nat) (joint code : List Char) : Statement :=
  ofParams .otherwise (start + 4 + leadingBlanks (joint ++ code)) []

theorem statement_append (h : Joint joint code) (hcode : dropBlanks code ≠ []) (start : Nat) (rest : List Char) :
    statement start joint (code ++ rest) = statement start joint code := by
  have hne : dropBlanks (joint ++ code) ≠ [] := by
    cases h with
    | plain _ _ => exact hcode
    | @colon blanks code hblank =>
      have hcolon : ∀ c ∈ (':' :: code).head?, isBlank c = false := by
        rintro c ⟨⟩
        rfl
      rw [List.append_assoc, List.singleton_append, dropBlanks, (Token.takeWhile_append_of_stop hblank hcolon).2]
      exact List.cons_ne_nil _ _
  rw [statement, statement, ← List.append_assoc, leadingBlanks_append_of_ne_nil hne]

/-- The scan goes on with the code. -/
theorem scanFrom_else (h : Joint joint code) (hcode : dropBlanks code ≠ []) (start : Nat) :
    scanFrom start ("ELSE".toList ++ (joint ++ code))
      = statement start joint code :: scanAt (start + 4 + byteSize joint) code := by
  have hsize (blanks : List Char) : start + byteSize ("ELSE".toList ++ blanks) = start + 4 + byteSize blanks := by
    rw [Text.byteSize_append, ← Nat.add_assoc]
    rfl
  cases h with
  | plain hboundary hcolon =>
    have hblanks : code = code.takeWhile isBlank ++ dropBlanks code := List.takeWhile_append_dropWhile.symm
    have hscan := Statement.scanFrom_else (hblanks ▸ hboundary) Token.of_mem_takeWhile
      (Token.head?_dropWhile_stop isBlank code) hcode hcolon start
    rw [hsize, byteSize_takeWhile_isBlank, List.append_assoc] at hscan
    rw [List.nil_append]
    conv_lhs => rw [hblanks]
    exact hscan
  | @colon blanks code hblank =>
    have hne : code ≠ [] := by
      rintro rfl
      exact hcode rfl
    have hcolon : ∀ c ∈ (':' :: code).head?, isBlank c = false := by
      rintro c ⟨⟩
      rfl
    have hcut : elseCut (byteSize ("ELSE".toList ++ blanks)) ("ELSE".toList ++ blanks ++ ':' :: code)
        = ⟨some (byteSize ("ELSE".toList ++ blanks)), some (byteSize ("ELSE".toList ++ blanks ++ [':']))⟩ := by
      rw [elseCut, Text.charAt?_append, List.head?_cons]
      simp only [next_colon _ hne]
    have hboundary : Text.atBoundary (blanks ++ ':' :: code) = true := by
      have h := (Joint.colon hblank : Joint _ code).atBoundary
      rwa [List.append_assoc, List.singleton_append] at h
    have hfirst := Statement.first_else hboundary hblank hcolon hcut rfl start
    have htext : "ELSE".toList ++ blanks ++ ':' :: code = ("ELSE".toList ++ blanks ++ [':']) ++ code := by simp
    have hlead : leadingBlanks (blanks ++ [':'] ++ code) = byteSize blanks := by
      rw [List.append_assoc, ← byteSize_takeWhile_isBlank]
      exact congrArg byteSize (Token.takeWhile_append_of_stop hblank hcolon).1
    have hnext : start + byteSize ("ELSE".toList ++ blanks ++ [':']) = start + 4 + byteSize (blanks ++ [':']) := by
      rw [List.append_assoc]
      exact hsize _
    have hcode' : "ELSE".toList ++ (blanks ++ [':'] ++ code) = "ELSE".toList ++ blanks ++ ':' :: code := by simp
    rw [hcode', scanFrom_inner hfirst htext (by simp), hnext, hsize, statement, hlead]
    rfl

end Joint

/-- Code on one line, by its text: statements with an `&` between them, of which the last may be a
conditional. The first index says whether an `ELSE` that follows belongs to an `IF` before the code. -/
inductive Inline : Bool → List Char → Type
  | last (s : Simple) (paired : Bool) (parted : paired = true → s.Parted) : Inline paired s.text
  | next (s : Simple) (closed : s.Closed) {paired : Bool} {cs : List Char} (rest : Inline paired cs) :
      Inline paired (s.text ++ '&' :: cs)
  | ifThen (c : Condition) {paired : Bool} {cs : List Char} (yes : Inline paired cs) :
      Inline false (c.text ++ ':' :: cs)
  | ifElse (c : Condition) {as bs joint : List Char} {paired : Bool} (yes : Inline true as)
      (between : Joint joint bs) (no : Inline paired bs) :
      Inline paired (c.text ++ ':' :: (as ++ ("ELSE".toList ++ (joint ++ bs))))

namespace Inline

variable {paired : Bool} {cs : List Char}

/-- The statements of the code, in a text in which it stands at byte `base`. -/
def statements (base : Nat) : {paired : Bool} → {cs : List Char} → Inline paired cs → List Statement
  | _, _, last s _ _ => [s.statement base]
  | _, _, next s _ rest => s.statement base :: rest.statements (base + byteSize s.text + 1)
  | _, _, ifThen c yes => c.statement base :: yes.statements (base + byteSize c.text + 1)
  | _, _, @ifElse c as bs joint _ yes _ no =>
    let start := base + byteSize c.text + 1 + byteSize as
    c.statement base :: (yes.statements (base + byteSize c.text + 1)
      ++ Joint.statement start joint bs :: no.statements (start + 4 + byteSize joint))

/-- There is code in every such line. -/
theorem statements_ne_nil (code : Inline paired cs) (base : Nat) : code.statements base ≠ [] := by
  cases code <;> exact List.cons_ne_nil _ _

/-- It is not blank, so that it is no header without code. -/
theorem dropBlanks_ne_nil (code : Inline paired cs) : dropBlanks cs ≠ [] := by
  have hsimple (s : Simple) : dropBlanks s.text ≠ [] := by
    have hcore := s.head?_core []
    rw [List.append_nil] at hcore
    rw [Simple.text, dropBlanks, (Token.takeWhile_append_of_stop s.blank hcore).2]
    exact s.core_ne_nil
  have hcondition (c : Condition) : dropBlanks c.text ≠ [] := by
    have hcore := c.head?_core []
    rw [List.append_nil] at hcore
    rw [Condition.text, dropBlanks, (Token.takeWhile_append_of_stop c.blank hcore).2]
    exact List.cons_ne_nil _ _
  cases code with
  | last s _ _ => exact hsimple s
  | next s _ _ => simp [dropBlanks_append (hsimple s)]
  | ifThen c _ => simp [dropBlanks_append (hcondition c)]
  | ifElse c _ _ _ => simp [dropBlanks_append (hcondition c)]

/-- What may stand behind code on one line: nothing, or an `ELSE` if it belongs to an `IF` before the code. -/
def Ends (paired : Bool) (rest : List Char) : Prop :=
  rest = [] ∨ paired = true ∧ ∃ tail, rest = "ELSE".toList ++ tail ∧ Text.atBoundary tail = true

/-- The statements of what stands behind code. -/
def statementsAfter (start : Nat) (rest : List Char) : List Statement :=
  if rest = [] then [] else scanFrom start rest

/-- The scan finds the statements of the tree. -/
theorem scanAt_append (code : Inline paired cs) (base : Nat) {rest : List Char} (hrest : Ends paired rest) :
    scanAt base (cs ++ rest) = code.statements base ++ statementsAfter (base + byteSize cs) rest := by
  induction code generalizing base rest with
  | last s paired parted =>
    rcases hrest with rfl | ⟨hpaired, tail, rfl, htail⟩
    · rw [List.append_nil, s.scanAt_alone, statementsAfter, if_pos rfl, List.append_nil, statements]
    · rw [s.scanAt_else (parted hpaired) base htail, statements, statementsAfter, if_neg (by simp)]
      rfl
  | @next s closed paired cs _ ih =>
    have hstart : base + byteSize (s.text ++ '&' :: cs) = base + byteSize s.text + 1 + byteSize cs := by
      rw [Text.byteSize_append, Text.byteSize_cons, ← Nat.add_assoc, ← Nat.add_assoc]
      rfl
    rw [List.append_assoc, List.cons_append, s.scanAt_ampersand closed, ih _ hrest, hstart]
    rfl
  | @ifThen c paired cs yes ih =>
    rcases hrest with rfl | ⟨hpaired, -⟩
    · have hyes := ih (base + byteSize c.text + 1) (.inl rfl)
      rw [List.append_nil, statementsAfter, if_pos rfl, List.append_nil] at hyes ⊢
      have hne : cs ≠ [] := by
        rintro rfl
        exact yes.dropBlanks_ne_nil rfl
      rw [c.scanAt_colon hne, hyes, statements]
    · cases hpaired
  | @ifElse c as bs joint paired yes between no ihyes ihno =>
    have hcode := no.dropBlanks_ne_nil
    have hjoint := between.append hcode rest
    have htext : c.text ++ ':' :: (as ++ ("ELSE".toList ++ (joint ++ bs))) ++ rest
        = c.text ++ ':' :: (as ++ ("ELSE".toList ++ (joint ++ (bs ++ rest)))) := by simp
    have hyes := ihyes (base + byteSize c.text + 1) (.inr ⟨rfl, _, rfl, hjoint.atBoundary⟩)
    rw [statementsAfter, if_neg (by simp)] at hyes
    have helse := hjoint.scanFrom_else (by simp [dropBlanks_append hcode, hcode])
      (base + byteSize c.text + 1 + byteSize as)
    rw [ihno _ hrest, between.statement_append hcode] at helse
    have hend : base + byteSize (c.text ++ ':' :: (as ++ ("ELSE".toList ++ (joint ++ bs))))
        = base + byteSize c.text + 1 + byteSize as + 4 + byteSize joint + byteSize bs := by
      have hcolon : ':'.utf8Size = 1 := rfl
      have hword : byteSize "ELSE".toList = 4 := rfl
      simp only [Text.byteSize_append, Text.byteSize_cons]
      omega
    rw [htext, c.scanAt_colon (by simp), hyes, helse, hend, statements]
    simp

/-- **The scan of a line with a conditional finds the statements of its tree.** -/
theorem statements_scan (code : Inline paired cs) (number : Nat) :
    (Line.scan cs number).statements = code.statements 0 := by
  have hscan := code.scanAt_append 0 (.inl rfl)
  rw [List.append_nil, statementsAfter, if_pos rfl, List.append_nil] at hscan
  have hmerge : (Line.scan cs number).statements = mergeElseIf cs (scanAt 0 cs) := by
    rw [scanAt, Nat.zero_add]
    rfl
  rw [hmerge, hscan]
  cases code with
  | last s _ _ => exact mergeElseIf_of_ne (s.kind_ne_otherwise 0) _ _
  | next s _ _ => exact mergeElseIf_of_ne (s.kind_ne_otherwise 0) _ _
  | ifThen c _ => exact mergeElseIf_of_ne (by simp [c.kind_statement]) _ _
  | ifElse c _ _ _ => exact mergeElseIf_of_ne (by simp [c.kind_statement]) _ _

end Inline

end QuestScript
