import QuestScript.Proofs.Text.Standing
import QuestScript.Proofs.World.Registry

/-!
# Writing worlds and reading them again

A world is written location by location: a header line, the code, a closing line, and then any lines
that are no headers. `Entry` is a location that can be written like this: its name stands on one line,
and nothing in its code closes it early. `source` is the text of several entries.

The reader goes line by line and must know for each one whether it starts inside a literal or a block.
Its tracker remembers a quote that may be the first of two; it always agrees with where the text
stands (`Tracker.Follows`), so it takes every line of the code as code (`readFrom_body`) and the closing
line as such. What it makes of the lines is the code again, up to carriage returns, which the scan of
lines drops.
-/

namespace QuestScript

open Text (Standing Tracker trim dropBlanks)

/-! ## The tracker -/

namespace Text.Tracker

/-- The tracker knows where the text stands; a quote that may be the first of two has closed its
literal. -/
inductive Follows : Tracker → Standing → Prop
  | outside (d : Depth) : Follows ⟨none, d.curly, false⟩ ⟨none, d⟩
  | inside {q : Char} (quote : isQuote q = true) (d : Depth) : Follows ⟨some q, d.curly, false⟩ ⟨some q, d⟩
  | pending {q : Char} (quote : isQuote q = true) (d : Depth) : Follows ⟨some q, d.curly, true⟩ ⟨none, d⟩

variable {t : Tracker} {s : Standing}

theorem Follows.isOutside (h : Follows t s) : t.isOutside = s.isOutside := by
  cases h <;> rfl

theorem follows_outside {d : Depth} (h : t.braces = d.curly) (c : Char) :
    Follows (t.outside c) (Standing.step ⟨none, d⟩ c) := by
  unfold Tracker.outside
  split
  · next hc =>
    obtain rfl : c = '{' := by simpa using hc
    rw [Standing.step_plain (by decide), h]
    exact .outside (d.track '{')
  split
  · next hc =>
    obtain rfl : c = '}' := by simpa using hc
    rw [Standing.step_plain (by decide), h]
    exact .outside (d.track '}')
  split
  · next hq =>
    rw [Standing.step_quote hq, h]
    exact .inside hq d
  · next ho hc hq =>
    rw [Standing.step_plain (by simpa using hq), h, ← Depth.curly_track d ho hc]
    exact .outside (d.track c)

/-- By the cases of the tracker: a quote that may be doubled has closed the literal for the scanner, and
opens it again. -/
theorem Follows.step (h : Follows t s) (c : Char) : Follows (t.step c) (s.step c) := by
  cases h with
  | outside d => exact follows_outside rfl c
  | @inside q quote d =>
    by_cases hc : c = q
    · subst hc
      rw [Standing.step_close]
      simpa [Tracker.step] using Follows.pending quote d
    · rw [Standing.step_inside hc]
      simpa [Tracker.step, hc] using Follows.inside quote d
  | @pending q quote d =>
    by_cases hc : c = q
    · subst hc
      rw [Standing.step_quote quote]
      simpa [Tracker.step] using Follows.inside quote d
    · simpa [Tracker.step, hc] using follows_outside rfl c

/-- A carriage return is neither a quote nor a bracket. -/
theorem Follows.step_return (h : Follows t s) : s.step '\r' = s := by
  cases h with
  | outside d => rfl
  | inside quote d =>
    refine Standing.step_inside ?_
    rintro rfl
    cases quote
  | pending quote d => rfl

/-- By induction on the text. -/
theorem Follows.feed (h : Follows t s) (cs : List Char) : Follows (t.feed cs) (s.after cs) := by
  induction cs generalizing t s with
  | nil => exact h
  | cons c cs ih => exact ih (h.step c)

end Text.Tracker

namespace World

/-! ## Lines -/

theorem splitLines_break (cs : List Char) : splitLines ('\n' :: cs) = [] :: splitLines cs := rfl

/-- Any other character belongs to the first line. -/
theorem splitLines_cons {c : Char} (h : c ≠ '\n') (cs : List Char) :
    splitLines (c :: cs) = (splitLines cs).modifyHead (c :: ·) := by
  simp [splitLines, h]

theorem splitLines_append_break (as bs : List Char) :
    splitLines (as ++ '\n' :: bs) = splitLines as ++ splitLines bs := by
  induction as with
  | nil => rfl
  | cons c as ih =>
    by_cases hc : c = '\n'
    · subst hc
      rw [List.cons_append, splitLines_break, ih, splitLines_break, List.cons_append]
    · rw [List.cons_append, splitLines_cons hc, ih, splitLines_cons hc]
      rfl

/-- A text without breaks is one line. -/
theorem splitLines_of_notMem {cs : List Char} (h : '\n' ∉ cs) : splitLines cs = [cs] := by
  induction cs with
  | nil => rfl
  | cons c cs ih =>
    simp only [List.mem_cons, not_or] at h
    rw [splitLines_cons (Ne.symm h.1), ih h.2]
    rfl

/-- Texts with breaks between them have the lines of each of them. -/
theorem splitLines_intercalate {ls : List (List Char)} (h : ls ≠ []) :
    splitLines (['\n'].intercalate ls) = ls.flatMap splitLines := by
  induction ls with
  | nil => exact absurd rfl h
  | cons l ls ih =>
    cases ls with
    | nil => simp
    | cons l' ls =>
      rw [List.intercalate_cons_of_ne_nil (by simp), List.append_assoc, List.singleton_append,
        splitLines_append_break, ih (by simp)]
      exact List.flatMap_cons.symm

theorem flatMap_splitLines_of_notMem {ls : List (List Char)} (h : ∀ l ∈ ls, '\n' ∉ l) :
    ls.flatMap splitLines = ls := by
  rw [List.flatMap_congr fun l hl => splitLines_of_notMem (h l hl)]
  exact List.flatMap_singleton' ls

/-- Lines with their breaks are the text with a break at its end. -/
theorem flatMap_splitLines (cs : List Char) :
    (splitLines cs).flatMap (· ++ ['\n']) = cs ++ ['\n'] := by
  induction cs with
  | nil => rfl
  | cons c cs ih =>
    by_cases hc : c = '\n'
    · subst hc
      rw [splitLines_break, List.flatMap_cons, ih]
      rfl
    · rw [splitLines_cons hc]
      cases hls : splitLines cs with
      | nil => rw [hls] at ih; simp at ih
      | cons l ls => rw [hls] at ih; simpa using ih

/-! ## Carriage returns -/

/-- At most one return is taken off, at the end. -/
theorem stripReturn_cases (line : List Char) :
    stripReturn line = line ∨ line = stripReturn line ++ ['\r'] := by
  unfold stripReturn
  split
  · next h =>
    have h' : '\r' ∈ line.getLast? := by simpa using h
    exact .inr (List.dropLast_append_getLast? _ h').symm
  · exact .inl rfl

theorem filter_stripReturn (line : List Char) :
    (stripReturn line).filter (· != '\r') = line.filter (· != '\r') := by
  rcases stripReturn_cases line with h | h
  · rw [h]
  · conv_rhs => rw [h]
    simp

/-- The scan of lines does not see carriage returns. -/
theorem ofSource_congr {as bs : List Char}
    (h : as.filter (· != '\r') = bs.filter (· != '\r')) : Line.ofSource as = Line.ofSource bs := by
  simp only [Line.ofSource, Source.logicalLines, Source.physicalLines, h]

/-- What a line starts with is no return at its end. -/
theorem head?_dropBlanks_stripReturn {line : List Char} {c : Char}
    (h : (dropBlanks (stripReturn line)).head? = some c) : (dropBlanks line).head? = some c := by
  rcases stripReturn_cases line with h' | h'
  · rwa [h'] at h
  · rw [h', dropBlanks, List.dropWhile_append, ← dropBlanks]
    cases hd : dropBlanks (stripReturn line) with
    | nil => rw [hd] at h; cases h
    | cons x xs => rw [hd] at h; simpa using h

/-- Nor does where a text stands depend on them. -/
theorem after_stripReturn {t : Tracker} {s : Standing} (h : t.Follows s) (line : List Char) :
    s.after (stripReturn line) = s.after line := by
  rcases stripReturn_cases line with h' | h'
  · rw [h']
  · conv_rhs => rw [h', Standing.after_append]
    exact ((h.feed (stripReturn line)).step_return).symm

/-! ## Reading lines -/

section Reading

variable {w : World} {o : Opened} {number : Nat} {line : List Char} {rest : List (List Char)}

/-- A line in a location that cannot end it is a line of its code. -/
theorem readFrom_code (h : o.tracker.isOutside = true → (dropBlanks line).head? ≠ some '-') :
    readFrom w (some o) number (line :: rest)
      = readFrom w (some (o.addLine (stripReturn line))) (number + 1) rest := by
  rw [readFrom, if_neg]
  rw [Bool.and_eq_true, beq_iff_eq]
  rintro ⟨hout, hhead⟩
  exact h hout (head?_dropBlanks_stripReturn hhead)

theorem readFrom_gap (h : (dropBlanks line).head? ≠ some '#') :
    readFrom w none number (line :: rest) = readFrom w none (number + 1) rest := by
  rw [readFrom]
  dsimp only
  split
  · next header heq => exact absurd (head?_dropBlanks_stripReturn (by rw [heq]; rfl)) h
  · rfl

/-- Between locations everything is skipped but the start of one. -/
theorem readFrom_gaps {gaps : List (List Char)} (h : ∀ gap ∈ gaps, (dropBlanks gap).head? ≠ some '#') :
    readFrom w none number (gaps ++ rest) = readFrom w none (number + gaps.length) rest := by
  induction gaps generalizing number with
  | nil => rfl
  | cons gap gaps ih =>
    rw [List.cons_append, readFrom_gap (h gap List.mem_cons_self),
      ih fun x hx => h x (List.mem_cons_of_mem gap hx), List.length_cons, Nat.add_right_comm,
      Nat.add_assoc]

/-- Where lines of code that follow a text which stands at `s` begin outside literals and blocks, they
do not start with a dash. -/
def Enclosed (s : Standing) (lines : List (List Char)) : Prop :=
  ∀ before line after, lines = before ++ line :: after →
    (s.after (before.flatMap (· ++ ['\n']))).isOutside = true → (dropBlanks line).head? ≠ some '-'

theorem enclosed_nil {s : Standing} : Enclosed s [] := by
  intro before line after h
  simp at h

/-- Line by line: where the code may end no line looks like its end. -/
theorem enclosed_cons {s : Standing} {lines : List (List Char)} : Enclosed s (line :: lines) ↔
    (s.isOutside = true → (dropBlanks line).head? ≠ some '-') ∧
      Enclosed (s.after (line ++ ['\n'])) lines := by
  constructor
  · intro h
    refine ⟨h [] line lines rfl, ?_⟩
    intro before l after heq hout
    refine h (line :: before) l after (by rw [heq]; rfl) ?_
    rwa [List.flatMap_cons, Standing.after_append]
  · rintro ⟨hline, hlines⟩ before l after heq hout
    cases before with
    | nil => cases heq; exact hline hout
    | cons b before =>
      cases heq
      rw [List.flatMap_cons, Standing.after_append] at hout
      exact hlines before l after rfl hout

instance decidableEnclosed : (s : Standing) → (lines : List (List Char)) → Decidable (Enclosed s lines)
  | _, [] => isTrue enclosed_nil
  | s, line :: lines =>
    have := decidableEnclosed (s.after (line ++ ['\n'])) lines
    decidable_of_iff _ enclosed_cons.symm

theorem isOutside_step_break {s : Standing} (h : s.isOutside = true) : (s.step '\n').isOutside = true := by
  obtain ⟨quote, d⟩ := s
  obtain ⟨rfl, -⟩ : quote = none ∧ d.curly = 0 := Standing.isOutside_iff.mp h
  exact h

/-- Lines of code are read as code, and the tracker stays with them. -/
theorem readFrom_body (w : World) (number : Nat) (rest : List (List Char)) {s : Standing}
    {lines : List (List Char)} (h : Enclosed s lines) (ht : o.tracker.Follows s) :
    ∃ o', readFrom w (some o) number (lines ++ rest) = readFrom w (some o') (number + lines.length) rest ∧
      o'.name = o.name ∧ o'.tracker.Follows (s.after (lines.flatMap (· ++ ['\n']))) ∧
      o'.lines.reverse = o.lines.reverse ++ lines.map stripReturn := by
  induction lines generalizing o s number with
  | nil => exact ⟨o, rfl, rfl, ht, by simp⟩
  | cons line lines ih =>
    obtain ⟨hline, hlines⟩ := enclosed_cons.mp h
    rw [← ht.isOutside] at hline
    have hfollows : (o.addLine (stripReturn line)).tracker.Follows (s.after (line ++ ['\n'])) := by
      rw [Standing.after_append, ← after_stripReturn ht]
      exact (ht.feed (stripReturn line)).feed ['\n']
    obtain ⟨o', hread, hname, ht', hl⟩ := ih (number + 1) hlines hfollows
    refine ⟨o', ?_, hname, ?_, ?_⟩
    · rw [List.cons_append, readFrom_code hline, hread, List.length_cons, Nat.add_right_comm,
        Nat.add_assoc]
    · rw [List.flatMap_cons, Standing.after_append]
      exact ht'
    · rw [hl]
      simp [Opened.addLine]

end Reading

/-- Carriage returns at the ends of its lines do not matter to a location. -/
theorem Opened.close_eq {o : Opened} {name : String} {lines : List (List Char)} (hname : o.name = name)
    (hlines : o.lines.reverse = lines.map stripReturn) :
    o.close = .ofCode name (lines.flatMap (· ++ ['\n'])) := by
  rw [Opened.close, Location.ofCode, Location.ofCode, hname, hlines]
  congr 1
  refine ofSource_congr ?_
  simp only [List.filter_flatMap, List.flatMap_map, List.filter_append, filter_stripReturn]

/-! ## Entries -/

/-- A line that may stand between entries: one line that is no header. -/
def IsGap (line : List Char) : Prop := '\n' ∉ line ∧ (dropBlanks line).head? ≠ some '#'

instance : DecidablePred IsGap := fun _ => inferInstanceAs (Decidable (_ ∧ _))

/-- A location as it is written: its name, its code and the lines up to the next one. -/
structure Entry where
  name : List Char
  body : List Char
  gaps : List (List Char)
  name_ne : name ≠ []
  name_line : '\n' ∉ name ∧ '\r' ∉ name
  name_trim : trim name = name
  /-- The code ends outside literals and blocks. -/
  body_outside : (Standing.after {} body).isOutside = true
  /-- No line of the code closes the location. -/
  body_enclosed : Enclosed {} (splitLines body)
  gaps_ok : ∀ gap ∈ gaps, IsGap gap

namespace Entry

/-- The line that opens an entry. -/
def header (e : Entry) : List Char := '#' :: ' ' :: e.name

/-- The line that closes it. -/
def footer (e : Entry) : List Char := '-' :: ' ' :: e.name

/-- The entry as it is written, line by line but for the code, which may be several lines. -/
def segments (e : Entry) : List (List Char) := e.header :: e.body :: e.footer :: e.gaps

/-- The location that is written. -/
def location (e : Entry) : Location := .ofCode (String.ofList e.name) (e.body ++ ['\n'])

/-- The key under which the location is found. -/
def key (e : Entry) : String := Location.key (String.ofList e.name)

variable (e : Entry) {w : World} {number : Nat} {rest : List (List Char)}

theorem stripReturn_marked (c : Char) : stripReturn (c :: ' ' :: e.name) = c :: ' ' :: e.name := by
  rw [stripReturn, if_neg]
  intro h
  have hlast : (c :: ' ' :: e.name).getLast? = some '\r' := by simpa using h
  obtain ⟨x, xs, hx⟩ := List.exists_cons_of_ne_nil e.name_ne
  rw [hx, List.getLast?_cons_cons, List.getLast?_cons_cons, ← hx] at hlast
  exact e.name_line.2 (List.mem_of_getLast? hlast)

/-- The lines of an entry: its header, its code, its footer and what follows up to the next one. -/
theorem splitLines_segments :
    e.segments.flatMap splitLines = e.header :: (splitLines e.body ++ e.footer :: e.gaps) := by
  have hname {c : Char} (hc : c ≠ '\n') : splitLines (c :: ' ' :: e.name) = [c :: ' ' :: e.name] := by
    refine splitLines_of_notMem ?_
    simp only [List.mem_cons, not_or]
    exact ⟨hc.symm, by decide, e.name_line.1⟩
  have hgaps : e.gaps.flatMap splitLines = e.gaps := 
    flatMap_splitLines_of_notMem fun gap hgap => (e.gaps_ok gap hgap).1
  simp only [segments, header, footer, List.flatMap_cons, hname (by decide : '#' ≠ '\n'),
    hname (by decide : '-' ≠ '\n'), hgaps]
  rfl

theorem readFrom_header : readFrom w none number (e.header :: rest)
    = readFrom w (some { name := String.ofList e.name }) (number + 1) rest := by
  have htrim : trim (' ' :: e.name) = e.name := e.name_trim
  have hne : ¬ e.name.isEmpty = true := by simpa using e.name_ne
  have hlead : dropBlanks ('#' :: ' ' :: e.name) = '#' :: ' ' :: e.name := rfl
  rw [readFrom, header, stripReturn_marked, hlead]
  simp only [htrim, if_neg hne]

/-- Outside of literals and blocks the footer closes the location. -/
theorem readFrom_footer {o : Opened} (h : o.tracker.isOutside = true) :
    readFrom w (some o) number (e.footer :: rest) = readFrom (w.add o.close) none (number + 1) rest := by
  rw [readFrom, footer, stripReturn_marked, if_pos]
  rw [h]
  rfl

/-- The lines of the code, without carriage returns at their ends, are scanned as the code is. -/
theorem close_eq {o : Opened} (hname : o.name = String.ofList e.name)
    (hlines : o.lines.reverse = (splitLines e.body).map stripReturn) : o.close = e.location := by
  rw [Opened.close_eq hname hlines, flatMap_splitLines, location]

/-- **An entry is read as its location.** -/
theorem readFrom_segments : readFrom w none number (e.segments.flatMap splitLines ++ rest)
    = readFrom (w.add e.location) none (number + (e.segments.flatMap splitLines).length) rest := by
  obtain ⟨o, hread, hname, ht, hlines⟩ := readFrom_body w (number + 1)
    (e.footer :: (e.gaps ++ rest)) e.body_enclosed
    (show Opened.tracker { name := String.ofList e.name } |>.Follows {} from .outside {})
  have hout : o.tracker.isOutside = true := by
    rw [flatMap_splitLines, Standing.after_append] at ht
    rw [ht.isOutside]
    exact isOutside_step_break e.body_outside
  have hlen : number + 1 + (splitLines e.body).length + 1 + e.gaps.length
      = number + (e.segments.flatMap splitLines).length := by
    rw [e.splitLines_segments]
    simp only [List.length_cons, List.length_append]
    omega
  rw [← hlen, e.splitLines_segments, List.cons_append, List.append_assoc, List.cons_append,
    readFrom_header, hread, readFrom_footer e hout, readFrom_gaps fun gap hgap => (e.gaps_ok gap hgap).2,
    e.close_eq hname (by simpa using hlines)]

end Entry

/-! ## The registry -/

/-- Locations with different keys that are added one after the other are all there, in the order of
their keys, and the first one stays the first. -/
theorem addAll {entries : List Entry} {w : World} (hw : w.locations.Pairwise fun a b => a.1 < b.1)
    (hnew : ∀ e ∈ entries, ∀ r ∈ w.locations, r.1 ≠ e.key)
    (hkeys : entries.Pairwise fun a b => a.key ≠ b.key) :
    let w' := entries.foldl (fun w e => w.add e.location) w
    (w'.locations.Pairwise fun a b => a.1 < b.1) ∧
      w'.locations.Perm (w.locations ++ entries.map fun e => (e.key, e.location)) ∧
      w'.first = w.first.or (entries.head?.map fun e => String.ofList e.name) := by
  induction entries generalizing w with
  | nil => exact ⟨hw, by simp, by simp⟩
  | cons e entries ih =>
    obtain ⟨he, hkeys⟩ := List.pairwise_cons.mp hkeys
    have hperm : (w.add e.location).locations.Perm ((e.key, e.location) :: w.locations) :=
      insert_perm hw (hnew e List.mem_cons_self)
    have hnew' : ∀ e' ∈ entries, ∀ r ∈ (w.add e.location).locations, r.1 ≠ e'.key := by
      intro e' he' r hr
      rcases List.mem_cons.mp (hperm.mem_iff.mp hr) with rfl | hr
      · exact he e' he'
      · exact hnew e' (List.mem_cons_of_mem e he') r hr
    obtain ⟨hpair, hperm', hfirst⟩ := ih (insert_pairwise hw) hnew' hkeys
    refine ⟨hpair, ?_, ?_⟩
    · refine hperm'.trans ((hperm.append_right _).trans ?_)
      rw [List.map_cons]
      exact List.perm_middle.symm
    · rw [List.foldl_cons, hfirst]
      cases hf : w.first <;> simp [World.add, hf, Entry.location, Location.ofCode]

/-! ## Whole worlds -/

/-- The text of a world: some lines, and its entries. -/
def source (front : List (List Char)) (entries : List Entry) : List Char :=
  ['\n'].intercalate (front ++ entries.flatMap Entry.segments)

/-- By induction on the entries, each of which adds a location. -/
theorem readFrom_entries (entries : List Entry) (w : World) (number : Nat) :
    readFrom w none number (entries.flatMap fun e => e.segments.flatMap splitLines)
      = .ok (entries.foldl (fun w e => w.add e.location) w) := by
  induction entries generalizing w number with
  | nil => rfl
  | cons e entries ih =>
    rw [List.flatMap_cons, e.readFrom_segments, ih, List.foldl_cons]

/-- Front lines and entries are read as the locations of the entries. -/
theorem ofText_source {front : List (List Char)} (hfront : ∀ l ∈ front, IsGap l) (entries : List Entry) :
    ofText (source front entries) = .ok (entries.foldl (fun w e => w.add e.location) {}) := by
  have hlines : splitLines (source front entries)
      = front ++ entries.flatMap (fun e => e.segments.flatMap splitLines) ∨
        front = [] ∧ entries = [] := by
    by_cases hempty : front = [] ∧ entries = []
    · exact .inr hempty
    · have hne : front ++ entries.flatMap Entry.segments ≠ [] := by
        cases entries with
        | nil => simpa using hempty
        | cons e entries => simp [Entry.segments]
      rw [source, splitLines_intercalate hne, List.flatMap_append,
        flatMap_splitLines_of_notMem fun l hl => (hfront l hl).1, List.flatMap_assoc]
      exact .inl rfl
  rcases hlines with hlines | ⟨rfl, rfl⟩
  · rw [ofText, hlines, readFrom_gaps fun l hl => (hfront l hl).2, readFrom_entries]
  · rfl

/-- **A world that is written is read again.** Whatever lines stand before, between and after the
entries, if their keys are different the registry holds exactly their locations in the order of the
keys, each with the code of its body, and remembers the first one. -/
theorem ofText_source_roundtrip {front : List (List Char)} (hfront : ∀ l ∈ front, IsGap l)
    {entries : List Entry} (hkeys : entries.Pairwise fun a b => a.key ≠ b.key) :
    ∃ w, ofText (source front entries) = .ok w ∧
      (w.locations.Pairwise fun a b => a.1 < b.1) ∧
      w.locations.Perm (entries.map fun e =>
        (e.key, { name := String.ofList e.name, code := Line.ofSource (e.body ++ ['\n']) })) ∧
      w.first = entries.head?.map fun e => String.ofList e.name := by
  obtain ⟨hpair, hperm, hfirst⟩ := addAll (w := {}) .nil (by simp) hkeys
  exact ⟨_, ofText_source hfront entries, hpair, hperm, by simpa using hfirst⟩

/-- A dash inside a literal closes nothing. -/
def hallEntry : Entry where
  name := "Hall".toList
  body := "p 'one\n- two'".toList
  gaps := ["".toList]
  name_ne := by decide
  name_line := by decide
  name_trim := by decide
  body_outside := by decide
  body_enclosed := by decide
  gaps_ok := by decide

def atticEntry : Entry where
  name := "attic".toList
  body := "x = 1".toList
  gaps := []
  name_ne := by decide
  name_line := by decide
  name_trim := by decide
  body_outside := by decide
  body_enclosed := by decide
  gaps_ok := by decide

theorem ofText_source_roundtrip_sample :
    ∃ w, ofText "intro\n# Hall\np 'one\n- two'\n- Hall\n\n# attic\nx = 1\n- attic".toList = .ok w ∧
      w.first = some "Hall" ∧ w.locations.length = 2 := by
  have hsource : "intro\n# Hall\np 'one\n- two'\n- Hall\n\n# attic\nx = 1\n- attic".toList
      = source ["intro".toList] [hallEntry, atticEntry] := by decide
  obtain ⟨w, hw, -, hperm, hfirst⟩ :=
    @ofText_source_roundtrip ["intro".toList] (by decide) [hallEntry, atticEntry] (by decide)
  exact ⟨w, by rw [hsource, hw], hfirst, hperm.length_eq⟩

end World

end QuestScript
