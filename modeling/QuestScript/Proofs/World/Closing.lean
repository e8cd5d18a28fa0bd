import QuestScript.Proofs.Line.Starts
import QuestScript.Proofs.World

/-!
# Where locations close

The reader of a world goes by lines and follows literals and blocks with a tracker; the reader of source
text looks ahead and drops carriage returns first. They never disagree about the structure of a text: where
a tracker says that a text ends outside literals and blocks, and there only, a break after it starts a new
physical line.

So a world can be read without a tracker. For a line that starts with a dash `readSections` asks the reader
of source text whether a physical line of the code starts there, and `tracker_agrees` says that worlds are
read like this.
-/

namespace QuestScript

open Text (Standing Tracker dropBlanks trim)

namespace Text.Tracker

variable {t : Tracker} {s : Standing}

/-- A break neither opens nor closes anything. -/
theorem Follows.isOutside_break (h : Follows t s) : (s.step '\n').isOutside = s.isOutside := by
  cases h with
  | outside d => rfl
  | inside quote d =>
    rw [Standing.step_inside]
    rintro rfl
    cases quote
  | pending quote d => rfl

/-- How a text is cut into pieces does not matter. -/
theorem foldl_feed (t : Tracker) (pieces : List (List Char)) : pieces.foldl feed t = t.feed pieces.flatten :=
  List.foldl_flatten.symm

theorem follows_feed (cs : List Char) : Follows (feed {} cs) (Standing.after {} cs) :=
  Follows.feed (.outside {}) cs

end Text.Tracker

namespace World

/-! ## Reading without a tracker -/

/-- The text of some lines. -/
def joined (lines : List (List Char)) : List Char := lines.flatMap (· ++ ['\n'])

/-- Whether line `i` closes a location whose code starts with the first line: it starts with a dash, where
a physical line of the code starts. -/
def closes (lines : List (List Char)) (i : Nat) : Bool :=
  Source.startsLine (joined (lines.take i)) (joined (lines.drop i)) &&
    (lines[i]?.any fun line => (dropBlanks line).head? == some '-')

/-- The line that closes a location. -/
def closing? (lines : List (List Char)) : Option Nat := (List.range lines.length).find? (closes lines)

/-- The name in a header. -/
def headerName? (line : List Char) : Option (List Char) :=
  match dropBlanks (stripReturn line) with
  | '#' :: name => some (trim name)
  | _ => none

/-- Read the lines of a world, whose first one has a number, outside locations. -/
def readSections (w : World) (number : Nat) : List (List Char) → Except HeaderError World
  | [] => .ok w
  | line :: lines =>
    match headerName? line with
    | none => readSections w (number + 1) lines
    | some name =>
      if name.isEmpty then .error ⟨number⟩
      else
        match closing? lines with
        | none => .ok (w.add (.ofCode (String.ofList name) (joined lines)))
        | some i =>
          readSections (w.add (.ofCode (String.ofList name) (joined (lines.take i)))) (number + i + 2)
            (lines.drop (i + 1))
termination_by lines => lines.length
decreasing_by all_goals simp only [List.length_cons, List.length_drop]; omega

/-! ## The line that closes a location -/

variable {line : List Char} {lines rest : List (List Char)}

theorem joined_append (as bs : List (List Char)) : joined (as ++ bs) = joined as ++ joined bs :=
  List.flatMap_append

/-- After some lines a physical line starts if literals and blocks are closed. -/
theorem startsLine_joined (before rest : List (List Char)) :
    Source.startsLine (joined before) (joined rest) = (Standing.after {} (joined before)).isOutside := by
  rcases List.eq_nil_or_concat before with rfl | ⟨lines, line, rfl⟩
  · exact Source.startsLine_nil _
  · have hjoined : joined (lines ++ [line]) = joined lines ++ line ++ ['\n'] := by
      rw [joined_append, List.append_assoc]
      exact congrArg (joined lines ++ ·) (List.append_nil _)
    rw [List.concat_eq_append, hjoined, Source.startsLine_break, Standing.after_append _ (_ ++ _)]
    exact (Tracker.follows_feed (joined lines ++ line)).isOutside_break.symm

theorem closes_append (before : List (List Char)) (line : List Char) (rest : List (List Char)) :
    closes (before ++ line :: rest) before.length
      = ((Standing.after {} (joined before)).isOutside && (dropBlanks line).head? == some '-') := by
  unfold closes
  rw [List.take_left, startsLine_joined, List.getElem?_append_right (Nat.le_refl _), Nat.sub_self]
  rfl

/-- Before the first line that closes a location every line is code. -/
theorem enclosed_of_closes (h : ∀ j < lines.length, closes (lines ++ rest) j = false) :
    Enclosed {} lines := by
  rintro before line after rfl hout hdash
  have hfalse := h before.length (by simp)
  rw [List.append_assoc, List.cons_append, closes_append] at hfalse
  rw [joined, hout, hdash] at hfalse
  cases hfalse

theorem head?_stripReturn_dash (h : (dropBlanks line).head? = some '-') :
    (dropBlanks (stripReturn line)).head? = some '-' := by
  rcases stripReturn_cases line with h' | h'
  · rwa [h']
  · rw [h', dropBlanks, List.dropWhile_append, ← dropBlanks] at h
    cases hd : dropBlanks (stripReturn line) with
    | nil =>
      rw [hd] at h
      cases h
    | cons x xs =>
      rw [hd] at h
      simpa using h

/-- A location that has been opened is closed where no tracker is needed to tell. -/
theorem readFrom_opened (w : World) (name : String) (number : Nat) (lines : List (List Char)) :
    readFrom w (some { name }) number lines =
      match closing? lines with
      | none => .ok (w.add (.ofCode name (joined lines)))
      | some i =>
        readFrom (w.add (.ofCode name (joined (lines.take i)))) none (number + i + 1) (lines.drop (i + 1)) := by
  have hopened : Tracker.Follows (Opened.tracker { name }) {} := .outside {}
  cases hclosing : closing? lines with
  | none =>
    have hnone : ∀ j < lines.length, closes (lines ++ []) j = false := by
      intro j hj
      rw [List.append_nil]
      simpa using List.find?_eq_none.mp hclosing j (List.mem_range.mpr hj)
    obtain ⟨o, hread, hname, -, hlines⟩ := readFrom_body w number [] (enclosed_of_closes hnone) hopened
    rw [List.append_nil] at hread
    rw [hread, readFrom, Opened.close_eq hname hlines]
    rfl
  | some i =>
    obtain ⟨hcloses, hi, hfirst⟩ := List.find?_range_eq_some.mp hclosing
    have hi : i < lines.length := List.mem_range.mp hi
    have hsplit : lines = lines.take i ++ lines[i] :: lines.drop (i + 1) := by
      rw [← List.drop_eq_getElem_cons hi, List.take_append_drop]
    have hlength : (lines.take i).length = i := List.length_take_of_le hi.le
    have hearlier : ∀ j < (lines.take i).length,
        closes (lines.take i ++ lines[i] :: lines.drop (i + 1)) j = false := by
      intro j hj
      rw [← hsplit]
      simpa using hfirst j (hlength ▸ hj)
    obtain ⟨o, hread, hname, ht, hlines⟩ := readFrom_body w number (lines[i] :: lines.drop (i + 1))
      (enclosed_of_closes hearlier) hopened
    have hdash := closes_append (lines.take i) lines[i] (lines.drop (i + 1))
    rw [← hsplit, hlength, hcloses, eq_comm, Bool.and_eq_true, beq_iff_eq] at hdash
    have hout : o.tracker.isOutside = true := ht.isOutside.trans hdash.1
    rw [← hsplit, hlength] at hread
    rw [hread, readFrom, if_pos (by simp [hout, head?_stripReturn_dash hdash.2]),
      Opened.close_eq hname hlines]
    rfl

/-- A line outside locations opens one or is passed over. -/
theorem readFrom_cons (w : World) (number : Nat) (line : List Char) (lines : List (List Char)) :
    readFrom w none number (line :: lines) =
      match headerName? line with
      | none => readFrom w none (number + 1) lines
      | some name =>
        if name.isEmpty then .error ⟨number⟩
        else readFrom w (some { name := String.ofList name }) (number + 1) lines := by
  rw [readFrom]
  dsimp only
  split
  · next header hlead =>
    have hname : headerName? line = some (trim header) := by
      rw [headerName?, hlead]
      rfl
    rw [hname]
  · next hlead =>
    have hname : headerName? line = none := by
      unfold headerName?
      split
      · next header heq => exact absurd heq (hlead header)
      · rfl
    rw [hname]

theorem readFrom_none (w : World) (number : Nat) (lines : List (List Char)) :
    readFrom w none number lines = readSections w number lines := by
  induction w, number, lines using readSections.induct with
  | case1 w number => rw [readFrom, readSections]
  | case2 w number line lines hname ih =>
    rw [readFrom_cons, readSections]
    simp only [hname, ih]
  | case3 w number line lines name hname hempty =>
    rw [readFrom_cons, readSections]
    simp only [hname, hempty, if_true]
  | case4 w number line lines name hname hempty hclosing =>
    rw [readFrom_cons, readSections]
    simp only [hname, hempty, readFrom_opened, hclosing]
  | case5 w number line lines name hname hempty i hclosing ih =>
    rw [readFrom_cons, readSections]
    simp only [hname, hempty, readFrom_opened, hclosing, ← ih, Nat.add_right_comm number 1]

end World

/-- **Every reader sees the same literals and blocks.** However a text is cut into pieces, a tracker that is
fed with them says that it ends outside exactly if a break after it would start a new physical line. So a
world is read as if a line that starts with a dash closed a location where, for the scan of its code, a
physical line starts, and nowhere else. -/
theorem tracker_agrees :
    (∀ (pieces : List (List Char)) (rest : List Char),
      (pieces.foldl Tracker.feed {}).isOutside = Source.startsLine (pieces.flatten ++ ['\n']) rest) ∧
    ∀ text : List Char, World.ofText text = World.readSections {} 1 (World.splitLines text) := by
  refine ⟨fun pieces rest => ?_, fun text => World.readFrom_none {} 1 _⟩
  rw [Tracker.foldl_feed, Source.startsLine_break]
  exact (Tracker.follows_feed pieces.flatten).isOutside

/-- The first dash stands in a literal. -/
example : World.closing? ["p 'it''s".toList, "- so'".toList, " - Hall".toList] = some 2 := by decide +kernel

end QuestScript
