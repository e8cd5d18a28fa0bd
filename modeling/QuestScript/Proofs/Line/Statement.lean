import QuestScript.Screen
import QuestScript.Proofs.Line.Keyword
import QuestScript.Proofs.Line.Source

/-!
# Scanning statements that are written

The code of the screen has statements of two kinds, `ADDOBJ` and `ACT`, whose arguments are literals.
The scan finds the arguments again (`regularArgs_items`), whatever the literals hold, because the search
for a separator passes over them.

An `ACT` whose code is on its line is followed by the statements of that code. The code runs up to where
the last of them stops, so the scan must have reached the end of the line; it always does, but for a
colon that ends the last header (`stop_last_scanFrom`).
-/

namespace QuestScript

open Text (byteSize delimiterPos? cutAtDelimiter? splitBytes singleQuoted Standing)
open Source (Piece)

namespace Text

variable {x : String} {ch : Char}

theorem slice?_append (as bs cs : List Char) :
    slice? (as ++ (bs ++ cs)) (byteSize as) (byteSize as + byteSize bs) = some bs := by
  rw [slice?, if_pos (Nat.le_add_right _ _), splitBytes_append, Nat.add_sub_cancel_left]
  show (splitBytes (bs ++ cs) (byteSize bs)).bind (fun part => some part.1) = _
  rw [splitBytes_append]
  rfl

theorem toList_singleQuoted (x : String) :
    (singleQuoted x).toList = '\'' :: (doubleQuotes '\'' x.toList ++ ['\'']) := by
  simp [singleQuoted]

theorem closeQuote_singleQuoted (x : String) {rest : List Char} (hr : rest.head? ≠ some '\'') :
    closeQuote '\'' (doubleQuotes '\'' x.toList ++ ['\''] ++ rest)
      = some (doubleQuotes '\'' x.toList, rest) := by
  rw [List.append_assoc, List.singleton_append]
  exact closeQuote_doubleQuotes '\'' x.toList hr

/-- No separator is found in a literal. -/
theorem delimiterPos?_singleQuoted (x : String) (ch : Char) :
    delimiterPos? (singleQuoted x).toList ch = none := by
  have hclose : closeQuote '\'' (doubleQuotes '\'' x.toList ++ ['\'']) = _ :=
    closeQuote_doubleQuotes '\'' x.toList (by simp)
  rw [toList_singleQuoted, delimiterPos?, delimiterFrom?, if_pos (by decide)]
  split
  · rfl
  · next body rest h =>
    rw [hclose] at h
    cases h
    rw [delimiterFrom?]

/-- A word that is looked for may start after a literal. -/
theorem wordFrom?_singleQuoted (word : List Char) (isolated : Bool) (d : Depth) (fresh : Bool) (pos : Nat)
    (x : String) {rest : List Char} (hr : rest.head? ≠ some '\'') :
    wordFrom? word isolated d fresh pos ((singleQuoted x).toList ++ rest)
      = wordFrom? word isolated d true (pos + byteSize (singleQuoted x).toList) rest := by
  have hclose := closeQuote_singleQuoted x hr
  rw [toList_singleQuoted, List.cons_append, wordFrom?, if_pos (by decide)]
  split
  · next h => rw [hclose] at h; cases h
  · next body rest' h =>
    rw [hclose] at h
    cases h
    simp [Nat.add_assoc]

/-- Characters that are no quotes or brackets and do not start the word are passed over; they decide
only whether it may start right after them. -/
theorem wordFrom?_skip {w : Char} (word : List Char) {as : List Char}
    (h : ∀ c ∈ as, isQuote c = false ∧ ({} : Depth).track c = {} ∧ c ≠ w) (fresh : Bool) (pos : Nat)
    (rest : List Char) :
    ∃ fresh', wordFrom? (w :: word) true {} fresh pos (as ++ rest)
      = wordFrom? (w :: word) true {} fresh' (pos + byteSize as) rest := by
  induction as generalizing fresh pos with
  | nil => exact ⟨fresh, rfl⟩
  | cons c as ih =>
    obtain ⟨⟨hquote, htrack, hne⟩, hrest⟩ := List.forall_mem_cons.mp h
    have hfound : (w :: word).isPrefixOf (c :: (as ++ rest)) = false := by
      simp [List.isPrefixOf, Ne.symm hne]
    have hstep : wordFrom? (w :: word) true {} fresh pos (c :: (as ++ rest))
        = wordFrom? (w :: word) true {} (isDelimiter c) (pos + c.utf8Size) (as ++ rest) := by
      rw [wordFrom?, if_neg (by simp [hquote])]
      cases hd : isDelimiter c <;> simp [htrack, hfound, Depth.isTop]
    obtain ⟨fresh', hnext⟩ := ih hrest (isDelimiter c) (pos + c.utf8Size)
    exact ⟨fresh', by rw [List.cons_append, hstep, hnext, byteSize_cons, Nat.add_assoc]⟩

end Text

namespace Screen

/-- The texts of the arguments of an item are literals with a comma between them. -/
theorem toList_itemArgs (name : String) (image : Option String) :
    (itemArgs name image).toList
      = (singleQuoted name).toList ++ image.elim [] fun i => ',' :: (singleQuoted i).toList := by
  cases image <;> simp [itemArgs]

theorem itemArgs_cons (name : String) (image : Option String) :
    (itemArgs name image).toList = '\'' :: (itemArgs name image).toList.tail := by
  rw [toList_itemArgs, Text.toList_singleQuoted]
  rfl

variable {name : String} {image : Option String}

theorem piece_itemArgs (hname : '\r' ∉ name.toList) (himage : ∀ i ∈ image, '\r' ∉ i.toList) :
    Piece (itemArgs name image).toList := by
  rw [toList_itemArgs]
  cases image with
  | none => simpa using Piece.singleQuoted hname
  | some i =>
    refine (Piece.singleQuoted hname).append ?_
    have hcomma : Piece [','] := .of_notMem (by decide) (by decide) (by decide) (by decide)
    exact hcomma.append (.singleQuoted (himage i rfl))

end Screen

namespace Statement

/-- The spans of the arguments of an item whose text starts at byte `base`. -/
def itemSpans (base : Nat) (name : String) : Option String → List Span
  | none => [⟨base, base + byteSize (singleQuoted name).toList⟩]
  | some i =>
    let stop := base + byteSize (singleQuoted name).toList
    [⟨base, stop⟩, ⟨stop + 1, stop + 1 + byteSize (singleQuoted i).toList⟩]

variable {name : String} {image : Option String}

theorem cutAtDelimiter?_itemArgs (hname : '\r' ∉ name.toList) :
    cutAtDelimiter? (Screen.itemArgs name image).toList ','
      = image.map fun i => ((singleQuoted name).toList, (singleQuoted i).toList) := by
  rw [Screen.toList_itemArgs]
  cases image with
  | none => simp [cutAtDelimiter?, Text.delimiterPos?_singleQuoted]
  | some i =>
    have hpos : delimiterPos? ((singleQuoted name).toList ++ ',' :: (singleQuoted i).toList) ','
        = some (byteSize (singleQuoted name).toList) := by
      rw [Text.delimiterPos?_append (by decide) (Piece.singleQuoted hname).closed
        (Text.delimiterPos?_singleQuoted name ','), delimiterPos?, Text.delimiterFrom?,
        if_neg (by decide), if_pos (by decide), Option.map_some, Nat.add_zero]
    simp only [Option.elim_some, cutAtDelimiter?, hpos, Text.splitBytes_append, Option.map_some]

theorem separatedArgs_items (hname : '\r' ∉ name.toList) (room pos : Nat) :
    separatedArgs (room + 2) pos (Screen.itemArgs name image).toList
      = (itemSpans pos name image, none) := by
  rw [separatedArgs, cutAtDelimiter?_itemArgs hname]
  cases image with
  | none => simp [itemSpans, Screen.itemArgs]
  | some i =>
    have hcut : cutAtDelimiter? (singleQuoted i).toList ',' = none := by
      simp [cutAtDelimiter?, Text.delimiterPos?_singleQuoted]
    have hdrop : Text.dropBlanks (singleQuoted i).toList = (singleQuoted i).toList := by
      rw [Text.toList_singleQuoted]
      rfl
    have hlead : Text.leadingBlanks (singleQuoted i).toList = 0 := by
      rw [Text.toList_singleQuoted]
      rfl
    have hne : (singleQuoted i).toList.isEmpty = false := by
      rw [Text.toList_singleQuoted]
      rfl
    simp [hdrop, hlead, hne, separatedArgs, hcut, itemSpans]

/-- **The scan finds the arguments of an item.** -/
theorem regularArgs_items {kind : StatementKind} (room : Nat) (hkind : kind.arity = (1, room + 2))
    (hname : '\r' ∉ name.toList) (base : Nat) :
    regularArgs kind base (Screen.itemArgs name image).toList = (itemSpans base name image, none) := by
  have htext := Screen.itemArgs_cons name image
  have hstrip : stripBrackets? base (Screen.itemArgs name image).toList
      = some (base, (Screen.itemArgs name image).toList) := by
    rw [htext]
    rfl
  have hne : ¬ (Screen.itemArgs name image).toList.isEmpty = true := by
    rw [htext]
    simp
  have hcount : ¬ (itemSpans base name image).length < 1 := by
    cases image <;> simp [itemSpans]
  rw [regularArgs, hstrip]
  simp only [hkind, if_neg hne, separatedArgs_items hname, if_neg hcount]

/-! ## Headers -/

theorem delimiterPos?_itemArgs (hname : '\r' ∉ name.toList) (ch : Char) (hch : Text.isQuote ch = false)
    (hcomma : ch ≠ ',') : delimiterPos? (Screen.itemArgs name image).toList ch = none := by
  rw [Screen.toList_itemArgs, Text.delimiterPos?_append hch (Piece.singleQuoted hname).closed
    (Text.delimiterPos?_singleQuoted name ch)]
  cases image with
  | none => simp [delimiterPos?, Text.delimiterFrom?]
  | some i =>
    have hnone : delimiterPos? [','] ch = none := by
      simp [delimiterPos?, Text.delimiterFrom?, Text.isQuote, Ne.symm hcomma]
    have hclosed : Standing.after {} [','] = {} := by decide
    rw [Option.elim_some, ← List.singleton_append, Text.delimiterPos?_append hch hclosed hnone,
      Text.delimiterPos?_singleQuoted]
    rfl

/-- The line that adds an object. -/
def objectLine (name : String) (image : Option String) : List Char :=
  "ADDOBJ ".toList ++ (Screen.itemArgs name image).toList

/-- The header that adds an action. -/
def actionHeader (name : String) (image : Option String) : List Char :=
  "ACT ".toList ++ (Screen.itemArgs name image).toList ++ [':']

theorem piece_addObject : Piece "ADDOBJ ".toList :=
  .of_notMem (by decide) (by decide) (by decide) (by decide)

theorem piece_act : Piece "ACT ".toList :=
  .of_notMem (by decide) (by decide) (by decide) (by decide)

theorem wordPos?_objectLine (name : String) (image : Option String) :
    Text.wordPos? (objectLine name image) "ELSE".toList true = none := by
  have hall : ("ADDOBJ ".toList ++ [',']).all (fun c =>
      decide (Text.isQuote c = false ∧ ({} : Text.Depth).track c = {} ∧ c ≠ 'E')) = true := by
    decide
  have hplain : ∀ c ∈ "ADDOBJ ".toList ++ [','],
      Text.isQuote c = false ∧ ({} : Text.Depth).track c = {} ∧ c ≠ 'E' :=
    fun c hc => of_decide_eq_true (List.all_eq_true.mp hall c hc)
  obtain ⟨hkeyword, hcomma⟩ := List.forall_mem_append.mp hplain
  obtain ⟨fresh, hfirst⟩ := Text.wordFrom?_skip ['L', 'S', 'E'] hkeyword true 0
    (Screen.itemArgs name image).toList
  unfold objectLine
  rw [Text.wordPos?, if_neg (by decide)]
  refine hfirst.trans ?_
  rw [Screen.toList_itemArgs]
  cases image with
  | none =>
    rw [Option.elim_none, Text.wordFrom?_singleQuoted _ _ _ _ _ _ (by simp), Text.wordFrom?]
  | some i =>
    rw [Option.elim_some, Text.wordFrom?_singleQuoted _ _ _ _ _ _ (by simp), ← List.singleton_append]
    obtain ⟨fresh', hsecond⟩ := Text.wordFrom?_skip ['L', 'S', 'E'] hcomma true _
      (Text.singleQuoted i).toList
    refine hsecond.trans ?_
    rw [← List.append_nil (Text.singleQuoted i).toList,
      Text.wordFrom?_singleQuoted _ _ _ _ _ _ (by simp), Text.wordFrom?]

theorem plainCut_objectLine (hname : '\r' ∉ name.toList) : plainCut (objectLine name image) = {} := by
  have hkeyword : delimiterPos? "ADDOBJ ".toList '&' = none := by decide +kernel
  have hamp : delimiterPos? (objectLine name image) '&' = none := by
    unfold objectLine
    rw [Text.delimiterPos?_append (by decide) piece_addObject.closed hkeyword,
      delimiterPos?_itemArgs hname '&' (by decide) (by decide), Option.map_none]
  rw [plainCut, hamp, wordPos?_objectLine]

theorem ofParams_items {kind : StatementKind} (hkind : kind = .addObject ∨ kind = .act)
    (hname : '\r' ∉ name.toList) (param : Nat) :
    ofParams kind param (Screen.itemArgs name image).toList
      = ⟨kind, param, param + byteSize (Screen.itemArgs name image).toList,
          itemSpans param name image, none⟩ := by
  have hargs : regularArgs kind param (Screen.itemArgs name image).toList
      = (itemSpans param name image, none) := by
    rcases hkind with rfl | rfl
    · exact regularArgs_items 1 rfl hname param
    · exact regularArgs_items 0 rfl hname param
  rcases hkind with rfl | rfl <;> simp only [ofParams, hargs]

/-- The first statement of a text that starts with a keyword and a blank. -/
theorem first_of_keyword {cs word args : List Char} {kind : StatementKind} {n : Nat} {cut : Cut}
    (hkind : StatementKind.ofText cs = (kind, some n)) (hne : cs ≠ []) (hunknown : kind ≠ .unknown)
    (hcomment : kind ≠ .comment) (hparam : n + Text.leadingBlanks (cs.drop n) = byteSize word)
    (hcut : (if kind.endsAtColon then headerCut cs
      else if kind = .otherwise then elseCut (byteSize word) cs else plainCut cs) = cut)
    (htext : before cut.stop cs = word ++ args) (start : Nat) :
    first start cs = (ofParams kind (start + byteSize word) args, cut) := by
  have hmin : min (byteSize word) (byteSize (word ++ args)) = byteSize word := by
    rw [Text.byteSize_append]
    omega
  have hdrop : Text.dropBytes (word ++ args) (byteSize word) = args := by
    rw [Text.dropBytes, Text.splitBytes_append]
  have hplain : ¬ (cs.isEmpty || decide (kind = .comment)) = true := by simp [hne, hcomment]
  unfold first
  simp only [hkind, hparam, if_neg hplain, hcut, htext, if_neg hunknown, hmin, hdrop]

theorem first_objectLine (hname : '\r' ∉ name.toList) :
    first 0 (objectLine name image)
      = (ofParams .addObject 7 (Screen.itemArgs name image).toList, {}) := by
  have hkind : StatementKind.ofText (objectLine name image) = (.addObject, some 6) :=
    Eq.trans (StatementKind.ofText_eq (show some 'A' ≠ some ':' by decide)
      (show some 'A' ≠ some '!' by decide)) rfl
  have hparam : 6 + Text.leadingBlanks ((objectLine name image).drop 6)
      = byteSize "ADDOBJ ".toList := by
    unfold objectLine
    rw [Screen.itemArgs_cons]
    rfl
  exact first_of_keyword hkind nofun nofun nofun hparam (plainCut_objectLine hname) rfl 0

/-- The statement that adds an object with a name and an image. -/
def object (name : String) (image : Option String) : Statement :=
  ⟨.addObject, 7, byteSize (objectLine name image), itemSpans 7 name image, none⟩

/-- A line that adds an object is one statement. -/
theorem scan_objectLine (hname : '\r' ∉ name.toList) :
    scan (objectLine name image) = [object name image] := by
  have hscan : scanFrom 0 (objectLine name image)
      = [ofParams .addObject 7 (Screen.itemArgs name image).toList] := by
    rw [scanFrom, first_objectLine hname]
  have hblanks : scan (objectLine name image)
      = mergeElseIf (objectLine name image) (scanFrom 0 (objectLine name image)) := rfl
  rw [hblanks, hscan, ofParams_items (.inl rfl) hname]
  unfold object objectLine
  rw [Text.byteSize_append]
  rfl

/-! ## Actions -/

theorem piece_actionHeader (hname : '\r' ∉ name.toList) (himage : ∀ i ∈ image, '\r' ∉ i.toList) :
    Piece (actionHeader name image) := by
  have hcolon : Piece [':'] := .of_notMem (by decide) (by decide) (by decide) (by decide)
  exact (piece_act.append (Screen.piece_itemArgs hname himage)).append hcolon

theorem actionHeader_append (name : String) (image : Option String) (code : List Char) :
    actionHeader name image ++ code
      = "ACT ".toList ++ (Screen.itemArgs name image).toList ++ ':' :: code := by
  unfold actionHeader
  rw [List.append_assoc, List.singleton_append]

/-- The statement that adds an action with a name and an image. -/
def action (name : String) (image : Option String) : Statement :=
  ⟨.act, 4, byteSize ("ACT ".toList ++ (Screen.itemArgs name image).toList), itemSpans 4 name image, none⟩

/-- The colon of the header is the first one that counts. -/
theorem delimiterPos?_actionHeader (hname : '\r' ∉ name.toList) (himage : ∀ i ∈ image, '\r' ∉ i.toList)
    (code : List Char) :
    delimiterPos? (actionHeader name image ++ code) ':'
      = some (action name image).stop := by
  have hkeyword : delimiterPos? "ACT ".toList ':' = none := by decide +kernel
  have hnone : delimiterPos? ("ACT ".toList ++ (Screen.itemArgs name image).toList) ':' = none := by
    rw [Text.delimiterPos?_append (by decide) piece_act.closed hkeyword,
      delimiterPos?_itemArgs hname ':' (by decide) (by decide), Option.map_none]
  have hcolon : delimiterPos? (':' :: code) ':' = some 0 := by
    rw [delimiterPos?, Text.delimiterFrom?]
    rfl
  rw [actionHeader_append, Text.delimiterPos?_append (by decide)
    (piece_act.append (Screen.piece_itemArgs hname himage)).closed hnone, hcolon]
  rfl

theorem byteSize_actionHeader_append (name : String) (image : Option String) (code : List Char) :
    byteSize (actionHeader name image ++ code) = (action name image).stop + 1 + byteSize code := by
  rw [actionHeader_append, Text.byteSize_append, Text.byteSize_cons, ← Nat.add_assoc]
  rfl

theorem first_action (hname : '\r' ∉ name.toList) (himage : ∀ i ∈ image, '\r' ∉ i.toList)
    (code : List Char) :
    first 0 (actionHeader name image ++ code)
      = (action name image,
          { stop := some (action name image).stop
            next := if code = [] then none else some ((action name image).stop + 1) }) := by
  have hkind : StatementKind.ofText (actionHeader name image ++ code) = (.act, some 3) :=
    Eq.trans (StatementKind.ofText_eq (show some 'A' ≠ some ':' by decide)
      (show some 'A' ≠ some '!' by decide)) rfl
  have hparam : 3 + Text.leadingBlanks ((actionHeader name image ++ code).drop 3)
      = byteSize "ACT ".toList := by
    rw [actionHeader_append, Screen.itemArgs_cons]
    rfl
  have hcut : headerCut (actionHeader name image ++ code)
      = { stop := some (action name image).stop
          next := if code = [] then none else some ((action name image).stop + 1) } := by
    rw [headerCut, delimiterPos?_actionHeader hname himage, byteSize_actionHeader_append]
    by_cases hcode : code = []
    · simp [hcode]
    · simp [hcode, Text.byteSize_pos hcode]
  have htext : before (some (action name image).stop) (actionHeader name image ++ code)
      = "ACT ".toList ++ (Screen.itemArgs name image).toList := by
    rw [actionHeader_append, before, Option.bind_some, action, Text.splitBytes_append]
  have hargs : ofParams .act 4 (Screen.itemArgs name image).toList = action name image := by
    rw [ofParams_items (.inr rfl) hname, action, Text.byteSize_append]
    rfl
  rw [first_of_keyword hkind nofun nofun nofun hparam hcut htext 0, ← hargs]
  rfl

theorem mergeElseIf_of_ne {a : Statement} (h : a.kind ≠ .otherwise) (cs : List Char)
    (rest : List Statement) : mergeElseIf cs (a :: rest) = a :: rest := by
  unfold mergeElseIf
  split
  · next heq =>
    cases heq
    simp [h]
  · rfl

/-- A header alone is one statement. -/
theorem scan_actionHeader (hname : '\r' ∉ name.toList) (himage : ∀ i ∈ image, '\r' ∉ i.toList) :
    scan (actionHeader name image) = [action name image] := by
  have hfirst := first_action hname himage []
  rw [List.append_nil] at hfirst
  have hblanks : scan (actionHeader name image)
      = mergeElseIf (actionHeader name image) (scanFrom 0 (actionHeader name image)) := rfl
  rw [hblanks, scanFrom, hfirst]
  rfl

/-- A header with code after it is followed by the statements of the code. -/
theorem scan_inlineAction (hname : '\r' ∉ name.toList) (himage : ∀ i ∈ image, '\r' ∉ i.toList)
    {code : List Char} (hne : code ≠ []) (hfirst : ∀ c ∈ code.head?, Text.isBlank c = false) :
    scan (actionHeader name image ++ code)
      = action name image :: scanFrom ((action name image).stop + 1) code := by
  have hrest : Text.dropBytes (actionHeader name image ++ code) ((action name image).stop + 1) = code := by
    have hsize := byteSize_actionHeader_append name image []
    rw [List.append_nil, Text.byteSize_nil, Nat.add_zero] at hsize
    rw [← hsize, Text.dropBytes, Text.splitBytes_append]
  have hdrop : Text.dropBlanks code = code := Text.dropWhile_eq_self_iff.mpr hfirst
  have hlead : Text.leadingBlanks code = 0 := by
    cases code with
    | nil => rfl
    | cons c cs => simp [Text.leadingBlanks, hfirst c rfl]
  have hshorter : code.length < (actionHeader name image ++ code).length := by
    rw [List.length_append, Nat.lt_add_left_iff_pos]
    exact Nat.succ_pos _
  have hblanks : scan (actionHeader name image ++ code)
      = mergeElseIf (actionHeader name image ++ code) (scanFrom 0 (actionHeader name image ++ code)) := rfl
  rw [hblanks, scanFrom, first_action hname himage]
  simp only [hne, if_false, hrest, hdrop, hlead, hshorter, dite_true, Nat.zero_add, Nat.add_zero]
  exact mergeElseIf_of_ne (by simp [action]) _ _

/-! ## Where the scan stops -/

theorem stop_ofParams (kind : StatementKind) (param : Nat) (cs : List Char) :
    (ofParams kind param cs).stop = param + byteSize cs := by
  unfold ofParams
  split
  rfl

theorem isPrefix_before (n : Option Nat) (cs : List Char) : before n cs <+: cs := by
  unfold before
  split
  · next a b h =>
    obtain ⟨n, -, hn⟩ := Option.bind_eq_some_iff.mp h
    exact ⟨b, (Text.splitBytes_eq_some hn).1.symm⟩
  · exact List.prefix_refl cs

/-- Cutting a text at the end of one of its prefixes, or at its own end if that comes first, loses no
bytes. -/
theorem byteSize_dropBytes {cs as text : List Char} (ha : as <+: cs) (ht : text <+: cs) :
    min (byteSize as) (byteSize text) + byteSize (Text.dropBytes text (min (byteSize as) (byteSize text)))
      = byteSize text := by
  rcases List.prefix_or_prefix_of_prefix ha ht with ⟨rest, rfl⟩ | ⟨rest, rfl⟩
  · rw [Text.byteSize_append, Nat.min_eq_left (by omega), Text.dropBytes, Text.splitBytes_append]
  · have hall : Text.dropBytes text (byteSize text) = [] := by
      have hsplit := Text.splitBytes_append text []
      rw [List.append_nil] at hsplit
      rw [Text.dropBytes, hsplit]
    rw [Text.byteSize_append, Nat.min_eq_right (by omega), hall, Text.byteSize_nil, Nat.add_zero]

theorem byteSize_takeWhile_isBlank (cs : List Char) :
    byteSize (cs.takeWhile Text.isBlank) = Text.leadingBlanks cs := by
  rw [Text.leadingBlanks]
  induction cs with
  | nil => rfl
  | cons c cs ih =>
    by_cases hc : Text.isBlank c = true
    · have hsize : c.utf8Size = 1 := by
        have h' : c = ' ' ∨ c = '\t' := by simpa [Text.isBlank] using hc
        rcases h' with rfl | rfl <;> rfl
      rw [List.takeWhile_cons_of_pos hc, Text.byteSize_cons, ih, hsize, List.length_cons, Nat.add_comm]
    · rw [List.takeWhile_cons_of_neg hc]
      rfl

theorem byteSize_dropBlanks (cs : List Char) :
    Text.leadingBlanks cs + byteSize (Text.dropBlanks cs) = byteSize cs := by
  rw [← byteSize_takeWhile_isBlank, Text.dropBlanks, ← Text.byteSize_append, List.takeWhile_append_dropWhile]

/-- A keyword is as long in bytes as in characters. -/
theorem exists_keyword {cs : List Char} {kind : StatementKind} {n : Nat}
    (h : StatementKind.ofText cs = (kind, some n)) :
    ∃ word, cs = word ++ cs.drop n ∧ 0 < n ∧ word.length = n ∧ byteSize word = n := by
  have hall : ∀ k ∈ StatementKind.keywords, 0 < k.1.length ∧ k.1.toList.length = k.1.length ∧
      byteSize k.1.toList = k.1.length := by
    decide +kernel
  obtain ⟨k, hk, hstarts, rfl, rfl⟩ := StatementKind.exists_of_ofText_eq h
  obtain ⟨rest, hrest⟩ := StatementKind.prefix_of_startsWith hstarts
  refine ⟨k.1.toList, ?_, hall k hk⟩
  rw [← hrest, ← String.length_toList, List.drop_left]

/-- So the parameters start between two characters. -/
theorem exists_params {cs : List Char} {kind : StatementKind} {n : Nat}
    (h : StatementKind.ofText cs = (kind, some n)) :
    ∃ as, as <+: cs ∧ 0 < n ∧ byteSize as = n + Text.leadingBlanks (cs.drop n) := by
  obtain ⟨word, hword, hpos, -, hsize⟩ := exists_keyword h
  refine ⟨word ++ (cs.drop n).takeWhile Text.isBlank, ?_, hpos, ?_⟩
  · conv_rhs => rw [hword]
    exact (List.prefix_append_right_inj _).mpr (List.takeWhile_prefix _)
  · rw [Text.byteSize_append, hsize, byteSize_takeWhile_isBlank]

/-- Only a keyword makes a statement an `ELSE`. -/
theorem ofText_ne_otherwise (cs : List Char) : StatementKind.ofText cs ≠ (.otherwise, none) := by
  unfold StatementKind.ofText
  split
  · nofun
  · nofun
  · nofun
  · split <;> nofun

/-- What a cut of a text can be: none, at a colon that ends the text, or between two parts of it with a
separator or nothing between them, and then the text that goes on is shorter. -/
inductive Cut.Fits (cs : List Char) : Cut → Prop
  | whole : Fits cs {}
  | colon {as : List Char} (h : cs = as ++ [':']) : Fits cs ⟨some (byteSize as), none⟩
  | inner {as sep bs : List Char} (h : cs = (as ++ sep) ++ bs) (hne : as ++ sep ≠ []) :
      Fits cs ⟨some (byteSize as), some (byteSize (as ++ sep))⟩

variable {cs : List Char}

/-- A cut without a separator. -/
theorem Cut.Fits.between {as bs : List Char} (h : cs = as ++ bs) (hne : as ≠ []) :
    Cut.Fits cs ⟨some (byteSize as), some (byteSize as)⟩ := by
  have hcs : cs = as ++ [] ++ bs := by rw [h, List.append_nil]
  have hinner : Cut.Fits cs ⟨some (byteSize as), some (byteSize (as ++ []))⟩ :=
    .inner hcs (by rwa [List.append_nil])
  rwa [List.append_nil] at hinner

theorem Cut.Fits.atColon {as bs : List Char} (h : cs = as ++ ':' :: bs) :
    Cut.Fits cs
      { stop := some (byteSize as)
        next := if byteSize as + 1 < byteSize cs then some (byteSize as + 1) else none } := by
  have hcolon : byteSize as + 1 = byteSize (as ++ [':']) := by simp; rfl
  cases bs with
  | nil =>
    rw [if_neg (by rw [h, hcolon]; omega)]
    exact .colon h
  | cons b bs =>
    have hpos := Text.byteSize_pos (List.cons_ne_nil b bs)
    have hcs : cs = (as ++ [':']) ++ b :: bs := by rw [h, List.append_assoc, List.singleton_append]
    have hsize : byteSize cs = byteSize (as ++ [':']) + byteSize (b :: bs) := by
      rw [hcs, Text.byteSize_append]
    rw [if_pos (by omega), hcolon]
    exact .inner hcs (by simp)

theorem exists_of_delimiterPos? {ch : Char} (hch : Text.isQuote ch = false) {p : Nat}
    (h : delimiterPos? cs ch = some p) : ∃ as bs, cs = as ++ ch :: bs ∧ byteSize as = p := by
  obtain ⟨⟨as, bs, hcs, hsize, -⟩, -⟩ := (Text.delimiterPos?_eq_some_iff hch).mp h
  exact ⟨as, bs, hcs, hsize⟩

theorem headerCut_fits (cs : List Char) : (headerCut cs).Fits cs := by
  unfold headerCut
  split
  · next p h =>
    obtain ⟨as, bs, hcs, rfl⟩ := exists_of_delimiterPos? (by decide) h
    exact .atColon hcs
  · exact .whole

theorem elseCut_fits {as : List Char} (h : as <+: cs) (hne : as ≠ []) :
    (elseCut (byteSize as) cs).Fits cs := by
  obtain ⟨rest, rfl⟩ := h
  unfold elseCut
  rw [Text.charAt?_append]
  split
  · next hhead =>
    obtain ⟨tail, rfl⟩ := List.head?_eq_some_iff.mp hhead
    exact .atColon rfl
  · exact .between rfl hne
  · exact .whole

/-- A word stands at a byte of a text; an isolated one has ended where the text goes on. -/
def WordAt (word : List Char) (isolated : Bool) (cs : List Char) (n : Nat) : Prop :=
  ∃ as bs, cs = as ++ bs ∧ byteSize as = n ∧ word <+: bs ∧
    (isolated = true → Text.atBoundary (bs.drop word.length) = true)

theorem WordAt.prepend {word : List Char} {isolated : Bool} {n : Nat} (h : WordAt word isolated cs n)
    (before : List Char) : WordAt word isolated (before ++ cs) (byteSize before + n) := by
  obtain ⟨as, bs, rfl, rfl, hword, hends⟩ := h
  exact ⟨before ++ as, bs, by simp, by simp, hword, hends⟩

theorem wordAt_of_wordFrom? {word : List Char} {isolated : Bool} {d : Text.Depth} {fresh : Bool}
    {pos e : Nat} (h : Text.wordFrom? word isolated d fresh pos cs = some e) :
    ∃ n, e = pos + n ∧ WordAt word isolated cs n := by
  -- a search that goes on behind the first characters finds the word behind them
  have later : ∀ (as : List Char) {bs : List Char} {e pos : Nat},
      (∃ n, e = pos + byteSize as + n ∧ WordAt word isolated bs n) →
      ∃ n, e = pos + n ∧ WordAt word isolated (as ++ bs) n := by
    rintro as bs e pos ⟨n, rfl, hn⟩
    exact ⟨byteSize as + n, Nat.add_assoc .., hn.prepend as⟩
  fun_induction Text.wordFrom? word isolated d fresh pos cs with
  | case1 => cases h
  | case2 => cases h
  | case3 d fresh pos c cs hq body rest hclose ih =>
    have hcs : c :: cs = (c :: (body ++ [c])) ++ rest := by simp [Text.closeQuote_eq_some hclose]
    rw [hcs]
    refine later (c :: (body ++ [c])) ?_
    obtain ⟨n, hn, hword⟩ := ih h
    exact ⟨n, by simp; omega, hword⟩
  | case5 d fresh pos c cs hq _ _ _ hisolated hfound =>
    cases h
    refine ⟨0, rfl, [], c :: cs, rfl, rfl, List.isPrefixOf_iff_prefix.mp hfound, ?_⟩
    rintro rfl
    cases hisolated
  | case8 d fresh pos c cs hq _ _ _ _ _ hfound =>
    cases h
    simp only [Bool.and_eq_true] at hfound
    exact ⟨0, rfl, [], c :: cs, rfl, rfl, List.isPrefixOf_iff_prefix.mp hfound.1.2, fun _ => hfound.2⟩
  | case4 d fresh pos c cs _ _ _ ih => exact later [c] (ih h)
  | case6 d fresh pos c cs _ _ _ _ _ _ ih => exact later [c] (ih h)
  | case7 d fresh pos c cs _ _ _ _ _ ih => exact later [c] (ih h)
  | case9 d fresh pos c cs _ _ _ _ _ _ _ ih => exact later [c] (ih h)

theorem ofText_else {rest : List Char} (h : Text.atBoundary rest = true) :
    StatementKind.ofText ("ELSE".toList ++ rest) = (.otherwise, some 4) := by
  refine Eq.trans (StatementKind.ofText_eq (show some 'E' ≠ some ':' by decide)
    (show some 'E' ≠ some '!' by decide)) ?_
  cases rest with
  | nil => rfl
  | cons c rest =>
    have hc : c ∈ Text.delimiters := by simpa [Text.atBoundary, Text.isDelimiter] using h
    simp only [Text.delimiters, List.mem_cons, List.not_mem_nil, or_false] at hc
    rcases hc with rfl | rfl | rfl | rfl | rfl | rfl | rfl | rfl | rfl | rfl | rfl | rfl | rfl | rfl | rfl |
      rfl | rfl | rfl | rfl | rfl | rfl <;> rfl

theorem plainCut_fits (h : (StatementKind.ofText cs).1 ≠ .otherwise) : (plainCut cs).Fits cs := by
  have hamp : ∀ a, delimiterPos? cs '&' = some a → Cut.Fits cs ⟨some a, some (a + 1)⟩ := by
    intro a ha
    obtain ⟨as, bs, hcs, rfl⟩ := exists_of_delimiterPos? (by decide) ha
    have hsize : byteSize as + 1 = byteSize (as ++ ['&']) := by simp; rfl
    rw [hsize]
    exact .inner (by rw [hcs, List.append_assoc, List.singleton_append]) (by simp)
  have helse : ∀ e, Text.wordPos? cs "ELSE".toList true = some e → Cut.Fits cs ⟨some e, some e⟩ := by
    intro e he
    rw [Text.wordPos?, if_neg (by decide)] at he
    obtain ⟨-, rfl, as, bs, hcs, rfl, ⟨rest, hword⟩, hboundary⟩ := wordAt_of_wordFrom? he
    have hne : as ≠ [] := by
      rintro rfl
      rw [List.nil_append] at hcs
      rw [← hword, List.drop_left] at hboundary
      rw [hcs, ← hword, ofText_else (hboundary rfl)] at h
      exact h rfl
    rw [Nat.zero_add]
    exact .between hcs hne
  unfold plainCut
  split
  · next a e ha he =>
    split
    · exact helse e he
    · exact hamp a ha
  · next e _ he => exact helse e he
  · next a ha _ => exact hamp a ha
  · exact .whole

theorem cut_fits {kind : StatementKind} (hkind : (StatementKind.ofText cs).1 = kind) {as : List Char}
    (has : as <+: cs) (hne : kind = .otherwise → as ≠ []) :
    (if kind.endsAtColon then headerCut cs
      else if kind = .otherwise then elseCut (byteSize as) cs else plainCut cs).Fits cs := by
  split
  · exact headerCut_fits cs
  split
  · next h => exact elseCut_fits has (hne h)
  · next h => exact plainCut_fits (hkind ▸ h)

/-- The cut after the first statement fits, and the statement stops there. -/
theorem first_fits (start : Nat) (cs : List Char) :
    (first start cs).2.Fits cs ∧
      (first start cs).1.stop = start + byteSize (before (first start cs).2.stop cs) := by
  unfold first
  rcases hk : StatementKind.ofText cs with ⟨kind, keyword⟩
  have hkind : (StatementKind.ofText cs).1 = kind := by rw [hk]
  cases keyword with
  | none =>
    have hne : kind = .otherwise → ([] : List Char) ≠ [] := by
      rintro rfl
      exact absurd hk (ofText_ne_otherwise cs)
    dsimp only
    split
    · exact ⟨.whole, stop_ofParams _ _ _⟩
    · refine ⟨cut_fits hkind List.nil_prefix hne, ?_⟩
      rw [stop_ofParams, Nat.add_assoc]
      exact congrArg (start + ·) (byteSize_dropBytes List.nil_prefix (isPrefix_before _ cs))
  | some n =>
    obtain ⟨as, has, hpos, hsize⟩ := exists_params hk
    have hne : as ≠ [] := by
      rintro rfl
      rw [Text.byteSize_nil] at hsize
      omega
    dsimp only
    rw [← hsize]
    split
    · exact ⟨.whole, stop_ofParams _ _ _⟩
    · refine ⟨cut_fits hkind has fun _ => hne, ?_⟩
      dsimp only
      rw [stop_ofParams, Nat.add_assoc, byteSize_dropBytes has (isPrefix_before _ cs)]

theorem length_dropBlanks_lt {as bs : List Char} (h : cs = as ++ bs) (hne : as ≠ []) :
    (Text.dropBlanks bs).length < cs.length := by
  have hle := Text.dropBlanks_length_le bs
  have hpos := List.length_pos_iff.mpr hne
  rw [h, List.length_append]
  omega

/-- The scan ends with a statement that nothing follows. -/
theorem scanFrom_last {start : Nat} {s : Statement} {cut : Cut} (hfirst : first start cs = (s, cut))
    (hnext : cut.next = none) : scanFrom start cs = [s] := by
  rw [scanFrom, hfirst]
  simp only [hnext]

/-- The scan goes on behind a cut. -/
theorem scanFrom_inner {start : Nat} {as sep bs : List Char} {s : Statement}
    (hfirst : first start cs = (s, ⟨some (byteSize as), some (byteSize (as ++ sep))⟩))
    (hcs : cs = (as ++ sep) ++ bs) (hne : as ++ sep ≠ []) :
    scanFrom start cs
      = s :: scanFrom (start + byteSize (as ++ sep) + Text.leadingBlanks bs) (Text.dropBlanks bs) := by
  have hrest : Text.dropBytes cs (byteSize (as ++ sep)) = bs := by
    rw [hcs, Text.dropBytes, Text.splitBytes_append]
  rw [scanFrom, hfirst]
  simp only [hrest, length_dropBlanks_lt hcs hne, dite_true]

/-- **The last statement of a text stops at its end**, or before a colon that ends it. -/
theorem stop_last_scanFrom (start : Nat) (cs : List Char) :
    ∃ init last, scanFrom start cs = init ++ [last] ∧
      (last.stop = start + byteSize cs ∨
        ∃ as, cs = as ++ [':'] ∧ last.stop = start + byteSize as) := by
  induction cs using (measure List.length).wf.induction generalizing start with
  | _ cs ih =>
    obtain ⟨hfits, hstop⟩ := first_fits start cs
    rcases hfirst : first start cs with ⟨statement, cut⟩
    rw [hfirst] at hfits hstop
    cases hfits with
    | whole => exact ⟨[], statement, scanFrom_last hfirst rfl, .inl hstop⟩
    | @colon as h =>
      refine ⟨[], statement, scanFrom_last hfirst rfl, .inr ⟨as, h, ?_⟩⟩
      rw [hstop, before, Option.bind_some, h, Text.splitBytes_append]
    | @inner as sep bs h hne =>
      rw [scanFrom_inner hfirst h hne]
      generalize as ++ sep = as at h hne
      obtain ⟨init, last, hscan, hlast⟩ :=
        ih _ (length_dropBlanks_lt h hne) (start + byteSize as + Text.leadingBlanks bs)
      refine ⟨statement :: init, last, by rw [hscan]; rfl, ?_⟩
      have hbytes := byteSize_dropBlanks bs
      rcases hlast with hlast | ⟨cs', hcs', hlast⟩
      · left
        rw [hlast, h, Text.byteSize_append]
        omega
      · right
        refine ⟨as ++ (bs.takeWhile Text.isBlank ++ cs'), ?_, ?_⟩
        · rw [h, List.append_assoc, List.append_assoc, ← hcs', Text.dropBlanks,
            List.takeWhile_append_dropWhile]
        · rw [hlast, Text.byteSize_append, Text.byteSize_append, byteSize_takeWhile_isBlank]
          omega

end Statement

end QuestScript
