import QuestScript.Line.Block
import QuestScript.Proofs.Screen.Scene

/-!
# What is written

The code of the screen has one line for each object, and for each action either one line or a block.
`Legible` says which items can be written: their texts hold no returns and open no expressions, every
line of code reads as itself, and the blocks in it are closed. The lines of legible items are whole
(`whole_objectLine`, `whole_actionLines`), so they are read back as they stand.
-/

namespace QuestScript

/-! ## Scanned lines -/

/-- A line that is scanned from its text. -/
def Line.Scanned (line : Line) : Prop := line = Line.scan line.text line.number

namespace Line.Scanned

variable {line : Line}

/-- A line that was scanned has the statements of its text. -/
theorem statements (h : line.Scanned) : line.statements = Statement.scan line.text :=
  congrArg Line.statements h

theorem isMultiline (h : line.Scanned) : line.isMultiline = Line.isHeader line.text line.statements := by
  rw [h.statements]
  exact congrArg Line.isMultiline h

/-- The role of a scanned line is that of its text. -/
theorem role (h : line.Scanned) (number : Nat) :
    Block.role line = Block.role (Line.scan line.text number) := by
  rw [h]
  rfl

end Line.Scanned

/-! ## Blocks -/

namespace Block

/-- The roles of lines of which every block is closed and no `END` is left over. -/
inductive Closed : List Role → Prop
  | nil : Closed []
  | line {r : Role} {rs : List Role} (opening : r ≠ .opening) (closing : r ≠ .closing)
      (rest : Closed rs) : Closed (r :: rs)
  | block {bs rs : List Role} (body : Closed bs) (rest : Closed rs) :
      Closed (.opening :: (bs ++ .closing :: rs))

/-- A search from a depth and an index that counts the blocks it passes. -/
structure PassesBlocks (search : Nat → Nat → List Line → Option Nat) : Prop where
  opening {l : Line} (h : role l = .opening) (depth index : Nat) (ls : List Line) :
    search depth index (l :: ls) = search (depth + 1) (index + 1) ls
  closing {l : Line} (h : role l = .closing) (depth index : Nat) (ls : List Line) :
    search (depth + 1) index (l :: ls) = search depth (index + 1) ls
  line {l : Line} (hopening : role l ≠ .opening) (hclosing : role l ≠ .closing) (depth index : Nat)
    (ls : List Line) : search depth index (l :: ls) = search depth (index + 1) ls

/-- Such a search passes over lines of which every block is closed. -/
theorem PassesBlocks.of_closed {search : Nat → Nat → List Line → Option Nat} (hs : PassesBlocks search)
    {rs : List Role} (h : Closed rs) {ls : List Line} (hls : ls.map role = rs) (depth index : Nat)
    (rest : List Line) : search depth index (ls ++ rest) = search depth (index + ls.length) rest := by
  induction h generalizing ls depth index rest with
  | nil =>
    rw [List.map_eq_nil_iff.mp hls]
    rfl
  | line hopening hclosing _ ih =>
    obtain ⟨l, ls, rfl, rfl, htail⟩ := List.map_eq_cons_iff.mp hls
    rw [List.cons_append, hs.line hopening hclosing, ih htail, List.length_cons, Nat.add_assoc, Nat.add_comm 1]
  | block _ _ ihbody ihrest =>
    obtain ⟨l, ls, rfl, hl, htail⟩ := List.map_eq_cons_iff.mp hls
    obtain ⟨body, ls, rfl, hbody, hclose⟩ := List.map_eq_append_iff.mp htail
    obtain ⟨e, after, rfl, he, hafter⟩ := List.map_eq_cons_iff.mp hclose
    rw [List.cons_append, hs.opening hl, List.append_assoc, ihbody hbody, List.cons_append, hs.closing he,
      ihrest hafter]
    congr 1
    simp only [List.length_cons, List.length_append]
    omega

/-- The end of a block is looked for behind the blocks inside of it. -/
theorem passesBlocks_endFrom? : PassesBlocks endFrom? where
  opening h depth index ls := by
    rw [endFrom?.eq_def]
    simp only [h]
  closing h depth index ls := by
    rw [endFrom?.eq_def]
    simp only [h]
  line hopening hclosing depth index ls := by
    rw [endFrom?.eq_def]
    dsimp only
    split
    · next h => exact absurd h hopening
    · next h => exact absurd h hclosing
    · rfl

/-- The search for an `END` passes over such lines. -/
theorem endFrom?_of_closed {rs : List Role} (h : Closed rs) {ls : List Line} (hls : ls.map role = rs)
    (depth index : Nat) (rest : List Line) :
    endFrom? depth index (ls ++ rest) = endFrom? depth (index + ls.length) rest :=
  passesBlocks_endFrom?.of_closed h hls depth index rest

end Block

/-! ## Legible items -/

/-- The name and the image of an object can be written as literals. -/
structure Object.Legible (o : Object) : Prop where
  name : Text.Legible o.name
  image : ∀ i ∈ o.image, Text.Legible i

/-- An action can be written: its description and its image as literals, every line of its code as a
line, and a block of them before an `END` of its own. -/
structure Action.Legible (a : Action) : Prop where
  description : Text.Legible a.description
  image : ∀ i ∈ a.image, i ≠ "" ∧ Text.Legible i
  code : ∀ l ∈ a.code, Source.Whole l.text
  closed : 1 < a.code.length → Block.Closed (a.code.map fun l => Block.role (Line.scan l.text l.number))

theorem Action.Legible.noReturn {a : Action} (ha : a.Legible) : ∀ i ∈ a.image, '\r' ∉ i.toList :=
  fun i hi => (ha.image i hi).2.noReturn

/-! ## The lines that are written -/

namespace Screen

/-- The lines of an action: its header with its code behind it, or a block. -/
def actionLines (a : Action) : List (List Char) :=
  let header := Statement.actionHeader a.description a.image
  match a.code.map (·.text) with
  | [] => [header, "END".toList]
  | [text] => if text = [] then [header, "END".toList] else [header ++ text]
  | texts => header :: (texts ++ ["END".toList])

/-- Lines with a break after each are lines with a break between them, and one at the end. -/
theorem intercalate_break {ls : List (List Char)} (h : ls ≠ []) :
    ['\n'].intercalate ls ++ ['\n'] = ls.flatMap (· ++ ['\n']) := by
  induction ls with
  | nil => exact absurd rfl h
  | cons l ls ih =>
    cases ls with
    | nil => simp
    | cons l' ls => rw [List.flatMap_cons, ← ih (List.cons_ne_nil _ _)]; simp

/-- An action is written in lines, each with its break. -/
theorem toList_actionCode (a : Action) :
    ("ACT " ++ itemArgs a.description a.image ++ ":" ++ actionBody a.code ++ "\n").toList
      = (actionLines a).flatMap (· ++ ['\n']) := by
  have hheader : ("ACT " ++ itemArgs a.description a.image ++ ":").toList
      = Statement.actionHeader a.description a.image := by
    simp [Statement.actionHeader]
  rw [String.toList_append, String.toList_append, hheader]
  unfold actionLines actionBody
  match a.code with
  | [] => simp
  | [l] =>
    by_cases h : l.text = []
    · simp [h]
    · simp [h]
  | l :: l' :: ls =>
    have hjoin := intercalate_break (List.cons_ne_nil l.text (l'.text :: ls.map (·.text)))
    have htexts : (l :: l' :: ls).map (fun l => (String.ofList l.text).toList)
        = l.text :: l'.text :: ls.map (·.text) := by simp
    have hbody : ("\n" ++ String.intercalate "\n" ((l :: l' :: ls).map fun l => String.ofList l.text)
          ++ "\nEND").toList
        = '\n' :: (['\n'].intercalate (l.text :: l'.text :: ls.map (·.text)) ++ ['\n'] ++ "END".toList) := by
      rw [String.toList_append, String.toList_append, String.toList_intercalate, List.map_map,
        Function.comp_def, htexts, List.append_assoc, List.append_assoc]
      rfl
    rw [hbody, hjoin]
    simp

/-- The objects are written in a line for each. -/
theorem toList_objectsAsCode (s : Screen) :
    s.objectsAsCode.toList
      = (s.objects.map fun o => Statement.objectLine o.name o.image).flatMap (· ++ ['\n']) := by
  have hline : ∀ o : Object, ("ADDOBJ " ++ itemArgs o.name o.image ++ "\n").toList
      = Statement.objectLine o.name o.image ++ ['\n'] := by
    intro o
    unfold Statement.objectLine
    rw [String.toList_append, String.toList_append]
    rfl
  simp only [objectsAsCode, String.toList_join, List.flatMap_map, hline]

/-- The actions are written one after the other, so their lines follow one another. -/
theorem toList_actionsAsCode (s : Screen) :
    s.actionsAsCode.toList = (s.actions.flatMap actionLines).flatMap (· ++ ['\n']) := by
  rw [actionsAsCode, String.toList_join, List.flatMap_map, List.flatMap_assoc]
  congr 1
  funext a
  exact toList_actionCode a

/-! ### Written lines are whole -/

/-- The arguments of an item end with a quote, so the line does not go on after them. -/
theorem getLast?_itemArgs (name : String) (image : Option String) :
    (itemArgs name image).toList.getLast? = some '\'' := by
  have hquote : ∀ x, (Text.singleQuoted x).toList.getLast? = some '\'' := by
    intro x
    rw [Text.toList_singleQuoted, ← List.cons_append]
    exact List.getLast?_concat
  rw [toList_itemArgs]
  cases image with
  | none => rw [Option.elim_none, List.append_nil, hquote]
  | some i =>
    rw [Option.elim_some, List.getLast?_append, ← List.singleton_append, List.getLast?_append, hquote]
    rfl

/-- The line of an object can be read without those after it. -/
theorem whole_objectLine {o : Object} (ho : o.Legible) :
    Source.Whole (Statement.objectLine o.name o.image) := by
  have hpiece : Source.Piece (Statement.objectLine o.name o.image) :=
    Statement.piece_addObject.append
      (piece_itemArgs ho.name.noReturn fun i hi => (ho.image i hi).noReturn)
  have hlast : (Statement.objectLine o.name o.image).getLast? = some '\'' := by
    unfold Statement.objectLine
    rw [List.getLast?_append, getLast?_itemArgs]
    rfl
  refine hpiece.whole ?_ ?_
  · rintro c ⟨⟩
    rfl
  · rw [hlast]
    rintro c ⟨⟩
    decide

/-- So can the lines of an action: its header, its code and the end of its block. -/
theorem whole_actionLines {a : Action} (ha : a.Legible) : ∀ l ∈ actionLines a, Source.Whole l := by
  have hpiece := Statement.piece_actionHeader ha.description.noReturn ha.noReturn
  have hlast : (Statement.actionHeader a.description a.image).getLast? = some ':' := by
    unfold Statement.actionHeader
    exact List.getLast?_concat
  have hfirst : ∀ c ∈ (Statement.actionHeader a.description a.image).head?, Text.isBlank c = false := by
    rintro c ⟨⟩
    rfl
  have hheader : Source.Whole (Statement.actionHeader a.description a.image) := by
    refine hpiece.whole hfirst ?_
    rw [hlast]
    rintro c ⟨⟩
    decide
  have hend : Source.Whole "END".toList := by
    refine Source.Piece.whole (.of_notMem (by decide) (by decide) (by decide) (by decide)) ?_ ?_
    · rintro c ⟨⟩
      rfl
    · rintro c ⟨⟩
      decide
  have hcode : ∀ t ∈ a.code.map (·.text), Source.Whole t := by
    intro t ht
    obtain ⟨l, hl, rfl⟩ := List.mem_map.mp ht
    exact ha.code l hl
  have hblock : ∀ l ∈ [Statement.actionHeader a.description a.image, "END".toList], Source.Whole l :=
    List.forall_mem_cons.mpr ⟨hheader, List.forall_mem_singleton.mpr hend⟩
  unfold actionLines
  dsimp only
  split
  · exact hblock
  · next text htexts =>
    split
    · exact hblock
    · next hne =>
      rw [htexts] at hcode
      have htext := hpiece.append_whole hfirst (by rw [hlast]; rintro c ⟨⟩; decide) nofun
        (hcode text List.mem_cons_self) hne
      simpa using htext
  · intro l hl
    rcases List.mem_cons.mp hl with rfl | hl
    · exact hheader
    · rcases List.mem_append.mp hl with hl | hl
      · exact hcode l hl
      · rw [List.mem_singleton.mp hl]
        exact hend

end Screen

end QuestScript
