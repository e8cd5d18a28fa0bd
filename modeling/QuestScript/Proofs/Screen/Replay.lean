import QuestScript.Proofs.Screen.Written

/-!
# Running what is written

One lemma for each kind of line that the code of a screen has: a line that adds an object, a header with
its block or with its code behind it, the `END` of a block and the empty line at the end.
-/

namespace QuestScript

open Text (byteSize)

namespace Scene

/-- The scene with one more object. -/
def addObject (s : Scene) (o : Object) : Scene :=
  { s with
    screen := { s.screen with
      selectedObject := Screen.unselectFrom s.screen.objects.length s.screen.selectedObject
      objects := s.screen.objects ++ [o]
      changes.objects := true } }

/-- The scene with one more action. -/
def addAction (s : Scene) (a : Action) : Scene :=
  { s with screen := { s.screen with actions := s.screen.actions ++ [a], changes.actions := true } }

/-- An action can be added: there is room, and no other has its description. -/
structure Admits (s : Scene) (a : Action) : Prop where
  new : s.screen.actionIndex? a.description = none
  room : s.screen.actions.length < Screen.maxActions

end Scene

namespace Machine

open Run

variable {s s' s'' : Scene} {n : Nat} {lines : List Line} {i stop : Nat}

/-! ## Objects -/

theorem textArg?_itemValues {name : String} {image : Option String} (h : image ≠ some "") :
    textArg? (itemValues name image) 1 = image := by
  cases image with
  | none => rfl
  | some i =>
    have hne : i.isEmpty = false := by
      cases hi : i.isEmpty with
      | false => rfl
      | true =>
        rw [String.isEmpty_iff] at hi
        exact absurd (by rw [hi]) h
    show Option.filter (fun x => !x.isEmpty) (some i) = some i
    simp [hne]

theorem addObject_end {s : Screen} {o : Object} (h : s.objects.length < Screen.maxObjects) :
    s.addObject o none = .ok (some { s with
      selectedObject := Screen.unselectFrom s.objects.length s.selectedObject
      objects := s.objects ++ [o]
      changes.objects := true }) := by
  unfold Screen.addObject
  rw [if_neg (by simp), if_neg (by omega)]
  simp

theorem plays_addObject (c : Calls) {o : Object} (himage : o.image ≠ some "")
    (hroom : s.screen.objects.length < Screen.maxObjects) (hhooks : NoHandlers s.vars "ONOBJADD") :
    (Machine.addObject c (itemValues o.name o.image) none).Plays s () (s.addObject o) := by
  rintro m rfl
  have hobject : (⟨textArg (itemValues o.name o.image) 0, textArg? (itemValues o.name o.image) 1⟩ : Object)
      = o := by
    rw [textArg?_itemValues himage]
    rfl
  have hroom' : m.screen.objects.length < Screen.maxObjects := hroom
  unfold Machine.addObject
  rw [hobject, addObject_end hroom']
  have hhooks' : NoHandlers (m.scene.addObject o).vars "ONOBJADD" := hhooks
  exact plays_runHooks c "ONOBJADD" _ hhooks' _ rfl

theorem act_addObject (c : Calls) {args : List Value} (h : numberArg? args 2 = none) :
    act c .addObject args = Machine.addObject c args none := by
  unfold act
  dsimp only
  rw [h]

/-- A line that is no header and no branch of a conditional runs its statements. -/
theorem plays_plainLine {line : Line} (hmulti : line.isMultiline = false)
    (helseIf : line.kind ≠ .elseIf) (helse : line.kind ≠ .otherwise)
    (h : (statementsFrom (Calls.ofFuel n) line line.statements.length 0 line.statements).Plays s .next s') :
    (runLine (Calls.ofFuel (n + 1)) lines i stop line).Plays s (.line (i + 1)) s' := by
  have hstatements :
      ((Calls.ofFuel (n + 1)).statements line 0 line.statements.length).Plays s .next s' := by
    show (runStatements (Calls.ofFuel n) line 0 _).Plays s .next s'
    rw [runStatements, Nat.min_self, List.take_length]
    exact h
  rw [runLine, hmulti, if_neg Bool.false_ne_true]
  unfold runSingle
  split
  · next hkind _ => exact absurd hkind helseIf
  · next hkind => exact absurd hkind helse
  · exact hstatements.bind (plays_pure _)

/-- **A line that adds an object.** -/
theorem plays_objectLine {o : Object} (ho : o.Legible) (himage : o.image ≠ some "")
    (hroom : s.screen.objects.length < Screen.maxObjects) (hhooks : NoHandlers s.vars "ONOBJADD")
    {line : Line} (htext : line.text = Statement.objectLine o.name o.image) (hscanned : line.Scanned) :
    (runLine (Calls.ofFuel (n + 2)) lines i stop line).Plays s (.line (i + 1)) (s.addObject o) := by
  have hstatements := hscanned.statements
  rw [htext, Statement.scan_objectLine ho.name.noReturn] at hstatements
  have hmulti : line.isMultiline = false := by
    rw [hscanned.isMultiline, hstatements]
    rfl
  have hkind : line.kind = .addObject := by
    rw [Line.kind, hstatements]
    rfl
  unfold Statement.objectLine at htext
  rw [← List.append_nil (Screen.itemArgs o.name o.image).toList] at htext
  have hargs : (statementArgs (Calls.ofFuel (n + 1)) line (Statement.object o.name o.image)).Plays s
      (itemValues o.name o.image) s := plays_itemArgs n ho.name ho.image htext (.inl rfl) rfl rfl
  have hposition : numberArg? (itemValues o.name o.image) 2 = none := by
    cases o.image <;> rfl
  have hsimple : (runSimple (Calls.ofFuel (n + 1)) line (Statement.object o.name o.image)).Plays s .next
      (s.addObject o) := by
    refine hargs.bind ?_
    show (act _ .addObject _ >>= _).Plays _ _ _
    rw [act_addObject _ hposition]
    exact (plays_addObject _ himage hroom hhooks).bind (plays_pure _)
  refine plays_plainLine hmulti (by rw [hkind]; nofun) (by rw [hkind]; nofun) ?_
  rw [hstatements]
  exact hsimple.bind (plays_pure _)

/-! ## Actions -/

variable {a : Action} {line : Line}

theorem plays_addAction {c : Calls} {stmt : Statement}
    (hargs : (statementArgs c line stmt).Plays s (itemValues a.description a.image) s) (ha : a.Legible)
    (hs : s.Admits a) (code : List Line) :
    (Machine.addAction c line stmt code).Plays s () (s.addAction { a with code, location := s.location }) := by
  have himage : a.image ≠ some "" := fun h => (ha.image "" h).1 rfl
  have hlocation : (Run.read (·.site.location)).Plays s s.location s :=
    plays_read (by rintro m rfl; rfl)
  have hadd : (Run.addAction { a with code, location := s.location }).Plays s ()
      (s.addAction { a with code, location := s.location }) := by
    rintro m rfl
    have hscreen : m.screen.addAction { a with code, location := m.scene.location }
        = .ok (m.scene.addAction { a with code, location := m.scene.location }).screen := by
      have hnew : m.screen.actionIndex? a.description = none := hs.new
      have hroom : ¬ Screen.maxActions ≤ m.screen.actions.length := Nat.not_le.mpr hs.room
      unfold Screen.addAction
      rw [hnew, Option.isSome_none, if_neg Bool.false_ne_true, if_neg hroom]
      rfl
    unfold Run.addAction
    rw [hscreen]
    exact ⟨_, rfl, rfl⟩
  refine hargs.bind (hlocation.bind ?_)
  rw [textArg?_itemValues himage]
  exact hadd

/-- The arguments of a written action, whatever follows its header. -/
theorem plays_actionArgs (n : Nat) (ha : a.Legible) {code : List Char}
    (htext : line.text = Statement.actionHeader a.description a.image ++ code) :
    (statementArgs (Calls.ofFuel (n + 1)) line (Statement.action a.description a.image)).Plays s
      (itemValues a.description a.image) s := by
  rw [Statement.actionHeader_append, List.append_assoc] at htext
  exact plays_itemArgs n ha.description (fun i hi => (ha.image i hi).2) htext (.inr rfl) rfl rfl

/-- **A header and its block.** -/
theorem plays_headerLine (ha : a.Legible) (hs : s.Admits a)
    (htext : line.text = Statement.actionHeader a.description a.image) (hscanned : line.Scanned) {e : Nat}
    (hend : Block.end? lines (i + 1) stop = some e) :
    (runLine (Calls.ofFuel (n + 1)) lines i stop line).Plays s (.line e)
      (s.addAction { a with code := Block.range lines (i + 1) e, location := s.location }) := by
  have hstatements := hscanned.statements
  rw [htext, Statement.scan_actionHeader ha.description.noReturn ha.noReturn] at hstatements
  have hcolon : (Statement.actionHeader a.description a.image).getLast? = some ':' := by
    unfold Statement.actionHeader
    exact List.getLast?_concat
  have hmulti : line.isMultiline = true := by
    rw [hscanned.isMultiline, hstatements, htext, Line.isHeader, hcolon]
    rfl
  have hkind : line.kind = .act := by
    rw [Line.kind, hstatements]
    rfl
  have hblock : (blockEnd lines i stop).Plays s e s := by
    rw [blockEnd, hend]
    exact plays_pure e
  rw [← List.append_nil (Statement.actionHeader a.description a.image)] at htext
  rw [runLine, hmulti, if_pos rfl]
  refine hblock.bind ?_
  simp only [hkind, hstatements]
  exact (plays_addAction (plays_actionArgs n ha htext) ha hs _).bind (plays_pure _)

/-- The `END` of a block does nothing. -/
theorem plays_endLine (htext : line.text = "END".toList) (hscanned : line.Scanned) :
    (runLine (Calls.ofFuel (n + 1)) lines i stop line).Plays s (.line (i + 1)) s := by
  have hstatements := hscanned.statements
  have hmulti := hscanned.isMultiline
  have hscan : Statement.scan "END".toList = [⟨.endBlock, 3, 3, [], none⟩] := by
    decide +kernel
  rw [htext, hscan] at hstatements
  rw [htext, hstatements] at hmulti
  have hkind : line.kind = .endBlock := by rw [Line.kind, hstatements]
  refine plays_plainLine hmulti (by rw [hkind]; nofun) (by rw [hkind]; nofun) ?_
  rw [hstatements]
  exact (plays_pure Flow.next).bind (plays_pure _)

/-- The code behind a header is all that stands there. -/
theorem inlineCode_eq {description : String} {image : Option String} {code : List Char}
    (htrim : Text.trim code = code) (htext : line.text = Statement.actionHeader description image ++ code)
    {last : Statement}
    (hlast : last.stop = (Statement.action description image).stop + 1 + byteSize code ∨
      ∃ as, code = as ++ [':'] ∧ last.stop = (Statement.action description image).stop + 1 + byteSize as) :
    inlineCode line (Statement.action description image) last = code := by
  have hsize : byteSize (Statement.actionHeader description image)
      = (Statement.action description image).stop + 1 := by
    have h := Statement.byteSize_actionHeader_append description image []
    rwa [List.append_nil, Text.byteSize_nil, Nat.add_zero] at h
  -- with the colon that may end it, the last statement reaches the end of the line
  have hstop : (if line.hasColon last then last.stop + 1 else last.stop)
      = byteSize (Statement.actionHeader description image) + byteSize code := by
    rcases hlast with hlast | ⟨as, hcode, hlast⟩
    · have hend : line.hasColon last = false := by
        have hnone := Text.charAt?_append (Statement.actionHeader description image ++ code) []
        rw [List.append_nil, Text.byteSize_append, hsize] at hnone
        rw [Line.hasColon, htext, hlast, hnone]
        rfl
      rw [hend, hlast, hsize]
      rfl
    · have hcolon : line.hasColon last = true := by
        have hsome := Text.charAt?_append (Statement.actionHeader description image ++ as) [':']
        rw [List.append_assoc, ← hcode, Text.byteSize_append, hsize] at hsome
        rw [Line.hasColon, htext, hlast, hsome]
        rfl
      rw [hcolon, if_pos rfl, hlast, hsize, hcode, Text.byteSize_append]
      rfl
  have hslice := Text.slice?_append (Statement.actionHeader description image) code []
  rw [List.append_nil] at hslice
  rw [inlineCode, hstop, htext, ← hsize, hslice]
  exact htrim

/-- **An action with its code on the line of its header.** -/
theorem plays_inlineLine (ha : a.Legible) (hs : s.Admits a) {code : List Char} (hcode : code ≠ [])
    (htrim : Text.trim code = code)
    (htext : line.text = Statement.actionHeader a.description a.image ++ code) (hscanned : line.Scanned) :
    (runLine (Calls.ofFuel (n + 2)) lines i stop line).Plays s (.line (i + 1))
      (s.addAction { a with code := [Line.scan code line.number], location := s.location }) := by
  have hstatements := hscanned.statements
  obtain ⟨init, last, hscan, hlast⟩ :=
    Statement.stop_last_scanFrom ((Statement.action a.description a.image).stop + 1) code
  rw [htext, Statement.scan_inlineAction ha.description.noReturn ha.noReturn hcode
    (Text.trim_eq_self_iff.mp htrim).1, hscan] at hstatements
  have hmulti : line.isMultiline = false := by
    rw [hscanned.isMultiline, hstatements]
    cases init <;> rfl
  have hkind : line.kind = .act := by
    rw [Line.kind, hstatements]
    rfl
  have hcolon : (requireColon line (Statement.action a.description a.image)).Plays s () s := by
    have hat : line.hasColon (Statement.action a.description a.image) = true := by
      rw [Line.hasColon, htext, Statement.actionHeader_append, Statement.action, Text.charAt?_append]
      rfl
    rw [requireColon, hat]
    exact plays_pure ()
  have hinline : (inlineAction (Calls.ofFuel (n + 1)) line 0 line.statements.length
      (Statement.action a.description a.image)).Plays s ()
      (s.addAction { a with code := [Line.scan code line.number], location := s.location }) := by
    have hfinal : line.statements[line.statements.length - 1]? = some last := by
      rw [← List.getLast?_eq_getElem?, hstatements, ← List.cons_append, List.getLast?_concat]
    have hlong : ¬ line.statements.length ≤ 0 + 1 := by
      rw [hstatements, List.length_cons, List.length_append, List.length_singleton]
      omega
    refine hcolon.bind ?_
    rw [if_neg hlong, hfinal]
    show (Machine.addAction _ line _ [Line.scan (inlineCode line _ last) line.number]).Plays _ _ _
    rw [inlineCode_eq htrim htext hlast]
    exact plays_addAction (plays_actionArgs n ha htext) ha hs _
  refine plays_plainLine hmulti (by simp [hkind]) (by simp [hkind]) ?_
  rw [hstatements] at hinline ⊢
  exact hinline.bind (plays_pure _)

/-- The empty line with which written code ends does nothing. -/
theorem plays_blankLine (htext : line.text = []) (hscanned : line.Scanned) :
    (runLine (Calls.ofFuel (n + 1)) lines i stop line).Plays s (.line (i + 1)) s := by
  have hscan : Statement.scan [] = [⟨.unknown, 0, 0, [], none⟩] := by decide +kernel
  have hblank : line.isBlank = true := by
    rw [Line.isBlank, hscanned.isMultiline, hscanned.statements, htext, hscan]
    rfl
  rw [runLine_of_isBlank hblank]
  exact plays_pure _

end Machine

end QuestScript
