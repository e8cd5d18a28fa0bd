import Mathlib.Data.List.Forall2
import QuestScript.Proofs.Screen.Replay
import QuestScript.Proofs.Screen.Tidy

/-!
# Screens that are written and rebuilt

A script can read the actions and objects of the screen as code, keep the code and run it later. The lines
of that code are read as they were written, each of them adds its item, and so the run takes the scene
through the items in their order (`plays_objects`, `plays_actions`). The limits of the lists never stand
in the way, because the screen that was written is tidy.

`rebuild_screen` says so of all engines, for items that are legible. A name that opens an expression is
not: its literal is taken for a text with a value to be put in (`rebuild_screen_fails`).
-/

namespace QuestScript

/-- An action comes back: the numbers of its lines and the location that added it may be others, and an
empty line that was all of its code may be gone. -/
structure Action.Rebuilt (a b : Action) : Prop where
  description : b.description = a.description
  image : b.image = a.image
  code : b.code.map (·.text) = a.code.map (·.text) ∨ a.code.map (·.text) = [[]] ∧ b.code = []

/-! ## Line after line -/

namespace Machine

open Run

variable {c : Calls} {s s' s'' : Scene} {n k i : Nat} {lines : List Line} {line : Line}

theorem plays_linesFrom_line {start stop next : Nat} {top : Bool} {flow : Flow} (hi : i < stop)
    (hline : lines[i]? = some line) (h : (runLine c lines i stop line).Plays s (.line next) s')
    (hrest : (linesFrom c lines start stop top k next).Plays s' flow s'') :
    (linesFrom c lines start stop top (k + 1) i).Plays s flow s'' := by
  have hnoted : (Run.modify fun m => { m with site.line := line.number }).Plays s () s :=
    fun m hm => ⟨_, rfl, hm⟩
  rw [linesFrom_succ, if_neg (Nat.not_le.mpr hi), hline]
  exact hnoted.bind (h.marked.bind hrest)

theorem plays_linesFrom_end {start stop : Nat} {top : Bool} (hi : stop ≤ i) :
    (linesFrom c lines start stop top (k + 1) i).Plays s .next s := by
  rw [linesFrom_succ, if_pos hi]
  exact plays_pure _

/-- The line at which the rest of the lines starts. -/
theorem exists_line {text : List Char} {texts : List (List Char)}
    (h : (lines.drop i).map (·.text) = text :: texts) :
    i < lines.length ∧ ∃ line ∈ lines, lines[i]? = some line ∧ line.text = text ∧
      (lines.drop (i + 1)).map (·.text) = texts := by
  obtain ⟨line, rest, hdrop, htext, hrest⟩ := List.map_eq_cons_iff.mp h
  have hi : i < lines.length := by
    rw [← List.drop_eq_nil_iff.not.trans Nat.not_le, hdrop]
    exact List.cons_ne_nil _ _
  rw [List.drop_eq_getElem_cons hi] at hdrop
  obtain ⟨rfl, rfl⟩ := List.cons.inj hdrop
  exact ⟨hi, lines[i], List.getElem_mem hi, List.getElem?_eq_getElem hi, htext, hrest⟩

/-- Where only the empty line is left. -/
theorem plays_last (hlines : (lines.drop i).map (·.text) = [[]]) (hscanned : ∀ l ∈ lines, l.Scanned) :
    (linesFrom (Calls.ofFuel (n + 1)) lines 0 lines.length true (k + 2) i).Plays s .next s := by
  obtain ⟨hi, line, hmem, hline, htext, hrest⟩ := exists_line hlines
  have hend : lines.length ≤ i + 1 := by
    rw [← List.drop_eq_nil_iff, ← List.map_eq_nil_iff, hrest]
  exact plays_linesFrom_line hi hline (plays_blankLine htext (hscanned line hmem)) (plays_linesFrom_end hend)

/-! ### Objects -/

theorem objects_foldl (os : List Object) (s : Scene) :
    (os.foldl Scene.addObject s).screen.objects = s.screen.objects ++ os := by
  induction os generalizing s with
  | nil => simp
  | cons o os ih => rw [List.foldl_cons, ih]; simp [Scene.addObject]

/-- **The objects that are written are added in their order.** -/
theorem plays_objects {os : List Object}
    (hlegible : ∀ o ∈ os, o.Legible) (himage : ∀ o ∈ os, o.image ≠ some "")
    (hlines : (lines.drop i).map (·.text)
      = os.map (fun o => Statement.objectLine o.name o.image) ++ [[]])
    (hscanned : ∀ l ∈ lines, l.Scanned)
    (hroom : s.screen.objects.length + os.length ≤ Screen.maxObjects)
    (hhooks : NoHandlers s.vars "ONOBJADD") (hk : os.length + 2 ≤ k) :
    (linesFrom (Calls.ofFuel (n + 2)) lines 0 lines.length true k i).Plays s .next
      (os.foldl Scene.addObject s) := by
  induction os generalizing i s k with
  | nil =>
    obtain ⟨k, rfl⟩ := Nat.exists_eq_add_of_le' hk
    exact plays_last hlines hscanned
  | cons o os ih =>
    rw [List.length_cons] at hk hroom
    obtain ⟨k, rfl⟩ : ∃ j, k = j + 1 := ⟨k - 1, by omega⟩
    obtain ⟨hi, line, hmem, hline, htext, hrest⟩ := exists_line hlines
    have ho := hlegible o List.mem_cons_self
    have hadd : (runLine (Calls.ofFuel (n + 2)) lines i lines.length line).Plays s (.line (i + 1))
        (s.addObject o) :=
      plays_objectLine ho (himage o List.mem_cons_self) (by omega) hhooks htext (hscanned line hmem)
    refine plays_linesFrom_line hi hline hadd ?_
    refine ih (fun o ho => hlegible o (List.mem_cons_of_mem _ ho))
      (fun o ho => himage o (List.mem_cons_of_mem _ ho)) hrest ?_ hhooks (by omega)
    rw [Scene.addObject]
    simp only [List.length_append, List.length_singleton]
    omega

/-! ### Actions -/

theorem actions_foldl (as : List Action) (s : Scene) :
    (as.foldl Scene.addAction s).screen.actions = s.screen.actions ++ as := by
  induction as generalizing s with
  | nil => simp
  | cons a as ih => rw [List.foldl_cons, ih]; simp [Scene.addAction]

/-- **A written block is read back**: the header finds its `END`, and its code is what stands between. -/
theorem end?_block {header : List Char} {body rest : List (List Char)}
    (hlines : (lines.drop i).map (·.text) = header :: (body ++ "END".toList :: rest))
    (hscanned : ∀ l ∈ lines, l.Scanned)
    (hclosed : Block.Closed (body.map fun text => Block.role (Line.scan text 0))) :
    Block.end? lines (i + 1) lines.length = some (i + 1 + body.length) ∧
      (Block.range lines (i + 1) (i + 1 + body.length)).map (·.text) = body ∧
      (lines.drop (i + 1 + body.length)).map (·.text) = "END".toList :: rest := by
  obtain ⟨-, -, -, -, -, htail⟩ := exists_line hlines
  obtain ⟨inner, after, hdrop, rfl, hafter⟩ := List.map_eq_append_iff.mp htail
  obtain ⟨e, after, rfl, he, hrest⟩ := List.map_eq_cons_iff.mp hafter
  have hsub : ∀ l ∈ inner ++ e :: after, l.Scanned := by
    intro l hl
    rw [← hdrop] at hl
    exact hscanned l (List.mem_of_mem_drop hl)
  have hroles : inner.map Block.role
      = (inner.map (·.text)).map fun text => Block.role (Line.scan text 0) := by
    rw [List.map_map]
    exact List.map_congr_left fun l hl => (hsub l (List.mem_append_left _ hl)).role 0
  have hclosing : Block.role e = .closing := by
    rw [(hsub e (by simp)).role 0, he]
    decide +kernel
  rw [List.length_map]
  refine ⟨?_, ?_, ?_⟩
  · rw [Block.end?, Block.range, List.take_length, hdrop, Block.endFrom?_of_closed hclosed hroles,
      Block.endFrom?.eq_def]
    simp only [hclosing]
  · rw [Block.range, Nat.add_comm (i + 1), List.drop_take, hdrop, Nat.add_sub_cancel, List.take_left]
  · rw [← List.drop_drop, hdrop, List.drop_left, List.map_cons, he, hrest]

/-- Running from line `i` in the scene `s` takes `t` turns to be at line `j` in the scene `s'`. -/
def Leads (n : Nat) (lines : List Line) (i : Nat) (s : Scene) (t j : Nat) (s' : Scene) : Prop :=
  ∀ k s'', (linesFrom (Calls.ofFuel (n + 2)) lines 0 lines.length true k j).Plays s' .next s'' →
    (linesFrom (Calls.ofFuel (n + 2)) lines 0 lines.length true (k + t) i).Plays s .next s''

variable {a : Action} {rest : List (List Char)}

theorem leads_block (ha : a.Legible) (hs : s.Admits a) (body : List (List Char))
    (hlines : (lines.drop i).map (·.text)
      = Statement.actionHeader a.description a.image :: (body ++ "END".toList :: rest))
    (hscanned : ∀ l ∈ lines, l.Scanned)
    (hclosed : Block.Closed (body.map fun text => Block.role (Line.scan text 0))) :
    ∃ code j, code.map (·.text) = body ∧ (lines.drop j).map (·.text) = rest ∧
      Leads n lines i s 2 j (s.addAction { a with code, location := s.location }) := by
  obtain ⟨hend, hcode, hafter⟩ := end?_block hlines hscanned hclosed
  obtain ⟨hi, line, hmem, hline, htext, -⟩ := exists_line hlines
  obtain ⟨he, close, hmem', hclose, htext', hrest⟩ := exists_line hafter
  refine ⟨_, _, hcode, hrest, fun k s'' h => ?_⟩
  refine plays_linesFrom_line hi hline (plays_headerLine ha hs htext (hscanned line hmem) hend) ?_
  exact plays_linesFrom_line he hclose (plays_endLine htext' (hscanned close hmem')) h

theorem leads_inline (ha : a.Legible) (hs : s.Admits a) {text : List Char} (hne : text ≠ [])
    (htrim : Text.trim text = text)
    (hlines : (lines.drop i).map (·.text)
      = (Statement.actionHeader a.description a.image ++ text) :: rest)
    (hscanned : ∀ l ∈ lines, l.Scanned) :
    ∃ code j, code.map (·.text) = [text] ∧ (lines.drop j).map (·.text) = rest ∧
      Leads n lines i s 1 j (s.addAction { a with code, location := s.location }) := by
  obtain ⟨hi, line, hmem, hline, htext, hrest⟩ := exists_line hlines
  refine ⟨[Line.scan text line.number], i + 1, rfl, hrest, fun k s'' h => ?_⟩
  exact plays_linesFrom_line hi hline (plays_inlineLine ha hs hne htrim htext (hscanned line hmem)) h

/-- **A written action comes back.** -/
theorem leads_action (ha : a.Legible) (hs : s.Admits a)
    (hlines : (lines.drop i).map (·.text) = Screen.actionLines a ++ rest)
    (hscanned : ∀ l ∈ lines, l.Scanned) :
    ∃ code t j, a.Rebuilt { a with code, location := s.location } ∧ t ≤ 2 ∧
      (lines.drop j).map (·.text) = rest ∧
      Leads n lines i s t j (s.addAction { a with code, location := s.location }) := by
  unfold Screen.actionLines at hlines
  dsimp only at hlines
  split at hlines
  · next hcode =>
    obtain ⟨code, j, htexts, hrest, hleads⟩ := leads_block (n := n) ha hs [] hlines hscanned .nil
    exact ⟨code, 2, j, ⟨rfl, rfl, .inl (htexts.trans hcode.symm)⟩, Nat.le_refl 2, hrest, hleads⟩
  · next text hcode =>
    split at hlines
    · next hempty =>
      obtain ⟨code, j, htexts, hrest, hleads⟩ := leads_block (n := n) ha hs [] hlines hscanned .nil
      refine ⟨code, 2, j, ⟨rfl, rfl, .inr ⟨?_, List.map_eq_nil_iff.mp htexts⟩⟩, Nat.le_refl 2, hrest, hleads⟩
      rw [hcode, hempty]
    · next hne =>
      obtain ⟨l, hl, rfl⟩ := List.mem_map.mp (hcode ▸ List.mem_singleton_self text)
      obtain ⟨code, j, htexts, hrest, hleads⟩ :=
        leads_inline (n := n) ha hs hne (ha.code l hl).trimmed hlines hscanned
      exact ⟨code, 1, j, ⟨rfl, rfl, .inl (htexts.trans hcode.symm)⟩, by omega, hrest, hleads⟩
  · next hnil hone =>
    have hlong : 1 < a.code.length := by
      match hcode : a.code with
      | [] => exact absurd (by rw [hcode]; rfl) hnil
      | [l] => exact absurd (by rw [hcode]; rfl) (hone l.text)
      | _ :: _ :: _ => simp
    have hclosed : Block.Closed ((a.code.map (·.text)).map fun text => Block.role (Line.scan text 0)) := by
      rw [List.map_map]
      exact ha.closed hlong
    rw [List.cons_append, List.append_assoc] at hlines
    obtain ⟨code, j, htexts, hrest, hleads⟩ := leads_block (n := n) ha hs _ hlines hscanned hclosed
    exact ⟨code, 2, j, ⟨rfl, rfl, .inl htexts⟩, Nat.le_refl 2, hrest, hleads⟩

theorem actionIndex?_eq_none {screen : Screen} {description : String}
    (h : ∀ b ∈ screen.actions, Text.sameName b.description description = false) :
    screen.actionIndex? description = none := by
  rw [Screen.actionIndex?, List.findIdx?_eq_none_iff]
  exact h

/-- **The actions that are written are added in their order.** -/
theorem plays_actions {as : List Action} (hlegible : ∀ a ∈ as, a.Legible)
    (hdistinct : as.Pairwise fun a b => Text.sameName a.description b.description = false)
    (hnew : ∀ b ∈ s.screen.actions, ∀ a ∈ as, Text.sameName b.description a.description = false)
    (hlines : (lines.drop i).map (·.text) = as.flatMap Screen.actionLines ++ [[]])
    (hscanned : ∀ l ∈ lines, l.Scanned)
    (hroom : s.screen.actions.length + as.length ≤ Screen.maxActions) (hk : 2 * as.length + 2 ≤ k) :
    ∃ bs, List.Forall₂ Action.Rebuilt as bs ∧
      (linesFrom (Calls.ofFuel (n + 2)) lines 0 lines.length true k i).Plays s .next
        (bs.foldl Scene.addAction s) := by
  induction as generalizing i s k with
  | nil =>
    obtain ⟨k, rfl⟩ := Nat.exists_eq_add_of_le' hk
    exact ⟨[], .nil, plays_last hlines hscanned⟩
  | cons a as ih =>
    rw [List.length_cons] at hk hroom
    rw [List.flatMap_cons, List.append_assoc] at hlines
    obtain ⟨hfirst, hdistinct⟩ := List.pairwise_cons.mp hdistinct
    obtain ⟨ha, hlegible⟩ := List.forall_mem_cons.mp hlegible
    have hs : s.Admits a :=
      ⟨actionIndex?_eq_none fun b hb => hnew b hb a List.mem_cons_self, by omega⟩
    obtain ⟨code, t, j, hrebuilt, ht, hrest, hleads⟩ := leads_action (n := n) ha hs hlines hscanned
    obtain ⟨k, rfl⟩ : ∃ k', k = k' + t := ⟨k - t, by omega⟩
    have hnext : ∀ b ∈ (s.addAction { a with code, location := s.location }).screen.actions,
        ∀ a ∈ as, Text.sameName b.description a.description = false := by
      intro b hb a' ha'
      rcases List.mem_append.mp hb with hb | hb
      · exact hnew b hb a' (List.mem_cons_of_mem _ ha')
      · rw [List.mem_singleton.mp hb]
        exact hfirst a' ha'
    have hlength : (s.addAction { a with code, location := s.location }).screen.actions.length
        = s.screen.actions.length + 1 := by
      rw [Scene.addAction, List.length_append, List.length_singleton]
    have hturns : 2 * as.length + 2 ≤ k := by omega
    obtain ⟨bs, hbs, hplays⟩ := ih hlegible hdistinct hnext hrest (by omega) hturns
    exact ⟨_ :: bs, .cons hrebuilt hbs, hleads k _ hplays⟩

end Machine

/-! ## Whole screens -/

namespace Engine

open Machine

theorem exists_fuel : ∃ n, Engine.fuel = n + 3 ∧ 2000 ≤ n := ⟨999999999997, rfl, by decide⟩

/-- Code whose lines play a scene leaves its screen. -/
theorem run_of_plays {n : Nat} (hfuel : Engine.fuel = n + 3) {e : Engine} {code : String} {s : Scene}
    (h : (linesFrom (Calls.ofFuel (n + 2)) (Line.ofSource code.toList) 0
      (Line.ofSource code.toList).length true (n + 1) 0).Plays e.machine.scene .next s) :
    ∃ e', e.run code = (.done (), e') ∧ e'.machine.screen = s.screen := by
  have hlines : (calls.lines (Line.ofSource code.toList) 0 (Line.ofSource code.toList).length true).Plays
      e.machine.scene .next s := by
    have hnext : (Calls.ofFuel (n + 3)).lines = runLines (Calls.ofFuel (n + 2)) := rfl
    rw [calls, hfuel, hnext, runLines, Nat.min_self]
    exact h
  have hbody : (runBody calls (Line.ofSource code.toList)).Plays e.machine.scene () s :=
    hlines.bind (Run.plays_pure ())
  -- the group that is opened and closed around the code concerns the bindings alone
  obtain ⟨m, hm, hscene⟩ := hbody { e.machine with errorSite := none, saves := e.machine.saves.allocate } rfl
  refine ⟨{ e with machine := Run.release e.machine.saves.depth true m }, ?_, ?_⟩
  · unfold Engine.run enter Run.grouped
    dsimp only
    rw [hm]
  · exact congrArg Scene.screen hscene

/-- **Objects that are legible are rebuilt** from their code. -/
theorem run_objectsAsCode {screen : Screen} (hlegible : ∀ o ∈ screen.objects, o.Legible)
    (himage : ∀ o ∈ screen.objects, o.image ≠ some "") (hroom : screen.objects.length ≤ Screen.maxObjects)
    {e : Engine} (hempty : e.machine.screen.objects = []) (hhooks : NoHandlers e.machine.vars "ONOBJADD") :
    ∃ e', e.run screen.objectsAsCode = (.done (), e') ∧ e'.machine.screen.objects = screen.objects := by
  have hwhole : ∀ l ∈ screen.objects.map (fun o => Statement.objectLine o.name o.image),
      Source.Whole l := by
    intro l hl
    obtain ⟨o, ho, rfl⟩ := List.mem_map.mp hl
    exact Screen.whole_objectLine (hlegible o ho)
  have htexts := Source.texts_ofSource hwhole
  rw [← Screen.toList_objectsAsCode] at htexts
  obtain ⟨n, hfuel, hn⟩ := exists_fuel
  have hlength : e.machine.scene.screen.objects.length + screen.objects.length ≤ Screen.maxObjects := by
    rw [Machine.scene, hempty, List.length_nil, Nat.zero_add]
    exact hroom
  have hturns : screen.objects.length + 2 ≤ n + 1 := by
    rw [Screen.maxObjects] at hroom
    omega
  obtain ⟨e', hrun, hscreen⟩ := run_of_plays hfuel (plays_objects hlegible himage htexts
    (fun l hl => Source.scan_of_mem_ofSource hl) hlength hhooks hturns)
  refine ⟨e', hrun, ?_⟩
  rw [hscreen, objects_foldl, Machine.scene, hempty, List.nil_append]

/-- **Actions that are legible are rebuilt** from their code. -/
theorem run_actionsAsCode {screen : Screen} (hlegible : ∀ a ∈ screen.actions, a.Legible)
    (hdistinct : screen.actions.Pairwise fun a b => Text.sameName a.description b.description = false)
    (hroom : screen.actions.length ≤ Screen.maxActions) {e : Engine}
    (hempty : e.machine.screen.actions = []) :
    ∃ e', e.run screen.actionsAsCode = (.done (), e') ∧
      List.Forall₂ Action.Rebuilt screen.actions e'.machine.screen.actions := by
  have hwhole : ∀ l ∈ screen.actions.flatMap Screen.actionLines, Source.Whole l := by
    intro l hl
    obtain ⟨a, ha, hl⟩ := List.mem_flatMap.mp hl
    exact Screen.whole_actionLines (hlegible a ha) l hl
  have htexts := Source.texts_ofSource hwhole
  rw [← Screen.toList_actionsAsCode] at htexts
  obtain ⟨n, hfuel, hn⟩ := exists_fuel
  have hnew : ∀ b ∈ e.machine.scene.screen.actions, ∀ a ∈ screen.actions,
      Text.sameName b.description a.description = false := by
    rw [Machine.scene, hempty]
    nofun
  have hlength : e.machine.scene.screen.actions.length + screen.actions.length ≤ Screen.maxActions := by
    rw [Machine.scene, hempty, List.length_nil, Nat.zero_add]
    exact hroom
  have hturns : 2 * screen.actions.length + 2 ≤ n + 1 := by
    rw [Screen.maxActions] at hroom
    omega
  obtain ⟨bs, hbs, hplays⟩ := plays_actions (n := n) (i := 0) hlegible hdistinct hnew htexts
    (fun l hl => Source.scan_of_mem_ofSource hl) hlength hturns
  obtain ⟨e', hrun, hscreen⟩ := run_of_plays hfuel hplays
  refine ⟨e', hrun, ?_⟩
  rw [hscreen, actions_foldl, Machine.scene, hempty, List.nil_append]
  exact hbs

/-- **The code of a screen rebuilds it.** Whatever an engine has been asked, running the code of its
objects where there are none, and no hooks for them, leaves the same objects, and running the code of its
actions where there are none leaves the same actions, if all of them are legible. -/
theorem rebuild_screen (config : Config) (host : Host) (history : List Request) (e : Engine) :
    let screen := ((new config host).serveAll history).machine.screen
    ((∀ o ∈ screen.objects, o.Legible) → e.machine.screen.objects = [] →
      NoHandlers e.machine.vars "ONOBJADD" →
      ∃ e', e.run screen.objectsAsCode = (.done (), e') ∧
        e'.machine.screen.objects = screen.objects) ∧
    ((∀ a ∈ screen.actions, a.Legible) → e.machine.screen.actions = [] →
      ∃ e', e.run screen.actionsAsCode = (.done (), e') ∧
        List.Forall₂ Action.Rebuilt screen.actions e'.machine.screen.actions) := by
  intro screen
  have htidy : screen.Tidy := serveAll_tidy (new_settled config host) Screen.tidy_empty history
  constructor
  · intro hlegible hempty hhooks
    exact run_objectsAsCode hlegible htidy.images htidy.objectRoom hempty hhooks
  · intro hlegible hempty
    exact run_actionsAsCode hlegible htidy.distinct htidy.actionRoom hempty

theorem noHandlers_new (config : Config) (host : Host) (key : String) :
    NoHandlers (new config host).machine.vars key := by
  intro i slot h
  have hnone : (new config host).machine.vars.slot? key i = none := by
    simp [new, Machine.new, Store.slot?, Store.var]
  rw [hnone] at h
  cases h

/-- An object whose name has a quote in it, an action with a block of code and one with its code on its
line. -/
theorem rebuild_screen_sample :
    let source := "ADDOBJ 'it''s','lamp.png'\nACT 'open','door.png':\nIF X = 1:\nP 'yes'\nEND\nEND\n"
      ++ "ACT 'wait':P 'tick' & X = 2"
    let screen := ((new {} {}).serveAll [.entry (.run source)]).machine.screen
    screen.objects = [⟨"it's", some "lamp.png"⟩] ∧
      (∃ e', (new {} {}).run screen.objectsAsCode = (.done (), e') ∧
        e'.machine.screen.objects = screen.objects) ∧
      screen.actions.map (·.description) = ["open", "wait"] ∧
      ∃ e', (new {} {}).run screen.actionsAsCode = (.done (), e') ∧
        List.Forall₂ Action.Rebuilt screen.actions e'.machine.screen.actions := by
  intro source
  have hrebuild := rebuild_screen {} {} [.entry (.run source)] (new {} {})
  revert hrebuild
  -- what the screen has on it is all that is needed of it
  generalize hscreen : ((new {} {}).serveAll [.entry (.run source)]).machine.screen = screen
  obtain ⟨hobjects, hactions⟩ : screen.objects = [⟨"it's", some "lamp.png"⟩] ∧ screen.actions =
      [⟨"open", some "door.png", [Line.scan "IF X = 1:".toList 3, Line.scan "P 'yes'".toList 4,
        Line.scan "END".toList 5], none⟩, ⟨"wait", none, [Line.scan "P 'tick' & X = 2".toList 7], none⟩] := by
    rw [← hscreen]
    decide +kernel
  rintro ⟨hrebuilt, hagain⟩
  have htext : ∀ x ∈ ["it's", "lamp.png", "open", "door.png", "wait"], Text.Legible x := by decide +kernel
  have hpiece : ∀ x ∈ ["IF X = 1:", "P 'yes'", "END", "P 'tick' & X = 2"],
      ('\r' ∉ x.toList ∧ '\n' ∉ x.toList ∧ Text.Standing.after {} x.toList = {} ∧
        Source.upperFrom {} x.toList = x.toList) ∧ x.toList.head?.all (!Text.isBlank ·) = true ∧
      x.toList.getLast?.all (fun c => decide (Text.isBlank c = false ∧ c ≠ '_')) = true := by
    decide +kernel
  have hwhole : ∀ x ∈ ["IF X = 1:", "P 'yes'", "END", "P 'tick' & X = 2"], Source.Whole x.toList := by
    intro x hx
    obtain ⟨⟨hreturn, hbreak, hclosed, hupper⟩, hfirst, hlast⟩ := hpiece x hx
    refine (Source.Piece.of_notMem hreturn hbreak hclosed hupper).whole ?_ ?_
    · intro c hc
      rw [Option.mem_def.mp hc] at hfirst
      simpa using hfirst
    · intro c hc
      rw [Option.mem_def.mp hc] at hlast
      exact of_decide_eq_true hlast
  have hroles : [Line.scan "IF X = 1:".toList 3, Line.scan "P 'yes'".toList 4,
      Line.scan "END".toList 5].map (fun l => Block.role (Line.scan l.text l.number))
      = [.opening, .plain, .closing] := by
    decide +kernel
  have hlegible : ∀ a ∈ screen.actions, a.Legible := by
    rw [hactions]
    refine List.forall_mem_cons.mpr ⟨⟨htext _ (by decide), ?_, ?_, fun _ => ?_⟩,
      List.forall_mem_singleton.mpr ⟨htext _ (by decide), nofun, ?_, ?_⟩⟩
    · rintro i ⟨⟩
      exact ⟨by decide, htext _ (by decide)⟩
    · intro l hl
      simp only [List.mem_cons, List.not_mem_nil, or_false] at hl
      rcases hl with rfl | rfl | rfl
      · exact hwhole "IF X = 1:" (by decide)
      · exact hwhole "P 'yes'" (by decide)
      · exact hwhole "END" (by decide)
    · rw [hroles]
      exact .block (.line (r := .plain) nofun nofun .nil) .nil
    · exact List.forall_mem_singleton.mpr (hwhole "P 'tick' & X = 2" (by decide))
    · intro hlong
      cases hlong with
      | step h => cases h
  have hcarried : ∀ o ∈ screen.objects, o.Legible := by
    rw [hobjects]
    refine List.forall_mem_singleton.mpr ⟨htext _ (by decide), ?_⟩
    rintro i ⟨⟩
    exact htext _ (by decide)
  refine ⟨hobjects, hrebuilt hcarried rfl (noHandlers_new {} {} _), ?_, hagain hlegible rfl⟩
  rw [hactions]
  rfl

/-- A name that opens an expression: the engine carries an object called `<<`, and the code of its objects
fails where there are none. -/
theorem rebuild_screen_fails :
    let screen := ((new {} {}).serveAll [.entry (.run "ADDOBJ '<' + '<'")]).machine.screen
    screen.objects = [⟨"<<", none⟩] ∧ screen.objectsAsCode = "ADDOBJ '<<'\n" ∧
      (new {} {}).machine.screen.objects = [] ∧ NoHandlers (new {} {}).machine.vars "ONOBJADD" ∧
      ((new {} {}).run screen.objectsAsCode).1 = .failed ⟨⟨.missingBracket, none⟩, { line := 1 }⟩ ∧
      ((new {} {}).run screen.objectsAsCode).2.machine.screen.objects = [] := by
  refine ⟨by decide +kernel, by decide +kernel, rfl, noHandlers_new {} {} _, ?_, ?_⟩
  · decide +kernel
  · decide +kernel

end Engine

end QuestScript
