import QuestScript.Proofs.Frame

/-!
# Calls give the bindings back

A call opens a group, saves `ARGS` and `RESULT` in it, and runs the callee; `LOCAL` at the top level
of the callee saves further variables in the same group. Whatever the callee does in between,
closing the group gives all of them back.

The statement needs the moment at which `LOCAL` is run. `AtLine` and `AtStatement` follow a body,
run as a whole, line by line and statement by statement, without entering the frames of its blocks,
loops and calls; `Localizes` is the moment just before one variable of a `LOCAL` is saved.

The argument: what the group holds stays in it until the callee ends (`frame`), it holds each
variable once, and closing it puts all of them back.
-/

namespace QuestScript

/-! ## Where a body stands -/

/-- Whether a line goes on with the next statement after one of this kind: comments and headers end
it. -/
def StatementKind.goesOn : StatementKind → Bool
  | comment | elseIf | ifThen | act | loop | forTo => false
  | _ => true

/-- Whether the statements of a line are run in the frame of the line itself: it is neither a branch
nor the header of a block. -/
def Line.isPlain (l : Line) : Bool :=
  match l.kind with
  | .elseIf | .otherwise => false
  | .ifThen | .act | .loop | .forTo => !l.isMultiline
  | _ => true

namespace Machine

/-- A body, started in `m` and run as a whole, comes to line `i` in another machine. -/
inductive AtLine (c : Calls) (lines : List Line) (m : Machine) : Nat → Machine → Prop
  | start : AtLine c lines m 0 m
  | next {i j : Nat} {line : Line} {m₁ m₂ : Machine} :
      AtLine c lines m i m₁ → lines[i]? = some line →
      (runLine c lines i lines.length line).marked { m₁ with site.line := line.number }
        = .done (.line j) m₂ →
      AtLine c lines m j m₂
  | jump {i j : Nat} {line : Line} {label : String} {m₁ m₂ : Machine} :
      AtLine c lines m i m₁ → lines[i]? = some line →
      (runLine c lines i lines.length line).marked { m₁ with site.line := line.number }
        = .done (.leave (.jump label)) m₂ →
      Block.label? lines 0 lines.length label = some j →
      AtLine c lines m j m₂

/-- A line, started in `m` at its first statement, comes to statement `k` in another machine. -/
inductive AtStatement (c : Calls) (line : Line) (m : Machine) : Nat → Machine → Prop
  | start : AtStatement c line m 0 m
  | next {k : Nat} {s : Statement} {m₁ m₂ : Machine} :
      AtStatement c line m k m₁ → line.statements[k]? = some s → s.kind.goesOn = true →
      runSimple c line s m₁ = .done .next m₂ →
      AtStatement c line m (k + 1) m₂

/-- A body, run as a whole with the given fuel, comes to save a variable for a `LOCAL` at its own
top level: the value of the `LOCAL` has been computed and the targets before this one have been
saved. -/
inductive Localizes (lines : List Line) (m : Machine) : Nat → String → Machine → Prop
  | intro {n i k : Nat} {line : Line} {s : Statement} {v : Option Value} {target : List Char}
      {before rest : List (List Char)} {name : VarName} {m₁ m₂ m₃ m₄ : Machine} :
      AtLine (Calls.ofFuel (n + 1)) lines m i m₁ →
      lines[i]? = some line → line.isPlain = true →
      AtStatement (Calls.ofFuel n) line { m₁ with site.line := line.number } k m₂ →
      line.statements[k]? = some s → s.kind = .declare →
      declared (Calls.ofFuel n) line s m₂ = .done (before ++ target :: rest, v) m₃ →
      localizeAll before m₃ = .done () m₄ →
      VarName.read (Target.base target) = .ok name →
      Localizes lines m (n + 2) name.key m₄

/-! ## What is left of a run from there -/

theorem linesFrom_next {c : Calls} {lines : List Line} {i j : Nat} {top : Bool} {line : Line}
    {m m₁ : Machine} (n : Nat) (hline : lines[i]? = some line)
    (hstep : (runLine c lines i lines.length line).marked { m with site.line := line.number }
      = .done (.line j) m₁) :
    linesFrom c lines 0 lines.length top (n + 1) i m
      = linesFrom c lines 0 lines.length top n j m₁ := by
  simp only [linesFrom, if_neg (Nat.not_le.mpr (List.getElem?_eq_some_iff.mp hline).1), hline, hstep]

theorem linesFrom_jump {c : Calls} {lines : List Line} {i j : Nat} {top : Bool} {line : Line}
    {label : String} {m m₁ : Machine} (n : Nat) (hline : lines[i]? = some line)
    (hstep : (runLine c lines i lines.length line).marked { m with site.line := line.number }
      = .done (.leave (.jump label)) m₁)
    (hlabel : Block.label? lines 0 lines.length label = some j) :
    linesFrom c lines 0 lines.length top (n + 1) i m
      = linesFrom c lines 0 lines.length top n j m₁ := by
  simp only [linesFrom, if_neg (Nat.not_le.mpr (List.getElem?_eq_some_iff.mp hline).1), hline, hstep,
    hlabel]

/-- A run of lines that comes to a line ends as the run from that line on does. -/
theorem AtLine.rest {c : Calls} {lines : List Line} {m m₁ m' : Machine} {i n : Nat} {top : Bool}
    {flow : Flow} (h : AtLine c lines m i m₁)
    (hr : linesFrom c lines 0 lines.length top n 0 m = .done flow m') :
    ∃ n', linesFrom c lines 0 lines.length top n' i m₁ = .done flow m' := by
  induction h with
  | start => exact ⟨n, hr⟩
  | next _ hline hstep ih =>
    obtain ⟨n', hn⟩ := ih
    cases n' with
    | zero => cases hn
    | succ n' => exact ⟨n', linesFrom_next n' hline hstep ▸ hn⟩
  | jump _ hline hstep hlabel ih =>
    obtain ⟨n', hn⟩ := ih
    cases n' with
    | zero => cases hn
    | succ n' => exact ⟨n', linesFrom_jump n' hline hstep hlabel ▸ hn⟩

/-- A run of lines that gives a result has run the line it stands at, and what it does afterwards
keeps the frames. -/
theorem linesFrom_line {c : Calls} (hc : c.Obey frame) {lines : List Line} {i n : Nat} {top : Bool}
    {line : Line} {m m' : Machine} {flow : Flow} (hline : lines[i]? = some line)
    (h : linesFrom c lines 0 lines.length top n i m = .done flow m') :
    ∃ cursor m₁, runLine c lines i lines.length line { m with site.line := line.number }
      = .done cursor m₁ ∧ frame.ok m₁ m' := by
  cases n with
  | zero => cases h
  | succ n =>
    simp only [linesFrom, if_neg (Nat.not_le.mpr (List.getElem?_eq_some_iff.mp hline).1), hline,
      Run.marked] at h
    cases hr : runLine c lines i lines.length line { m with site.line := line.number } with
    | failed e m₁ => rw [hr] at h; cases h
    | outOfFuel => rw [hr] at h; cases h
    | done cursor m₁ =>
      refine ⟨cursor, m₁, rfl, ?_⟩
      rw [hr] at h
      have hrest : ∀ j, linesFrom c lines 0 lines.length top n j m₁ = .done flow m' →
          frame.ok m₁ m' := fun j hj => (linesFrom_obeys hc lines 0 _ top n j).ok hj
      split at h
      · cases h
      · cases h
      · next hm => cases hm; exact hrest _ h
      · next hm =>
        cases hm
        split at h
        · exact hrest _ h
        · split at h
          · cases h
          · cases h; exact frame.ok_refl _
      · next hm => cases hm; cases h; exact frame.ok_refl _

theorem runSingle_plain {c : Calls} {lines : List Line} {i stop : Nat} {line : Line}
    (hp : line.isPlain = true) :
    runSingle c lines i stop line
      = (do return Cursor.after (i + 1) (← c.statements line 0 line.statements.length)) := by
  unfold runSingle
  dsimp only
  split
  · next hk _ => simp [Line.isPlain, hk] at hp
  · next hk => simp [Line.isPlain, hk] at hp
  · rfl

theorem runHeader_plain {c : Calls} {lines : List Line} {i stop : Nat} {line : Line}
    (hp : line.isPlain = true) (hm : line.isMultiline = true) :
    runHeader c lines i stop line
      = (do let _ ← blockEnd lines i stop
            runSingle c lines i stop line) := by
  unfold runHeader
  -- a header of a block is not plain, so only the last case is left
  refine congrArg (blockEnd lines i stop >>= ·) (funext fun e => ?_)
  split
  · next hk _ => simp [Line.isPlain, hk, hm] at hp
  · next hk _ => simp [Line.isPlain, hk] at hp
  · next hk _ => simp [Line.isPlain, hk, hm] at hp
  · next hk _ => simp [Line.isPlain, hk, hm] at hp
  · next hk _ => simp [Line.isPlain, hk, hm] at hp
  · rfl

/-- The search for the end of a block changes nothing. -/
theorem blockEnd_eq_done {lines : List Line} {i stop e : Nat} {m m' : Machine}
    (h : blockEnd lines i stop m = .done e m') : m' = m := by
  unfold blockEnd at h
  cases he : Block.end? lines (i + 1) stop with
  | some e' => rw [he] at h; cases h; rfl
  | none => rw [he] at h; cases h

/-- A plain line runs its statements from the first on. -/
theorem runLine_plain {c : Calls} {lines : List Line} {i stop : Nat} {line : Line}
    {m m' : Machine} {cursor : Cursor} (hp : line.isPlain = true)
    (h : runLine c lines i stop line m = .done cursor m') :
    ∃ flow, c.statements line 0 line.statements.length m = .done flow m' := by
  have hsingle : runSingle c lines i stop line m = .done cursor m' := by
    unfold runLine at h
    cases hm : line.isMultiline with
    | false => rw [hm] at h; exact h
    | true =>
      rw [hm, if_pos rfl, runHeader_plain hp hm] at h
      obtain ⟨e, m₁, h₁, h₂⟩ := Run.bind_eq_done h
      rw [blockEnd_eq_done h₁] at h₂
      exact h₂
  rw [runSingle_plain hp] at hsingle
  obtain ⟨flow, m₁, h₁, h₂⟩ := Run.bind_eq_done hsingle
  cases h₂
  exact ⟨flow, h₁⟩

theorem statementsFrom_cons {c : Calls} {line : Line} {stop k : Nat} {s : Statement}
    (rest : List Statement) (hs : s.kind.goesOn = true) :
    statementsFrom c line stop k (s :: rest)
      = (do match ← runSimple c line s with
            | .next => statementsFrom c line stop (k + 1) rest
            | flow => pure flow) := by
  rw [statementsFrom]
  split
  all_goals first | rfl | (next hk => rw [hk] at hs; cases hs)

/-- A run of a line that comes to a statement ends as the run from that statement on does. -/
theorem AtStatement.rest {c : Calls} {line : Line} {m m₁ m' : Machine} {k : Nat} {flow : Flow}
    (h : AtStatement c line m k m₁)
    (hr : statementsFrom c line line.statements.length 0 line.statements m = .done flow m') :
    statementsFrom c line line.statements.length k (line.statements.drop k) m₁
      = .done flow m' := by
  induction h with
  | start => exact hr
  | @next k s m₁ m₂ _ hs hk hstep ih =>
    rw [List.drop_eq_getElem_cons (List.getElem?_eq_some_iff.mp hs).1,
      (List.getElem?_eq_some_iff.mp hs).2, statementsFrom_cons _ hk] at ih
    obtain ⟨flow', m₃, h₁, h₂⟩ := Run.bind_eq_done ih
    rw [hstep] at h₁
    cases h₁
    exact h₂

/-! ## The group of a callee -/

theorem runSimple_declare {c : Calls} {line : Line} {s : Statement} (h : s.kind = .declare) :
    runSimple c line s = (do declare c line s; return .next) := by
  unfold runSimple
  rw [h]

theorem localizeAll_append (before rest : List (List Char)) :
    localizeAll (before ++ rest) = (do localizeAll before; localizeAll rest) := by
  induction before with
  | nil => rfl
  | cons target before ih =>
    simp only [List.cons_append, localizeAll, ih, bind_assoc]

/-- What is left of a body when it stands at a plain line: the statements of the line, and then a
run that keeps the frames. -/
theorem AtLine.statements {c : Calls} (hc : c.Obey frame) {lines : List Line} {line : Line}
    {i n : Nat} {top : Bool} {flow : Flow} {m m₁ m' : Machine} (h : AtLine c lines m i m₁)
    (hline : lines[i]? = some line) (hp : line.isPlain = true)
    (hr : linesFrom c lines 0 lines.length top n 0 m = .done flow m') :
    ∃ flow₁ m₂, c.statements line 0 line.statements.length { m₁ with site.line := line.number }
      = .done flow₁ m₂ ∧ frame.ok m₂ m' := by
  obtain ⟨n', hrest⟩ := h.rest hr
  obtain ⟨cursor, m₂, hrun, hok⟩ := linesFrom_line hc hline hrest
  obtain ⟨flow₁, hs⟩ := runLine_plain hp hrun
  exact ⟨flow₁, m₂, hs, hok⟩

/-- What is left of a line when it stands at a `LOCAL`: that statement, and then a run that keeps
the frames. -/
theorem AtStatement.declare {c : Calls} (hc : c.Obey frame) {line : Line} {s : Statement} {k : Nat}
    {flow : Flow} {m m₁ m' : Machine} (h : AtStatement c line m k m₁)
    (hs : line.statements[k]? = some s) (hk : s.kind = .declare)
    (hr : statementsFrom c line line.statements.length 0 line.statements m = .done flow m') :
    ∃ m₂, Machine.declare c line s m₁ = .done () m₂ ∧ frame.ok m₂ m' := by
  have hrest := h.rest hr
  rw [List.drop_eq_getElem_cons (List.getElem?_eq_some_iff.mp hs).1,
    (List.getElem?_eq_some_iff.mp hs).2, statementsFrom_cons _ (by rw [hk]; rfl),
    runSimple_declare hk] at hrest
  obtain ⟨flow₁, m₂, h₁, h₂⟩ := Run.bind_eq_done hrest
  obtain ⟨_, m₃, h₃, h₄⟩ := Run.bind_eq_done h₁
  cases h₄
  exact ⟨m₂, h₃, (statementsFrom_obeys hc line _ _ _).ok h₂⟩

/-- What is left of a `LOCAL` when it comes to one of its targets: that variable is saved, and then
a run that keeps the frames. -/
theorem declare_target {c : Calls} (hc : c.Obey frame) {line : Line} {s : Statement}
    {before rest : List (List Char)} {target : List Char} {v : Option Value} {name : VarName}
    {m m₁ m₂ m' : Machine} (hd : declared c line s m = .done (before ++ target :: rest, v) m₁)
    (hb : localizeAll before m₁ = .done () m₂) (hn : VarName.read (Target.base target) = .ok name)
    (h : Machine.declare c line s m = .done () m') :
    ∃ m₃, Run.localize name.key m₂ = .done () m₃ ∧ frame.ok m₃ m' := by
  obtain ⟨d, m₃, h₁, h₂⟩ := Run.bind_eq_done h
  rw [hd] at h₁
  cases h₁
  obtain ⟨_, m₄, h₃, h₄⟩ := Run.bind_eq_done h₂
  rw [localizeAll_append] at h₃
  obtain ⟨_, m₅, h₅, h₆⟩ := Run.bind_eq_done h₃
  rw [hb] at h₅
  cases h₅
  obtain ⟨name', m₆, h₇, h₈⟩ := Run.bind_eq_done h₆
  rw [show Run.name (Target.base target) = pure name by rw [Run.name, hn]; rfl] at h₇
  cases h₇
  obtain ⟨_, m₇, h₉, h₁₀⟩ := Run.bind_eq_done h₈
  refine ⟨m₇, h₉, frame.ok_trans ((localizeAll_obeys rest).ok h₁₀) ?_⟩
  cases v with
  | some v => exact (assignAll_obeys hc _ _ _).ok h₄
  | none => exact (Run.obeys_pure ()).ok h₄

/-- A variable that is saved is in the innermost group from then on. -/
theorem mem_of_localize {key : String} {m m₁ m' : Machine} {g : SaveGroup} {gs : List SaveGroup}
    (hk : m.saves.holds key = false) (hl : Run.localize key m = .done () m₁)
    (hok : frame.ok m₁ m') (hg : m'.saves = ⟨g :: gs⟩) : (key, m.vars.var key) ∈ g := by
  cases hl
  have hgrows : (m.saves.localize m.vars key).1.Grows ⟨g :: gs⟩ := hg ▸ hok.2.2
  cases hs : m.saves.groups with
  | nil =>
    -- without a group nothing can be saved, and none can appear later
    rw [show m.saves = ⟨[]⟩ from congrArg Saves.mk hs] at hgrows
    cases hgrows
  | cons g₀ gs₀ =>
    have hm : m.saves = ⟨g₀ :: gs₀⟩ := congrArg Saves.mk hs
    rw [hm] at hk hgrows
    rw [Saves.localize_of_not_holds m.vars hk] at hgrows
    cases hgrows with
    | inner _ h => exact h.mem List.mem_cons_self

/-- What a callee saves with a `LOCAL` at its own top level is in its group when it ends. -/
theorem Localizes.mem {lines : List Line} {m m₁ m' : Machine} {n : Nat} {key : String}
    {g : SaveGroup} {gs : List SaveGroup} (h : Localizes lines m n key m₁)
    (hk : m₁.saves.holds key = false) (hr : runBody (Calls.ofFuel n) lines m = .done () m')
    (hg : m'.saves = ⟨g :: gs⟩) : (key, m₁.vars.var key) ∈ g := by
  obtain ⟨flow, m₂, hlines, hpure⟩ := Run.bind_eq_done hr
  cases hpure
  cases h with
  | @intro n i k line s v target before rest name m₃ m₄ m₅ _ hl hline hp hs hst hkind hd hb hn =>
    have hc₁ := Calls.ofFuel_frame (n + 1)
    have hc₀ := Calls.ofFuel_frame n
    replace hlines : runLines (Calls.ofFuel (n + 1)) lines 0 lines.length true m = .done flow m' :=
      hlines
    rw [runLines, Nat.min_self] at hlines
    obtain ⟨flow₁, m₆, hstatements, hok₁⟩ := hl.statements hc₁ hline hp hlines
    replace hstatements : runStatements (Calls.ofFuel n) line 0 line.statements.length
      { m₃ with site.line := line.number } = .done flow₁ m₆ := hstatements
    simp only [runStatements, Nat.min_self, List.take_length, List.drop_zero] at hstatements
    obtain ⟨m₇, hdeclare, hok₂⟩ := hs.declare hc₀ hst hkind hstatements
    obtain ⟨m₈, hlocalize, hok₃⟩ := declare_target hc₀ hd hb hn hdeclare
    exact mem_of_localize hk hlocalize (frame.ok_trans hok₃ (frame.ok_trans hok₂ hok₁)) hg

/-! ## Calls -/

/-- What can be called. -/
inductive Callee where
  | location (name : String) (replace : Bool)
  | code (text : String)

namespace Callee

/-- The body of a call. -/
def body (c : Calls) : Callee → Run Unit
  | location name replace => runLocation c name replace
  | code text => runBody c (Line.ofSource text.toList)

/-- Call a location or a piece of code. -/
def call (c : Calls) (args : List Value) : Callee → Run (Option Slot)
  | location name replace => callLocation c name args replace
  | code text => callCode c text args

/-- The machine in which a call made in `m` binds its arguments. -/
def entered (m : Machine) : Machine :=
  { m with callDepth := m.callDepth + 1, saves := m.saves.allocate }

/-- A callee called in `m` has its arguments bound, and a location its description and its actions
shown, and starts to run the given lines in another machine. -/
inductive Starts (c : Calls) (args : List Value) (m : Machine) :
    Callee → List Line → Machine → Prop
  | location {name : String} {replace : Bool} {l : Location} {m₁ m₂ : Machine} :
      bindArgs args (entered m) = .done () m₁ → m₁.world.find? name = some l →
      introduce c l replace { m₁ with site := { location := some l.name } } = .done () m₂ →
      Starts c args m (.location name replace) l.code m₂
  | code {text : String} {m₁ : Machine} :
      bindArgs args (entered m) = .done () m₁ →
      Starts c args m (.code text) (Line.ofSource text.toList) m₁

end Callee

/-- A call that gives a result has bound the arguments, has run the body, and has closed its
group. -/
theorem calling_eq_done {args : List Value} {body : Run Unit} {m m' : Machine} {r : Option Slot}
    (h : calling args body m = .done r m') :
    ∃ m₁ m₂, bindArgs args (Callee.entered m) = .done () m₁ ∧ body m₁ = .done () m₂ ∧
      m' = { Run.release m.saves.depth true m₂ with callDepth := m₂.callDepth - 1 } := by
  obtain ⟨m₁, h₁, rfl⟩ := Run.nested_eq_done h
  obtain ⟨m₂, h₂, rfl⟩ := Run.grouped_eq_done h₁
  obtain ⟨_, m₃, h₃, h₄⟩ := Run.bind_eq_done h₂
  obtain ⟨_, m₄, h₅, h₆⟩ := Run.bind_eq_done h₄
  cases h₆
  exact ⟨m₃, m₂, h₃, h₅, rfl⟩

/-- Binding the arguments saves `ARGS` and `RESULT`. -/
theorem mem_of_bindArgs {args : List Value} {m m₁ m' : Machine} {g : SaveGroup}
    {gs : List SaveGroup} (h : bindArgs args (Callee.entered m) = .done () m₁)
    (hok : frame.ok m₁ m') (hg : m'.saves = ⟨g :: gs⟩) :
    ("ARGS", m.vars.var "ARGS") ∈ g ∧ ("RESULT", m.vars.var "RESULT") ∈ g := by
  obtain ⟨_, m₂, h₁, h₂⟩ := Run.bind_eq_done h
  obtain ⟨_, m₃, h₃, h₄⟩ := Run.bind_eq_done h₂
  have hok₃ := frame.ok_trans ((putArgs_obeys args 0).ok h₄) hok
  have hok₂ := frame.ok_trans ((Run.obeys_localize "RESULT").ok h₃) hok₃
  have hargs := mem_of_localize (by rfl) h₁ hok₂ hg
  cases h₁
  have hresult : ("RESULT", (m.vars.removeVar "ARGS").var "RESULT") ∈ g :=
    mem_of_localize (by rfl) h₃ hok₃ hg
  rw [Store.var_removeVar, if_neg (by decide)] at hresult
  exact ⟨hargs, hresult⟩

namespace Callee

theorem call_eq (c : Calls) (args : List Value) (callee : Callee) :
    callee.call c args = calling args (callee.body c) := by
  cases callee with
  | location name replace => rfl
  | code text => rfl

theorem body_obeys {D : Discipline} {c : Calls} (hc : c.Obey D) (callee : Callee) :
    (callee.body c).Obeys D := by
  cases callee with
  | location name replace => exact runLocation_obeys hc name replace
  | code text => exact runBody_obeys hc _

/-- The end of the lines a callee starts to run is the end of its body, but for the site. -/
theorem Starts.runBody {c : Calls} {args : List Value} {callee : Callee} {lines : List Line}
    {m m₁ m₂ m' : Machine} (h : callee.Starts c args m lines m₂)
    (hb : bindArgs args (entered m) = .done () m₁) (hr : callee.body c m₁ = .done () m') :
    ∃ m₃, Machine.runBody c lines m₂ = .done () m₃ ∧ m₃.saves = m'.saves := by
  cases h with
  | code hb' =>
    rw [hb] at hb'
    cases hb'
    exact ⟨m', hr, rfl⟩
  | location hb' hf hi =>
    rw [hb] at hb'
    cases hb'
    obtain ⟨l, m₃, h₁, h₂⟩ := Run.bind_eq_done hr
    unfold findLocation at h₁
    rw [hf] at h₁
    cases h₁
    obtain ⟨m₄, h₃, rfl⟩ := Run.atSite_eq_done h₂
    obtain ⟨_, m₅, h₄, h₅⟩ := Run.bind_eq_done h₃
    rw [hi] at h₄
    cases h₄
    exact ⟨m₄, h₅, rfl⟩

end Callee

/-- **A call that gives a result gives the bindings back.** `ARGS` and `RESULT` are what they were
before the call, all items and keys of them, and a variable the callee saved with a `LOCAL` at its
own top level is what it was when it was saved first. -/
theorem call_restores_bindings (n : Nat) (callee : Callee) (args : List Value) {m m' : Machine}
    {r : Option Slot} (h : callee.call (Calls.ofFuel n) args m = .done r m') :
    m'.vars.var "ARGS" = m.vars.var "ARGS" ∧
    m'.vars.var "RESULT" = m.vars.var "RESULT" ∧
    ∀ {lines : List Line} {key : String} {m₁ m₂ : Machine},
      callee.Starts (Calls.ofFuel n) args m lines m₁ → Localizes lines m₁ n key m₂ →
      m₂.saves.holds key = false → m'.vars.var key = m₂.vars.var key := by
  have hc := Calls.ofFuel_frame n
  rw [Callee.call_eq] at h
  obtain ⟨mb, me, hbind, hbody, rfl⟩ := calling_eq_done h
  -- the body has left one group above those of the caller
  have hok : frame.ok (Callee.entered m) me :=
    frame.ok_trans ((bindArgs_obeys args).ok hbind) ((Callee.body_obeys hc callee).ok hbody)
  obtain ⟨g, hg, hgrows⟩ := hok.2.2.of_allocate
  have hvars : (Run.release m.saves.depth true me).vars = Saves.restoreGroup g me.vars := by
    rw [Run.release_of_allocate true hg]
    rfl
  obtain ⟨hargs, hresult⟩ := mem_of_bindArgs hbind ((Callee.body_obeys hc callee).ok hbody) hg
  have hback : ∀ {key : String} {v : Variable}, (key, v) ∈ g →
      (Run.release m.saves.depth true me).vars.var key = v := by
    intro key v hm
    rw [hvars]
    exact Saves.var_restoreGroup_of_mem hgrows hm _
  refine ⟨hback hargs, hback hresult, ?_⟩
  intro lines key m₁ m₂ hstarts hl hk
  obtain ⟨m₃, hrun, hsaves⟩ := hstarts.runBody hbind hbody
  exact hback (hl.mem hk hrun (hsaves.trans hg))

/-- A `LOCAL` without a value only reads its targets. -/
theorem declared_of_targets {c : Calls} {line : Line} {s : Statement} {targets : List (List Char)}
    (he : s.error = none) (hl : s.args.length ≤ 1)
    (ht : (Target.split (line.arg s 0)).toOption = some targets) (m : Machine) :
    declared c line s m = .done (targets, none) m := by
  unfold declared checkScanned
  rw [he, if_pos hl]
  cases hsplit : Target.split (line.arg s 0) with
  | ok targets' => rw [hsplit] at ht; cases ht; rfl
  | error e => rw [hsplit] at ht; cases ht

/-- A machine whose variable `X` is 1. -/
def sample : Machine :=
  let m := Machine.new {} {}
  { m with vars := (m.vars.putRaw "X" 0 (.number 1)).2 }

/-- A callee that saves `X`, and writes to it and to its arguments. -/
theorem call_restores_bindings_sample :
    ∃ r m', (Callee.code "LOCAL X & X = 5 & ARGS = 7").call (Calls.ofFuel 8) [] sample = .done r m' ∧
      m'.vars.var "ARGS" = sample.vars.var "ARGS" ∧ m'.vars.var "X" = sample.vars.var "X" := by
  obtain ⟨r, m', h⟩ := Outcome.exists_of_isDone
    (r := (Callee.code "LOCAL X & X = 5 & ARGS = 7").call (Calls.ofFuel 8) [] sample)
    (by decide +kernel)
  obtain ⟨hargs, -, hlocal⟩ := call_restores_bindings 8 _ [] h
  refine ⟨r, m', h, hargs, ?_⟩
  obtain ⟨m₁, hbind, hfree, hx⟩ : ∃ m₁, bindArgs [] (Callee.entered sample) = .done () m₁ ∧
      m₁.saves.holds "X" = false ∧ m₁.vars.var "X" = sample.vars.var "X" :=
    ⟨_, rfl, by decide +kernel, by decide +kernel⟩
  obtain ⟨line, hline, hplain, s, hs, hkind, he, hlen, htargets⟩ :
      ∃ line ∈ (Line.ofSource "LOCAL X & X = 5 & ARGS = 7".toList)[0]?, line.isPlain = true ∧
        ∃ s ∈ line.statements[0]?, s.kind = .declare ∧ s.error = none ∧ s.args.length ≤ 1 ∧
          (Target.split (line.arg s 0)).toOption = some ([] ++ ['X'] :: []) := by
    decide +kernel
  have hname : VarName.read (Target.base ['X']) = .ok ⟨"X", .number⟩ := by rfl
  have hl := Localizes.intro (n := 6) .start hline hplain .start hs hkind
    (declared_of_targets he hlen htargets { m₁ with site.line := line.number }) rfl hname
  exact (hlocal (.code hbind) hl hfree).trans hx

end Machine

end QuestScript
