import QuestScript.Proofs.Bisection
import QuestScript.Proofs.Expr.Literal
import QuestScript.Proofs.Likeness.Block

/-!
# Evaluations that come to an end

`Run.Ends` says that a run does not run out of fuel when it is started in a given world with a given
number of open calls, and that it gives both back if it gives a result. The first half of this file
has the rules for the ways runs are put together, the second half goes through the evaluator with
them. What an instruction asks of the calls below it is collected in `Calls.Serves`.

In a world without code an evaluation goes deeper in three ways only: into the literals of its
expression, which are shorter; into a location that it calls, with one more call open; and into a
description that it asks for with `DESC`. The induction at the end (`eval_ends`) therefore counts
fuel in blocks: one block for each call that may still be opened, and one more if the expression may
ask for descriptions, in which then nothing else may.
-/

namespace QuestScript

/-- The world, the limit of open calls and the number of them. -/
def Machine.Stands (w : World) (limit depth : Nat) (m : Machine) : Prop :=
  m.world = w ∧ m.config.maxCallDepth = limit ∧ m.callDepth = depth

/-- A run has ended, and if with a result then in a machine with the property `P`. -/
inductive Outcome.Ends {α : Type} (P : Machine → Prop) : Outcome α → Prop
  | done (a : α) {m : Machine} (h : P m) : Ends P (.done a m)
  | failed (e : Error) (m : Machine) : Ends P (.failed e m)

/-- A run that comes to an end has had enough fuel. -/
theorem Outcome.Ends.ne_outOfFuel {α : Type} {P : Machine → Prop} {r : Outcome α} (h : r.Ends P) :
    r ≠ .outOfFuel := by
  rintro rfl
  cases h

/-- A run comes to an end, and gives back the world and the calls it was started with. -/
def Run.Ends {α : Type} (w : World) (limit depth : Nat) (x : Run α) : Prop :=
  ∀ m, m.Stands w limit depth → (x m).Ends (Machine.Stands w limit depth)

variable {w : World} {limit depth : Nat}

/-! ## Putting runs together -/

namespace Run

variable {α β : Type}

theorem ends_pure (a : α) : (pure a : Run α).Ends w limit depth := fun _ h => .done a h

theorem ends_fail (e : Error) : (fail e : Run α).Ends w limit depth := fun m _ => .failed e m

theorem ends_failWith (k : ErrorKind) : (failWith k : Run α).Ends w limit depth := ends_fail _

theorem ends_ofExcept (r : Except Error α) : (ofExcept r).Ends w limit depth := by
  cases r with
  | ok a => exact ends_pure a
  | error e => exact ends_fail e

theorem ends_name (cs : List Char) : (name cs).Ends w limit depth := ends_ofExcept _

theorem ends_read (f : Machine → α) : (read f).Ends w limit depth := fun _ h => .done _ h

/-- The second run starts where the first one has ended, so it has to come to an end from there as well. -/
theorem Ends.bind {x : Run α} {f : α → Run β} (hx : x.Ends w limit depth)
    (hf : ∀ a, (f a).Ends w limit depth) : (x >>= f).Ends w limit depth := by
  intro m h
  show (x.andThen f m).Ends _
  have hr := hx m h
  unfold andThen
  generalize x m = r at hr
  cases hr with
  | done a h => exact hf a _ h
  | failed e m => exact .failed e m

theorem Ends.map {x : Run α} (f : α → β) (hx : x.Ends w limit depth) :
    (f <$> x).Ends w limit depth := hx.bind fun a => ends_pure (f a)

theorem ends_checkMoves (stamp : Nat) : (checkMoves stamp).Ends w limit depth := by
  intro m h
  unfold checkMoves
  split
  · exact .done () h
  · exact .failed _ m

theorem ends_onScreen (f : Screen → Screen) : (onScreen f).Ends w limit depth :=
  fun _ h => .done () h

theorem ends_addAction (a : Action) : (addAction a).Ends w limit depth := by
  intro m h
  unfold addAction
  split
  · exact .done () h
  · exact .failed _ m

/-- A write ends with or without an error, in a world that is the same. -/
theorem ends_onVars (f : Store → Except Error α × Store) : (onVars f).Ends w limit depth := by
  intro m h
  unfold onVars
  split
  · exact .done _ h
  · exact .failed _ _

theorem ends_pattern (source : String) : (pattern source).Ends w limit depth := by
  intro m h
  unfold pattern
  split
  · exact .done _ h
  · exact .failed _ _

theorem ends_random (low high : Number) : (random low high).Ends w limit depth :=
  fun _ h => .done _ h

theorem ends_msecs : msecs.Ends w limit depth := by
  intro m h
  unfold msecs
  split
  · exact .done _ h
  · exact .done _ h

theorem ends_localize (key : String) : (localize key).Ends w limit depth := fun _ h => .done () h

/-- The compiled expression is that of the text, whatever the cache keeps. -/
theorem compiled_eq (source : List Char) (m : Machine) :
    ∃ cache, compiled source m = match compile source with
      | .ok code => .done code { m with expressions := cache }
      | .error e => .failed e.error { m with expressions := cache } := by
  have hfst := m.expressions.get_fst (String.ofList source)
  rw [String.toList_ofList] at hfst
  refine ⟨(m.expressions.get (String.ofList source)).2, ?_⟩
  unfold compiled
  rw [← hfst]
  generalize m.expressions.get (String.ofList source) = r
  obtain ⟨r, cache⟩ := r
  cases r with
  | ok code => rfl
  | error e => rfl

/-- What comes after compiling is asked for only if the text compiles. -/
theorem ends_compiled_bind {source : List Char} {f : Code → Run α}
    (hf : ∀ code, compile source = .ok code → (f code).Ends w limit depth) :
    (compiled source >>= f).Ends w limit depth := by
  intro m h
  obtain ⟨cache, hcompiled⟩ := compiled_eq source m
  show ((compiled source).andThen f m).Ends _
  unfold andThen
  rw [hcompiled]
  cases hcompile : compile source with
  | ok code => exact hf code hcompile _ h
  | error e => exact .failed _ _

/-! ### Frames -/

/-- The place of an error is no matter of where the machine stands. -/
theorem Ends.marked {x : Run α} (hx : x.Ends w limit depth) : x.marked.Ends w limit depth := by
  intro m h
  have hr := hx m h
  unfold Run.marked
  generalize x m = r at hr
  cases hr with
  | done a h => exact .done a h
  | failed e m => exact .failed _ _

/-- Opening and closing a group leaves the world and the depth of the calls alone. -/
theorem Ends.grouped {x : Run α} (hx : x.Ends w limit depth) : x.grouped.Ends w limit depth := by
  intro m h
  have hr := hx { m with saves := m.saves.allocate } h
  unfold Run.grouped
  generalize x { m with saves := m.saves.allocate } = r at hr
  cases hr with
  | done a h => exact .done a h
  | failed e m => exact .failed _ _

theorem Ends.atSite {x : Run α} (site : Site) (hx : x.Ends w limit depth) :
    (atSite site x).Ends w limit depth := by
  intro m h
  have hr := hx { m with site } h
  unfold Run.atSite
  generalize x { m with site } = r at hr
  cases hr with
  | done a h => exact .done a h
  | failed e m => exact .failed _ _

/-- A call ends if its callee does with one more call open, or if no further call is allowed. -/
theorem ends_nested {x : Run α} (hx : depth < limit → x.Ends w limit (depth + 1)) :
    x.nested.Ends w limit depth := by
  rintro m ⟨hw, hlimit, hdepth⟩
  unfold nested
  split
  · exact .failed _ _
  · next hlt =>
    rw [hlimit, hdepth, Nat.not_le] at hlt
    have hr := hx hlt { m with callDepth := m.callDepth + 1 } ⟨hw, hlimit, by rw [hdepth]⟩
    generalize x { m with callDepth := m.callDepth + 1 } = r at hr
    cases hr with
    | failed e m => exact .failed _ _
    | done a h =>
      refine .done a ⟨h.1, h.2.1, ?_⟩
      rw [h.2.2, Nat.add_sub_cancel]

end Run

/-! ## Worlds without code -/

/-- Whether a line does nothing at all. -/
def Line.isBlank (line : Line) : Bool :=
  !line.isMultiline && line.statements.all (·.kind == .unknown)

/-- The texts that a location shows with the values of their expressions. -/
def Location.descriptions (l : Location) : List String :=
  l.description :: l.actions.map (·.description)

namespace World

/-- The locations of a world. -/
def all (w : World) : List Location := w.locations.map (·.2)

/-- No location has code that does anything. -/
def IsBlank (w : World) : Prop := ∀ l ∈ w.all, ∀ line ∈ l.code, line.isBlank = true

/-- An expression in a description has an operation with the property `p`. -/
def Uses (p : Op → Bool) (w : World) : Prop :=
  ∃ l ∈ w.all, ∃ text ∈ l.descriptions, ∃ source ∈ Text.expressions text, QuestScript.Uses p source

instance (w : World) : Decidable w.IsBlank :=
  inferInstanceAs (Decidable (∀ l ∈ w.all, ∀ line ∈ l.code, line.isBlank = true))

instance (p : Op → Bool) (w : World) : Decidable (w.Uses p) :=
  inferInstanceAs (Decidable (∃ l ∈ w.all, ∃ text ∈ l.descriptions,
    ∃ source ∈ Text.expressions text, QuestScript.Uses p source))

/-- The length of the longest description or code of a location. -/
def extent (w : World) : Nat :=
  (w.all.flatMap fun l => l.code.length :: l.descriptions.map String.length).max?.getD 0

/-- A location that is found by its name is one of the world. -/
theorem mem_all_of_find? {name : String} {l : Location} (h : w.find? name = some l) : l ∈ w.all := by
  obtain ⟨entry, hentry, rfl⟩ := Option.map_eq_some_iff.mp h
  exact List.mem_map_of_mem (Bisection.mem_of_find? hentry)

/-- No location has more lines of code than the world is large. -/
theorem length_code_le_extent {l : Location} (hl : l ∈ w.all) : l.code.length ≤ w.extent :=
  List.le_max?_getD_of_mem (List.mem_flatMap.mpr ⟨l, hl, List.mem_cons_self⟩)

/-- No text of a location is longer than the world is large. -/
theorem length_le_extent {l : Location} (hl : l ∈ w.all) {text : String} (ht : text ∈ l.descriptions) :
    text.length ≤ w.extent :=
  List.le_max?_getD_of_mem (List.mem_flatMap.mpr
    ⟨l, hl, List.mem_cons_of_mem _ (List.mem_map_of_mem ht)⟩)

end World

namespace Machine

open Run

variable {c : Calls}

/-! ## Lines that do nothing -/

/-- Statements of no kind are passed by, without a call. -/
theorem statementsFrom_of_unknown {line : Line} {stop : Nat} {statements : List Statement}
    (h : ∀ s ∈ statements, s.kind = .unknown) (index : Nat) :
    statementsFrom c line stop index statements = pure .next := by
  induction statements generalizing index with
  | nil => rfl
  | cons s rest ih =>
    have hs := h s List.mem_cons_self
    have hrest := ih (fun s hs => h s (List.mem_cons_of_mem _ hs)) (index + 1)
    unfold statementsFrom
    simp only [hs, runSimple]
    exact hrest

theorem runStatements_of_isBlank {line : Line} (h : line.isBlank = true) (start stop : Nat) :
    runStatements c line start stop = pure .next := by
  have hall := (Bool.and_eq_true_iff.mp h).2
  refine statementsFrom_of_unknown (fun s hs => ?_) _
  have hmem := List.mem_of_mem_take (List.mem_of_mem_drop hs)
  exact eq_of_beq (List.all_eq_true.mp hall s hmem)

/-- Calls with any fuel at all run such lines. -/
theorem runLine_of_isBlank {n : Nat} {line : Line} (h : line.isBlank = true) (lines : List Line)
    (i stop : Nat) :
    runLine (Calls.ofFuel (n + 1)) lines i stop line = pure (.line (i + 1)) := by
  obtain ⟨hsingle, hall⟩ := Bool.and_eq_true_iff.mp h
  have hkind : line.kind = .unknown := by
    unfold Line.kind
    split
    · next s rest heq =>
      rw [heq] at hall
      exact eq_of_beq (List.all_eq_true.mp hall s List.mem_cons_self)
    · rfl
  have hstatements : (Calls.ofFuel (n + 1)).statements line 0 line.statements.length = pure .next :=
    runStatements_of_isBlank h 0 _
  unfold runLine
  rw [if_neg (by simpa using hsingle)]
  unfold runSingle
  simp only [hkind, hstatements]
  rfl

/-- Every line takes a turn, and the end one more. -/
theorem ends_linesFrom {n : Nat} {lines : List Line} (hblank : ∀ line ∈ lines, line.isBlank = true)
    (start stop : Nat) (top : Bool) {turns i : Nat} (hturns : stop - i < turns) :
    (linesFrom (Calls.ofFuel (n + 1)) lines start stop top turns i).Ends w limit depth := by
  induction turns generalizing i with
  | zero => omega
  | succ turns ih =>
    rw [linesFrom_succ]
    split
    · exact ends_pure _
    · split
      · exact ends_pure _
      · next line hline =>
        rw [runLine_of_isBlank (hblank line (List.mem_of_getElem? hline))]
        -- the line is noted and does nothing, so the next one is run with one turn less
        refine Ends.bind (fun _ h => .done () h) fun _ => ?_
        exact (ih (by omega) : (linesFrom _ lines start stop top turns (i + 1)).Ends w limit depth)

/-- A turn for each line, one for the end, and two units of fuel on the way to them. -/
theorem ends_runBody {n : Nat} {lines : List Line} (hblank : ∀ line ∈ lines, line.isBlank = true)
    (hn : lines.length + 3 ≤ n) : (runBody (Calls.ofFuel n) lines).Ends w limit depth := by
  obtain ⟨n, rfl⟩ : ∃ k, n = k + 2 := ⟨n - 2, by omega⟩
  have hturns : (Calls.ofFuel (n + 1)).turns = n := rfl
  refine Ends.bind ?_ fun _ => ends_pure _
  refine ends_linesFrom hblank 0 _ true ?_
  rw [hturns, Nat.min_self]
  omega

/-! ## Texts with expressions -/

/-- By induction on the parts of a text, for the expressions that stand in it. -/
theorem ends_fill {parts : List Text.Part}
    (h : ∀ source, .code source ∈ parts → (c.eval source).Ends w limit depth) :
    (fill c parts).Ends w limit depth := by
  induction parts with
  | nil => exact ends_pure _
  | cons part rest ih =>
    have hrest := ih fun source hs => h source (List.mem_cons_of_mem _ hs)
    cases part with
    | plain text => exact hrest.bind fun _ => ends_pure _
    | code source =>
      exact (h source List.mem_cons_self).bind fun _ => hrest.bind fun _ => ends_pure _
    | unclosed => exact ends_failWith _

theorem ends_formatText {text : String}
    (h : ∀ source ∈ Text.expressions text, (c.eval source).Ends w limit depth) :
    (formatText c text).Ends w limit depth :=
  ends_fill fun source hs => h source (Text.mem_expressions.mpr hs)

/-! ## Calls -/

/-- A location that is found is one of the world. -/
theorem ends_findLocation_bind {α : Type} {name : String} {f : Location → Run α}
    (hf : ∀ l ∈ w.all, (f l).Ends w limit depth) :
    (findLocation name >>= f).Ends w limit depth := by
  intro m h
  show ((findLocation name).andThen f m).Ends _
  unfold andThen findLocation
  rw [h.1]
  cases hl : w.find? name with
  | some l => exact hf l (World.mem_all_of_find? hl) m h
  | none => exact .failed _ _

theorem ends_putArgs (args : List Value) (i : Nat) : (putArgs i args).Ends w limit depth := by
  induction args generalizing i with
  | nil => exact ends_pure _
  | cons v vs ih => exact (ends_onVars _).bind fun _ => ih (i + 1)

theorem ends_bindArgs (args : List Value) : (bindArgs args).Ends w limit depth :=
  (ends_localize _).bind fun _ => (ends_localize _).bind fun _ => ends_putArgs args 0

/-- The body of a call is run one level deeper, if it is run at all. -/
theorem ends_calling (args : List Value) {body : Run Unit}
    (hb : depth < limit → body.Ends w limit (depth + 1)) :
    (calling args body).Ends w limit depth :=
  ends_nested fun hlt => Ends.grouped
    ((ends_bindArgs args).bind fun _ => (hb hlt).bind fun _ => ends_read _)

/-- Along the actions, whose descriptions are the only texts that are run. -/
theorem ends_showActions (location : String) {actions : List LocationAction}
    (h : ∀ a ∈ actions, (formatText c a.description).Ends w limit depth) :
    (showActions c location actions).Ends w limit depth := by
  induction actions with
  | nil => exact ends_pure _
  | cons a rest ih =>
    refine (h a List.mem_cons_self).marked.bind fun _ => (ends_addAction _).marked.bind fun _ => ?_
    exact ih fun a ha => h a (List.mem_cons_of_mem _ ha)

/-- A location is shown by its description, its actions and its code, which have to come to an end each. -/
theorem ends_showLocation {l : Location} (replace : Bool)
    (hdescriptions : ∀ text ∈ l.descriptions, (formatText c text).Ends w limit depth)
    (hbody : (runBody c l.code).Ends w limit depth) :
    (showLocation c l replace).Ends w limit depth := by
  refine Ends.bind ?_ fun _ => hbody
  refine (hdescriptions _ List.mem_cons_self).marked.bind fun _ => (ends_onScreen _).bind fun _ => ?_
  exact ends_showActions _ fun a ha =>
    hdescriptions _ (List.mem_cons_of_mem _ (List.mem_map_of_mem ha))

/-! ## Instructions -/

/-- What an instruction needs of the calls below it: that the expressions inside its literal end, the
locations if it calls any, and the descriptions if it asks for any. Code is not run. -/
structure Serves (c : Calls) (w : World) (limit depth : Nat) (i : Instruction) : Prop where
  inner : ∀ source ∈ i.inner, (c.eval source).Ends w limit depth
  location : ∀ part, i.op = .func part → ∀ name args, (callLocation c name args false).Ends w limit depth
  description : i.op = .desc → ∀ name, (describe c name).Ends w limit depth
  noCode : ∀ part, i.op ≠ .dynEval part

/-- Only operations that call something need the calls; the others end at once. -/
theorem ends_perform {i : Instruction} (hc : Serves c w limit depth i) (args : List Value) :
    (perform c i.op args).Ends w limit depth := by
  have hlocation := hc.location
  have hdescription := hc.description
  have hnoCode := hc.noCode
  generalize i.op = op at hlocation hdescription hnoCode
  cases op
  case rand => exact (ends_random _ _).map _
  case rnd => exact (ends_random _ _).map _
  case arrComp => exact (ends_name _).bind fun _ => (ends_pattern _).bind fun _ => ends_read _
  case strComp => exact (ends_pattern _).bind fun _ => ends_pure _
  case strFind => exact (ends_pattern _).bind fun _ => ends_pure _
  case strPos => exact (ends_pattern _).bind fun _ => ends_pure _
  case func part => exact (hlocation part rfl _ _).bind fun _ => ends_pure _
  case dynEval part => exact absurd rfl (hnoCode part)
  case desc => exact (hdescription rfl _).map _
  case input => exact fun _ h => .done _ h
  case isPlay => exact fun _ h => .done _ h
  case msecsCount => exact ends_msecs.map _
  -- no other operation is performed
  all_goals exact ends_failWith _

theorem ends_applyOp {i : Instruction} (hc : Serves c w limit depth i) (args : List Value) :
    (applyOp c i.op args).Ends w limit depth := by
  unfold applyOp
  split
  · exact ends_ofExcept _
  · intro m h
    dsimp only
    split
    · exact ends_ofExcept _ m h
    · exact ends_perform hc args m h

theorem ends_stepOp {i : Instruction} (hc : Serves c w limit depth i) (stamp : Nat)
    (stack : List Value) : (stepOp c stamp i stack).Ends w limit depth := by
  unfold stepOp
  split
  · exact ends_fail _
  · refine (ends_ofExcept _).bind fun args => (ends_applyOp hc args).bind fun v => ?_
    split
    · exact (ends_checkMoves stamp).bind fun _ => ends_pure _
    · exact ends_pure _

/-- The text an instruction formats is its literal. -/
theorem ends_format {i : Instruction} (hc : Serves c w limit depth i) (hop : i.op = .format) :
    (formatText c (match i.literal with
      | some (.text s) => s
      | _ => "")).Ends w limit depth := by
  refine ends_formatText fun source hs => hc.inner source ?_
  unfold Instruction.inner
  rw [hop]
  split at hs
  · next hlit => rw [hlit]; exact hs
  · have hempty : Text.expressions "" = [] := by
      simp [Text.expressions, Text.parts, Text.cutAtOpening?, Text.Part.source?]
    rw [hempty] at hs
    cases hs

/-- One case for each instruction, where formats and operations are those that may run code. -/
theorem ends_step {i : Instruction} (hc : Serves c w limit depth i) (stamp : Nat)
    (stack : List Value) : (step c stamp i stack).Ends w limit depth := by
  unfold step
  split
  · exact ends_pure _
  · next hop =>
    exact (ends_format hc hop).bind fun _ => (ends_checkMoves stamp).bind fun _ => ends_pure _
  · split
    · exact (ends_name _).bind fun _ => (ends_read _).bind fun _ => ends_pure _
    · exact ends_fail _
    · exact (ends_name _).bind fun _ => (ends_read _).bind fun _ => ends_pure _
  · exact (ends_name _).bind fun _ => (ends_read _).bind fun _ => ends_pure _
  · exact ends_pure _
  · exact (ends_ofExcept _).bind fun _ => ends_pure _
  · exact (ends_ofExcept _).bind fun _ => ends_pure _
  · exact (ends_ofExcept _).bind fun _ => ends_pure _
  · exact (ends_ofExcept _).bind fun _ => ends_pure _
  · exact (ends_ofExcept _).bind fun _ => ends_pure _
  · exact ends_fail _
  · exact ends_fail _
  · exact ends_fail _
  · exact ends_fail _
  · exact ends_fail _
  · exact (ends_stepOp hc stamp _).bind fun _ => ends_pure _

/-- By induction on the code that is left, for which no jump goes back. -/
theorem ends_runCode {code : List Instruction} (hc : ∀ i ∈ code, Serves c w limit depth i)
    (stamp pc resume : Nat) (stack : List Value) :
    (runCode c stamp pc resume stack code).Ends w limit depth := by
  induction code generalizing pc resume stack with
  | nil =>
    cases stack with
    | nil => exact ends_fail _
    | cons v stack => exact ends_pure v
  | cons i rest ih =>
    have hrest := ih fun i hi => hc i (List.mem_cons_of_mem _ hi)
    unfold runCode
    split
    · exact hrest _ _ _
    · exact (ends_step (hc i List.mem_cons_self) stamp stack).bind fun _ => hrest _ _ _

theorem ends_evalSource {source : List Char}
    (hc : ∀ code, compile source = .ok code → ∀ i ∈ code.toList, Serves c w limit depth i) :
    (evalSource c source).Ends w limit depth :=
  ends_compiled_bind fun code hcode m h => ends_runCode (hc code hcode) m.moves 0 0 [] m h

end Machine

/-! ## The fuel of an evaluation -/

/-- Whether an operation runs a text as code. -/
def Op.runsCode : Op → Bool
  | dynEval _ => true
  | _ => false

/-- Whether an operation asks for a description. -/
def Op.describes : Op → Bool
  | desc => true
  | _ => false

namespace Machine

open Run

section

variable (hblank : w.IsBlank) (hcode : ¬w.Uses Op.runsCode) (hdesc : ¬w.Uses Op.describes)
include hblank hcode hdesc

/-- **Evaluations in a world without code end.** `blocks` are left for calls that may still be
opened, and one of them for descriptions if the expression asks for any. -/
theorem eval_ends {n blocks : Nat} {source : List Char} (hsource : ¬Uses Op.runsCode source)
    (hcalls : limit - depth ≤ blocks) (hasks : Uses Op.describes source → limit - depth < blocks)
    (hn : blocks * (w.extent + 3) + source.length < n) :
    ((Calls.ofFuel n).eval source).Ends w limit depth := by
  induction n generalizing depth blocks source with
  | zero => omega
  | succ n ih =>
    -- a description has a block of its own: nothing in it asks for another one
    have hformat (depth blocks : Nat) (hcalls : limit - depth ≤ blocks)
        (hn : (blocks + 1) * (w.extent + 3) ≤ n) {l : Location} (hl : l ∈ w.all) {text : String}
        (htext : text ∈ l.descriptions) :
        (formatText (Calls.ofFuel n) text).Ends w limit depth := by
      refine ends_formatText fun inner hinner => ?_
      have hlt := Text.length_lt_of_code_mem_parts (Text.mem_expressions.mp hinner)
      have hle := World.length_le_extent hl htext
      rw [String.length_toList] at hlt
      rw [Nat.succ_mul] at hn
      refine ih (fun h => hcode ⟨l, hl, text, htext, inner, hinner, h⟩) hcalls
        (fun h => absurd ⟨l, hl, text, htext, inner, hinner, h⟩ hdesc) (by omega)
    refine ends_evalSource fun code hcompile i hi => ?_
    constructor
    case inner =>
      intro inner hinner
      have hlt := length_inner_lt hcompile hi hinner
      exact ih (fun h => hsource (.inside hcompile hi hinner h)) hcalls
        (fun h => hasks (.inside hcompile hi hinner h)) (by omega)
    case location =>
      intro _ _ name args
      refine ends_calling args fun hlt => ends_findLocation_bind fun l hl => Ends.atSite _ ?_
      -- one call less may be opened inside; its block pays for the description and the code
      obtain ⟨blocks, rfl⟩ : ∃ k, blocks = k + 1 := ⟨blocks - 1, by omega⟩
      refine ends_showLocation false (fun text => hformat _ blocks (by omega) (by omega) hl) ?_
      have hle := World.length_code_le_extent hl
      rw [Nat.succ_mul] at hn
      exact ends_runBody (hblank l hl) (by omega)
    case description =>
      intro hop name
      -- no call is opened, so this is paid by the block that was kept for descriptions
      have hasks' := hasks (.itself hcompile hi (by rw [hop]; rfl))
      obtain ⟨blocks, rfl⟩ : ∃ k, blocks = k + 1 := ⟨blocks - 1, by omega⟩
      refine ends_findLocation_bind fun l hl => ?_
      exact hformat _ blocks (by omega) (by omega) hl List.mem_cons_self
    case noCode =>
      intro part hop
      exact hsource (.itself hcompile hi (by rw [hop]; rfl))

end

end Machine

end QuestScript
