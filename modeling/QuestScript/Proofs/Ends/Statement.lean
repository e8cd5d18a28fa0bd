import QuestScript.Proofs.Discipline.Statement
import QuestScript.Proofs.Nesting
import QuestScript.Proofs.Screen.Scene

/-!
# Statements that come to an end

A statement evaluates expressions, and some statements run other code after that: those that call a
location or code, those that leave for another location, and those after which hooks are called. A
statement that does none of this ends whenever its expressions do (`ends_runSimple`).

`Line.sources` collects the expressions of a statement: its arguments, or the value and the indices of an
assignment. Such an expression ends by itself if it neither calls anything nor asks for a description
(`ends_eval`), because all that is left to evaluate are the expressions inside its literals.
-/

namespace QuestScript

variable {w : World} {limit depth : Nat}

/-! ## Expressions that call nothing -/

/-- Whether an operation runs anything that stands outside of its expression. -/
def Op.calls (op : Op) : Bool := op.opensCall || op.describes

/-- **An expression that calls nothing ends**, given more fuel than it has characters. -/
theorem ends_eval {n : Nat} {source : List Char} (h : ¬ Uses Op.calls source) (hn : source.length < n) :
    ((Calls.ofFuel n).eval source).Ends w limit depth := by
  induction n generalizing source with
  | zero => omega
  | succ n ih =>
    refine Machine.ends_evalSource fun code hcompile i hi => ?_
    have hcalls : i.op.calls = false := by
      rw [Bool.eq_false_iff]
      exact fun hop => h (.itself hcompile hi hop)
    constructor
    case inner =>
      intro inner hinner
      have hlt := length_inner_lt hcompile hi hinner
      exact ih (fun huses => h (.inside hcompile hi hinner huses)) (by omega)
    case location =>
      intro part hop
      rw [hop] at hcalls
      cases hcalls
    case description =>
      intro hop
      rw [hop] at hcalls
      cases hcalls
    case noCode =>
      intro part hop
      rw [hop] at hcalls
      cases hcalls

/-! ## The expressions of a statement -/

namespace Target

/-- The expression in the index of a target. -/
def source? (target : List Char) : Option (List Char) :=
  match read target with
  | .ok (_, some (.value source)) => some source
  | .ok (_, some (.single source)) => some source
  | _ => none

/-- The expressions in the indices of a list of targets. -/
def sources (cs : List Char) : List (List Char) :=
  match split cs with
  | .ok targets => targets.filterMap source?
  | .error _ => []

/-- The expression in the index of a target is one of those of the statement that has the target. -/
theorem mem_sources {cs target source : List Char} {targets : List (List Char)} (h : split cs = .ok targets)
    (ht : target ∈ targets) (hsource : source ∈ source? target) : source ∈ sources cs := by
  unfold sources
  rw [h]
  exact List.mem_filterMap.mpr ⟨target, ht, hsource⟩

end Target

/-- The expressions that a statement of a line evaluates, unless it is a loop. -/
def Line.sources (line : Line) (s : Statement) : List (List Char) :=
  match s.kind with
  | .unknown | .label | .comment | .otherwise | .endBlock => []
  | .assign | .declare => line.arg s 2 :: Target.sources (line.arg s 0)
  | _ => s.args.map line.slice

/-- Apart from assignments and declarations a statement has its arguments as expressions. -/
theorem Line.sources_eq_args {line : Line} {s : Statement}
    (h : s.kind ∉ [.unknown, .label, .comment, .otherwise, .endBlock, .assign, .declare]) :
    line.sources s = s.args.map line.slice := by
  unfold Line.sources
  split <;> simp_all

namespace StatementKind

/-- Whether a statement calls a location or code, or leaves for another location. -/
def calls : StatementKind → Bool
  | gosub | goto | xgoto | dynamic | menu => true
  | _ => false

/-- The array with the names of the hooks that are called after a statement. Killing everything clears
the arrays first, so no hook is left to be called then. -/
def hook? : StatementKind → Option String
  | addObject => some "ONOBJADD"
  | deleteObject | killObject => some "ONOBJDEL"
  | _ => none

end StatementKind

/-! ## Putting runs together -/

theorem Machine.stands (m : Machine) : m.Stands m.world m.config.maxCallDepth m.callDepth := ⟨rfl, rfl, rfl⟩

namespace Run

variable {α β : Type}

theorem ends_ite {p : Prop} [Decidable p] {x y : Run α} (hx : x.Ends w limit depth)
    (hy : y.Ends w limit depth) : (if p then x else y).Ends w limit depth := by
  split
  · exact hx
  · exact hy

/-- What comes after a check is asked for only if the check is passed. -/
theorem ends_ofExcept_bind {r : Except Error α} {f : α → Run β}
    (hf : ∀ a, r = .ok a → (f a).Ends w limit depth) : (ofExcept r >>= f).Ends w limit depth := by
  cases r with
  | ok a => exact hf a rfl
  | error e => exact ends_fail e

/-- A run that is started in the machine `m` comes to an end. -/
def EndsFrom (w : World) (limit depth : Nat) (m : Machine) (x : Run α) : Prop :=
  (x m).Ends (Machine.Stands w limit depth)

variable {m : Machine}

theorem Ends.endsFrom {x : Run α} (h : x.Ends w limit depth) (hm : m.Stands w limit depth) :
    x.EndsFrom w limit depth m := h m hm

/-- What comes after a run has to end only where that run leads. -/
theorem EndsFrom.bind {x : Run α} {f : α → Run β} (hx : x.EndsFrom w limit depth m)
    (hf : ∀ a m', x m = .done a m' → m'.Stands w limit depth → (f a).EndsFrom w limit depth m') :
    (x >>= f).EndsFrom w limit depth m := by
  unfold EndsFrom at hx ⊢
  cases hdone : x m with
  | done a m' =>
    rw [hdone] at hx
    cases hx with
    | done a hm' =>
      rw [bind_of_done hdone]
      exact hf a m' hdone hm'
  | failed e m' =>
    rw [bind_of_failed hdone]
    exact .failed e m'
  | outOfFuel =>
    rw [hdone] at hx
    cases hx

end Run

namespace Machine

open Run

variable {c : Calls} {line : Line} {s : Statement}

/-! ## Assignments -/

/-- An assignment ends if the expression in its index does. -/
theorem ends_assignTarget {target : List Char}
    (h : ∀ source ∈ Target.source? target, (c.eval source).Ends w limit depth) (op : AssignOp) (v : Value) :
    (assignTarget c target op v).Ends w limit depth := by
  unfold Target.source? at h
  refine ends_ofExcept_bind ?_
  rintro ⟨name, index⟩ hread
  rw [hread] at h
  refine Ends.bind ?_ fun written => ?_
  · cases index with
    | none => exact ends_pure _
    | some index =>
      cases index with
      | append => exact ends_pure _
      | value source => exact (h source rfl).bind fun _ => ends_pure _
      | single source => exact (h source rfl).bind fun _ => ends_pure _
  · cases written with
    | some index => exact ends_onVars _
    | none => exact ends_onVars _

section

variable {targets : List (List Char)}
  (h : ∀ target ∈ targets, ∀ source ∈ Target.source? target, (c.eval source).Ends w limit depth)
include h

theorem ends_assignEach (op : AssignOp) (v : Value) : (assignEach c op v targets).Ends w limit depth := by
  induction targets with
  | nil => exact ends_pure _
  | cons target rest ih =>
    obtain ⟨htarget, hrest⟩ := List.forall_mem_cons.mp h
    exact (ends_assignTarget htarget op v).bind fun _ => ih hrest

/-- By the recursion of the assignment, which takes one target at a time. -/
theorem ends_assignItems (op : AssignOp) (items : List Value) :
    (assignItems c op items targets).Ends w limit depth := by
  have hitem (target : List Char) (v : Option Value) : (itemFor target v).Ends w limit depth := by
    cases v with
    | some v => exact ends_pure v
    | none => exact (ends_name _).bind fun _ => ends_pure _
  fun_induction assignItems with
  | case1 => exact ends_pure _
  | case2 items target =>
    exact (hitem _ _).bind fun _ => ends_assignTarget (h target List.mem_cons_self) _ _
  | case3 items target rest _ ih =>
    obtain ⟨htarget, hrest⟩ := List.forall_mem_cons.mp h
    exact (hitem _ _).bind fun _ => (ends_assignTarget htarget _ _).bind fun _ => ih hrest

theorem ends_assignAll (op : AssignOp) (v : Value) : (assignAll c targets op v).Ends w limit depth := by
  unfold assignAll
  split
  · exact ends_failWith _
  · next target => exact ends_assignTarget (h target List.mem_cons_self) _ _
  · exact ends_assignItems h _ _
  · exact ends_assignEach h _ _

end

theorem ends_checkScanned (s : Statement) : (checkScanned s).Ends w limit depth := by
  unfold checkScanned
  split
  · exact ends_failWith _
  · exact ends_pure _

section

variable (hvalue : (c.eval (line.arg s 2)).Ends w limit depth)
  (hsources : ∀ source ∈ Target.sources (line.arg s 0), (c.eval source).Ends w limit depth)
include hvalue hsources

/-- Of an assignment the value and the indices of the targets are evaluated, and nothing else. -/
theorem ends_assign : (assign c line s).Ends w limit depth := by
  refine (ends_checkScanned s).bind fun _ => ends_ite (ends_failWith _) ?_
  split
  · exact ends_failWith _
  · refine hvalue.bind fun v => ends_ofExcept_bind fun targets hsplit => ?_
    exact ends_assignAll (fun target ht source hs => hsources source (Target.mem_sources hsplit ht hs)) _ v

theorem ends_declare : (declare c line s).Ends w limit depth := by
  have hlocalize (targets : List (List Char)) : (localizeAll targets).Ends w limit depth := by
    induction targets with
    | nil => exact ends_pure _
    | cons target rest ih => exact (ends_name _).bind fun _ => (ends_localize _).bind fun _ => ih
  unfold declare declared
  rw [bind_assoc]
  refine (ends_checkScanned s).bind fun _ => ?_
  split
  · rw [bind_assoc]
    exact (ends_ofExcept _).bind fun targets => (hlocalize targets).bind fun _ => ends_pure _
  · split
    · exact ends_failWith _
    · simp only [bind_assoc]
      refine hvalue.bind fun v => ends_ofExcept_bind fun targets hsplit => (hlocalize targets).bind fun _ => ?_
      exact ends_assignAll (fun target ht source hs => hsources source (Target.mem_sources hsplit ht hs)) _ v

end

/-! ## Objects and variables -/

section

variable {m : Machine} (hm : m.Stands w limit depth)
include hm

/-- Without handlers the object is added and no hook runs. -/
theorem ends_addObject (args : List Value) (position : Option Nat) (hhooks : NoHandlers m.vars "ONOBJADD") :
    (addObject c args position).EndsFrom w limit depth m := by
  unfold EndsFrom addObject
  split
  · exact .failed _ m
  · exact .done () hm
  · next screen _ =>
    have hdone := runHooks_of_noHandlers c (args.take 2) (m := { m with screen }) hhooks
    rw [hdone]
    exact .done () hm

variable (hhooks : NoHandlers m.vars "ONOBJDEL")
include hhooks

theorem ends_removeObject (index : Nat) : (removeObject c index).EndsFrom w limit depth m := by
  unfold EndsFrom removeObject
  split
  · next o screen _ =>
    have hdone := runHooks_of_noHandlers c [.text o.name] (m := { m with screen }) hhooks
    rw [hdone]
    exact .done () hm
  · exact .done () hm

/-- By induction on the objects that are gone, with no handler for any of them. -/
theorem ends_afterRemoval (stamp : Nat) (objects : List Object) :
    (afterRemoval c stamp objects).EndsFrom w limit depth m := by
  induction objects with
  | nil => exact .done () hm
  | cons o rest ih =>
    have hdone := runHooks_of_noHandlers c [.text o.name] hhooks
    refine EndsFrom.bind (by rw [EndsFrom, hdone]; exact .done () hm) fun _ m₁ hdone₁ _ => ?_
    obtain rfl : m = m₁ := by
      rw [hdone] at hdone₁
      cases hdone₁
      rfl
    refine EndsFrom.bind ((ends_checkMoves stamp).endsFrom hm) fun _ m₂ hdone₂ _ => ?_
    obtain rfl : m = m₂ := by
      unfold checkMoves at hdone₂
      split at hdone₂
      · cases hdone₂
        rfl
      · cases hdone₂
    exact ih

theorem ends_removeObjects : (removeObjects c).EndsFrom w limit depth m :=
  ends_afterRemoval (m := { m with screen := m.screen.takeObjects.2 }) hm hhooks m.moves _

end

/-- Variables are removed without a call. -/
theorem ends_killVariable (args : List Value) : (killVariable args).Ends w limit depth := by
  cases args with
  | nil => exact fun _ h => .done () h
  | cons v rest =>
    refine (ends_name _).bind fun name => ?_
    split
    · exact fun _ h => .done () h
    · next index _ =>
      intro m h
      refine .done () ?_
      dsimp only
      split
      · exact h
      · exact h

theorem ends_copyArray (args : List Value) : (copyArray args).Ends w limit depth :=
  (ends_name _).bind fun _ => (ends_name _).bind fun _ => ends_onVars _

/-- A store without variables names no location. -/
theorem noHandlers_clear (vars : Store) (key : String) : NoHandlers vars.clear key := by
  intro i slot hslot
  cases hslot

/-! ## All statements -/

/-- A statement that calls no code by itself ends, if there is no handler for what it does. -/
theorem ends_act {kind : StatementKind} (hkind : kind.calls = false) (args : List Value) {m : Machine}
    (hm : m.Stands w limit depth) (hhooks : ∀ key ∈ kind.hook?, NoHandlers m.vars key) :
    (act c kind args).EndsFrom w limit depth m := by
  fun_cases act
  -- most statements only change the screen or call the host
  all_goals try first
    | exact .done () hm
    | cases hkind
  · exact ends_addObject hm args none (hhooks _ rfl)
  · exact ends_addObject hm args _ (hhooks _ rfl)
  · unfold EndsFrom
    dsimp only
    split
    · exact ends_removeObject hm (hhooks _ rfl) _
    · exact .done () hm
  · exact ends_removeObjects hm (hhooks _ rfl)
  · exact ends_removeObject hm (hhooks _ rfl) _
  · exact (ends_killVariable args).endsFrom hm
  · exact ends_removeObjects (m := { m with vars := m.vars.clear }) hm (noHandlers_clear m.vars _)
  · exact (ends_copyArray args).endsFrom hm
  · exact (ends_failWith _).endsFrom hm

theorem ends_runStatement {kind : StatementKind} (hkind : kind.calls = false) (args : List Value) {m : Machine}
    (hm : m.Stands w limit depth) (hhooks : ∀ key ∈ kind.hook?, NoHandlers m.vars key) :
    (runStatement c kind args).EndsFrom w limit depth m := by
  fun_cases runStatement
  · exact .done _ hm
  · exact .done _ hm
  · exact (ends_act hkind args hm hhooks).bind fun _ _ _ hm' => .done _ hm'

/-- By induction on the arguments. -/
theorem ends_evalArgs {spans : List Span}
    (h : ∀ source ∈ spans.map line.slice, (c.eval source).Ends w limit depth) (kind : StatementKind)
    (index : Nat) : (evalArgs c line kind index spans).Ends w limit depth := by
  induction spans generalizing index with
  | nil => exact ends_pure _
  | cons span rest ih =>
    obtain ⟨hspan, hrest⟩ := List.forall_mem_cons.mp h
    exact hspan.bind fun _ => (ends_ofExcept _).bind fun _ => (ih hrest (index + 1)).bind fun _ => ends_pure _

theorem ends_statementArgs (h : ∀ source ∈ s.args.map line.slice, (c.eval source).Ends w limit depth) :
    (statementArgs c line s).Ends w limit depth :=
  (ends_checkScanned s).bind fun _ => ends_evalArgs h s.kind 0

/-- **A statement that calls nothing ends** if its expressions do and no hook is set when its arguments have
been evaluated. -/
theorem ends_runSimple (hcomment : s.kind ≠ .comment) (hkind : s.kind.calls = false)
    (hsources : ∀ source ∈ line.sources s, (c.eval source).Ends w limit depth) {m : Machine}
    (hm : m.Stands w limit depth)
    (hhooks : ∀ args m', statementArgs c line s m = .done args m' →
      ∀ key ∈ s.kind.hook?, NoHandlers m'.vars key) : (runSimple c line s).EndsFrom w limit depth m := by
  fun_cases runSimple
  · exact .done _ hm
  · exact .done _ hm
  · exact .done _ hm
  · exact .done _ hm
  · next hassign =>
    simp only [Line.sources, hassign] at hsources
    obtain ⟨hvalue, hindices⟩ := List.forall_mem_cons.mp hsources
    exact ((ends_assign hvalue hindices).bind fun _ => ends_pure _).endsFrom hm
  · next hdeclare =>
    simp only [Line.sources, hdeclare] at hsources
    obtain ⟨hvalue, hindices⟩ := List.forall_mem_cons.mp hsources
    exact ((ends_declare hvalue hindices).bind fun _ => ends_pure _).endsFrom hm
  · next hunknown hlabel hotherwise hend hassign hdeclare =>
    rw [Line.sources_eq_args (by simpa using ⟨hunknown, hlabel, hcomment, hotherwise, hend, hassign, hdeclare⟩)]
      at hsources
    have hargs := (ends_statementArgs hsources).endsFrom hm
    exact hargs.bind fun args m' hdone hm' => ends_runStatement hkind args hm' (hhooks args m' hdone)

/-! ## Headers -/

theorem ends_requireColon (line : Line) (s : Statement) : (requireColon line s).Ends w limit depth :=
  ends_ite (ends_pure ()) (ends_failWith _)

theorem ends_blockEnd (lines : List Line) (i stop : Nat) : (blockEnd lines i stop).Ends w limit depth := by
  unfold blockEnd
  split
  · exact ends_pure _
  · exact ends_failWith _

section

variable (h : ∀ source ∈ s.args.map line.slice, (c.eval source).Ends w limit depth)
include h

theorem ends_condition : (condition c line s).Ends w limit depth :=
  (ends_statementArgs h).bind fun _ => ends_pure _

theorem ends_addActionOf (code : List Line) : (addAction c line s code).Ends w limit depth :=
  (ends_statementArgs h).bind fun _ => (ends_read _).bind fun _ => ends_addAction _

theorem ends_inlineAction (index stop : Nat) : (inlineAction c line index stop s).Ends w limit depth :=
  (ends_requireColon line s).bind fun _ => ends_ite (ends_failWith _) (ends_addActionOf h _)

end

end Machine

end QuestScript
