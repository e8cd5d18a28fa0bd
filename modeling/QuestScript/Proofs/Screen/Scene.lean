import QuestScript.Proofs.Ends
import QuestScript.Proofs.Line.Statement

/-!
# Scenes

The statements that add actions and objects look at the screen, at the variables that name the hooks,
and at the location they stand in. `Run.Plays` says that a run which starts in such a scene ends with a
given result in a given scene; what else it changes (the expressions it keeps, the line it notes) does
not matter.

A literal that holds no mark of an expression is evaluated to its own text (`plays_literal`), and so the
arguments of a written statement to what was written (`plays_itemArgs`).
-/

namespace QuestScript

open Text (byteSize singleQuoted)

/-- What the statements that add actions and objects read and change. -/
structure Scene where
  screen : Screen
  vars : Store
  location : Option String

def Machine.scene (m : Machine) : Scene := ⟨m.screen, m.vars, m.site.location⟩

namespace Run

variable {α β : Type} {s s' s'' : Scene} {a : α} {b : β} {x : Run α} {f : α → Run β}

/-- A run that starts in the scene `s` ends with the result `a` in the scene `s'`. -/
def Plays (x : Run α) (s : Scene) (a : α) (s' : Scene) : Prop :=
  ∀ m, m.scene = s → ∃ m', x m = .done a m' ∧ m'.scene = s'

theorem plays_pure (a : α) : (pure a : Run α).Plays s a s := fun m hm => ⟨m, rfl, hm⟩

theorem Plays.bind (hx : x.Plays s a s') (hf : (f a).Plays s' b s'') : (x >>= f).Plays s b s'' := by
  intro m hm
  obtain ⟨m', hx', hm'⟩ := hx m hm
  obtain ⟨m'', hf', hm''⟩ := hf m' hm'
  refine ⟨m'', ?_, hm''⟩
  show x.andThen f m = _
  rw [andThen, hx']
  exact hf'

theorem Plays.marked (hx : x.Plays s a s') : x.marked.Plays s a s' := by
  intro m hm
  obtain ⟨m', hx', hm'⟩ := hx m hm
  exact ⟨m', by rw [Run.marked, hx'], hm'⟩

/-- What is read off the scene. -/
theorem plays_read {g : Machine → α} (h : ∀ m, m.scene = s → g m = a) : (read g).Plays s a s := by
  intro m hm
  exact ⟨m, by rw [read, h m hm], hm⟩

theorem plays_compiled {source : List Char} {code : Code} (h : compile source = .ok code) :
    (compiled source).Plays s code s := by
  intro m hm
  obtain ⟨cache, hcompiled⟩ := compiled_eq source m
  rw [h] at hcompiled
  exact ⟨_, hcompiled, hm⟩

end Run

/-! ## Literals -/

/-- A text that stands between quotes as it is: it holds no return, which sources drop, and opens no
expression. -/
structure Text.Legible (x : String) : Prop where
  noReturn : '\r' ∉ x.toList
  noOpening : Text.cutAtOpening? x.toList = none

instance (x : String) : Decidable (Text.Legible x) :=
  decidable_of_iff ('\r' ∉ x.toList ∧ Text.cutAtOpening? x.toList = none)
    ⟨fun h => ⟨h.1, h.2⟩, fun h => ⟨h.noReturn, h.noOpening⟩⟩

theorem Token.tokenize_singleQuoted (x : String) :
    Token.tokenize (singleQuoted x).toList
      = .ok [(.text x, ⟨0, byteSize (singleQuoted x).toList⟩)] := by
  have hclose : Text.closeQuote '\'' (Text.doubleQuotes '\'' x.toList ++ ['\'']) = _ :=
    Text.closeQuote_doubleQuotes '\'' x.toList (by simp)
  have hspelled := Token.Spelled.text (by decide) hclose
  rw [Text.unquote_doubleQuotes, String.ofList_toList] at hspelled
  have hlexes := Token.Lexes.lexeme hspelled (by simp) (.nil : Token.Lexes (0 + _) [] [])
  rw [List.append_nil, Nat.zero_add, ← Text.toList_singleQuoted] at hlexes
  exact Token.tokenize_eq_ok_iff.mpr hlexes

/-- The code of a literal. -/
theorem compile_singleQuoted (x : String) :
    compile (singleQuoted x).toList
      = .ok #[{ op := if x.isEmpty then .push else .format, literal := some (.text x) }] := by
  rw [compile, Token.tokenize_singleQuoted]
  show Compiler.run _ false _ _ = _
  rw [Compiler.run]
  show Compiler.run _ true ⟨_, _⟩ [] = _
  rw [Compiler.run]
  rfl

namespace Machine

open Run

variable {x : String} {s : Scene}

/-- A text without opening marks has one part. -/
theorem formatText_of_legible (c : Calls) (hx : Text.Legible x) : formatText c x = pure x := by
  have hparts : Text.parts x.toList = [.plain x.toList] := by
    rw [Text.parts]
    split
    · rfl
    · next h => rw [hx.noOpening] at h; cases h
  unfold formatText
  rw [hparts]
  show (pure (String.ofList x.toList ++ "") : Run String) = pure x
  rw [String.ofList_toList, String.append_empty]

theorem evaluate_literal (c : Calls) (hx : Text.Legible x) :
    evaluate c #[{ op := if x.isEmpty then .push else .format, literal := some (.text x) }]
      = pure (.text x) := by
  funext m
  cases hempty : x.isEmpty with
  | true => rfl
  | false =>
    have hchecked : checkMoves m.moves m = .done () m := by simp [checkMoves]
    have hformat : step c m.moves { op := .format, literal := some (.text x) } [] m
        = .done ([.text x], none) m := by
      show ((formatText c x).andThen fun text =>
        (checkMoves m.moves).andThen fun _ => ret ([Value.text text], none)) m = _
      rw [formatText_of_legible c hx]
      show ((checkMoves m.moves).andThen _) m = _
      rw [andThen, hchecked]
      rfl
    show ((step c m.moves { op := .format, literal := some (.text x) } []).andThen _) m = _
    rw [andThen, hformat]
    rfl

/-- **A written literal is read as its text.** -/
theorem plays_literal (n : Nat) (hx : Text.Legible x) :
    ((Calls.ofFuel (n + 1)).eval (singleQuoted x).toList).Plays s (.text x) s := by
  refine (plays_compiled (compile_singleQuoted x)).bind ?_
  rw [evaluate_literal _ hx]
  exact plays_pure _

/-! ## Arguments -/

/-- The values of the arguments of an item. -/
def itemValues (name : String) (image : Option String) : List Value :=
  .text name :: image.toList.map .text

theorem argType_item {kind : StatementKind} (h : kind = .addObject ∨ kind = .act) {index : Nat}
    (hi : index < 2) : kind.argType index = .text := by
  rcases h with rfl | rfl <;> match index, hi with
    | 0, _ => rfl
    | 1, _ => rfl

variable {name : String} {image : Option String} {line : Line} {stmt : Statement}

/-- An argument whose span covers a literal. -/
theorem plays_evalArgs_cons (n : Nat) (hx : Text.Legible x) {kind : StatementKind} {index : Nat}
    (htype : kind.argType index = .text) {span : Span} (hslice : line.slice span = (singleQuoted x).toList)
    {rest : List Span} {vs : List Value}
    (hrest : (evalArgs (Calls.ofFuel (n + 1)) line kind (index + 1) rest).Plays s vs s) :
    (evalArgs (Calls.ofFuel (n + 1)) line kind index (span :: rest)).Plays s (.text x :: vs) s := by
  unfold evalArgs
  rw [hslice, htype]
  refine (plays_literal n hx).bind ?_
  refine (plays_pure (Value.text x)).bind ?_
  exact hrest.bind (plays_pure _)

/-- **The arguments of a written statement** are what was written. -/
theorem plays_itemArgs (n : Nat) (hname : Text.Legible name) (himage : ∀ i ∈ image, Text.Legible i)
    {before after : List Char} (hline : line.text = before ++ ((Screen.itemArgs name image).toList ++ after))
    (hkind : stmt.kind = .addObject ∨ stmt.kind = .act)
    (hargs : stmt.args = Statement.itemSpans (byteSize before) name image) (herror : stmt.error = none) :
    (statementArgs (Calls.ofFuel (n + 1)) line stmt).Plays s (itemValues name image) s := by
  have hchecked : (checkScanned stmt).Plays s () s := by
    rw [checkScanned, herror]
    exact plays_pure ()
  refine hchecked.bind ?_
  rw [hargs]
  rw [Screen.toList_itemArgs] at hline
  cases image with
  | none =>
    have hslice : line.slice ⟨byteSize before, byteSize before + byteSize (singleQuoted name).toList⟩
        = (singleQuoted name).toList := by
      rw [Line.slice, Span.slice, hline, Option.elim_none, List.append_nil, Text.slice?_append]
      rfl
    exact plays_evalArgs_cons n hname (argType_item hkind (by decide)) hslice (plays_pure [])
  | some i =>
    rw [Option.elim_some, List.append_assoc, List.cons_append] at hline
    have hfirst : line.slice ⟨byteSize before, byteSize before + byteSize (singleQuoted name).toList⟩
        = (singleQuoted name).toList := by
      rw [Line.slice, Span.slice, hline, Text.slice?_append]
      rfl
    have hsecond : line.slice ⟨byteSize before + byteSize (singleQuoted name).toList + 1,
          byteSize before + byteSize (singleQuoted name).toList + 1 + byteSize (singleQuoted i).toList⟩
        = (singleQuoted i).toList := by
      have hstart : byteSize before + byteSize (singleQuoted name).toList + 1
          = byteSize (before ++ (singleQuoted name).toList ++ [',']) := by
        simp
        rfl
      have hline' : line.text
          = before ++ (singleQuoted name).toList ++ [','] ++ ((singleQuoted i).toList ++ after) := by
        simp [hline]
      rw [Line.slice, Span.slice, hstart, hline', Text.slice?_append]
      rfl
    refine plays_evalArgs_cons n hname (argType_item hkind (by decide)) hfirst ?_
    exact plays_evalArgs_cons n (himage i rfl) (argType_item hkind (by decide)) hsecond (plays_pure [])

/-! ## Objects -/

/-- No location is called when an object is added. -/
def NoHandlers (vars : Store) (key : String) : Prop :=
  ∀ i slot, vars.slot? key i = some slot → slot.text = ""

/-- Where no array names a location, hooks do nothing. -/
theorem runHooks_of_noHandlers (c : Calls) {key : String} (args : List Value) {m : Machine}
    (h : NoHandlers m.vars key) : runHooks c key args m = .done () m := by
  have hnone : ∀ count i, callHooks c key args m.moves i count m = .done () m := by
    intro count
    induction count with
    | zero => exact fun _ => rfl
    | succ count ih =>
      intro i
      have hempty : (m.vars.slot? key i).elim "" (·.text) = "" := by
        cases hslot : m.vars.slot? key i with
        | none => rfl
        | some slot => exact h i slot hslot
      unfold callHooks
      rw [Run.bind_of_done (show Run.read _ m = .done "" m by rw [Run.read, hempty])]
      exact ih (i + 1)
  exact hnone _ 0

theorem plays_runHooks (c : Calls) (key : String) (args : List Value) (h : NoHandlers s.vars key) :
    (runHooks c key args).Plays s () s := by
  rintro m rfl
  exact ⟨m, runHooks_of_noHandlers c args h, rfl⟩

end Machine

end QuestScript
