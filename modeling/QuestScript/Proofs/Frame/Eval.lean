import QuestScript.Proofs.Frame

/-!
# An evaluation saves nothing

A run may leave bindings saved in the innermost group, for a declaration does so. An expression cannot
declare anything in the group that it is evaluated in: whatever it calls runs in a group of its own, which
is closed again. So an evaluation that gives a result leaves the saved bindings exactly as it found them
(`Calls.ofFuel_eval_keepsSaves`).

This is no `Discipline`: those are kept by every run, and one of their laws is about runs that save a
variable.
-/

namespace QuestScript

namespace Run

variable {α β : Type}

/-- A run that leaves the saved bindings as they are if it gives a result. -/
def KeepsSaves (x : Run α) : Prop := ∀ m a m', x m = .done a m' → m'.saves = m.saves

variable {x : Run α} {f : α → Run β}

theorem keepsSaves_pure (a : α) : (pure a : Run α).KeepsSaves := by
  intro m b m' h
  cases h
  rfl

theorem keepsSaves_fail (e : Error) : (fail e : Run α).KeepsSaves := by
  intro m a m' h
  cases h

theorem keepsSaves_ofExcept (r : Except Error α) : (ofExcept r).KeepsSaves := by
  cases r with
  | ok a => exact keepsSaves_pure a
  | error e => exact keepsSaves_fail e

theorem keepsSaves_name (cs : List Char) : (name cs).KeepsSaves := keepsSaves_ofExcept _

/-- Groups that are kept by one run and by the next are kept by both together. -/
theorem KeepsSaves.bind (hx : x.KeepsSaves) (hf : ∀ a, (f a).KeepsSaves) : (x >>= f).KeepsSaves := by
  intro m b m' h
  obtain ⟨a, m₁, ha, hb⟩ := bind_eq_done h
  exact (hf a _ _ _ hb).trans (hx _ _ _ ha)

theorem KeepsSaves.map (f : α → β) (hx : x.KeepsSaves) : (f <$> x).KeepsSaves :=
  hx.bind fun a => keepsSaves_pure (f a)

theorem keepsSaves_read (f : Machine → α) : (read f).KeepsSaves := by
  intro m a m' h
  cases h
  rfl

/-- The time is told by the host, which has no groups. -/
theorem keepsSaves_msecs : msecs.KeepsSaves := by
  intro m a m' h
  unfold msecs at h
  split at h
  · cases h
    rfl
  · cases h
    rfl

theorem keepsSaves_random (low high : Number) : (random low high).KeepsSaves := by
  intro m a m' h
  cases h
  rfl

/-- Compiling touches the cache alone. -/
theorem keepsSaves_compiled (source : List Char) : (compiled source).KeepsSaves := by
  intro m a m' h
  unfold compiled at h
  split at h
  · cases h
    rfl
  · cases h

theorem keepsSaves_pattern (source : String) : (pattern source).KeepsSaves := by
  intro m a m' h
  unfold pattern at h
  split at h
  · cases h
    rfl
  · cases h

theorem keepsSaves_checkMoves (stamp : Nat) : (checkMoves stamp).KeepsSaves := by
  intro m a m' h
  unfold checkMoves at h
  split at h
  · cases h
    rfl
  · cases h

/-- A group that is closed again takes with it what has been saved in it. -/
theorem KeepsSaves.grouped (hx : x.Obeys frame) : x.grouped.KeepsSaves := by
  intro m a m' h
  obtain ⟨m₁, hm₁, rfl⟩ := grouped_eq_done h
  obtain ⟨g, hg, -⟩ := (hx.ok hm₁).2.2.of_allocate
  rw [release_of_allocate true hg]

/-- A call counts its depth beside the groups. -/
theorem KeepsSaves.nested (hx : x.KeepsSaves) : x.nested.KeepsSaves := by
  intro m a m' h
  obtain ⟨m₁, hm₁, rfl⟩ := nested_eq_done h
  have hsaves := hx _ _ _ hm₁
  exact hsaves

end Run

namespace Machine

open Run

variable {c : Calls}

/-! ## Texts and calls -/

/-- By induction on the parts, for the expressions in a text. -/
theorem fill_keepsSaves (hc : ∀ source, (c.eval source).KeepsSaves) (parts : List Text.Part) :
    (fill c parts).KeepsSaves := by
  induction parts with
  | nil => exact keepsSaves_pure _
  | cons part rest ih =>
    cases part with
    | plain text => exact ih.bind fun _ => keepsSaves_pure _
    | code source => exact (hc source).bind fun _ => ih.bind fun _ => keepsSaves_pure _
    | unclosed => exact keepsSaves_fail _

theorem formatText_keepsSaves (hc : ∀ source, (c.eval source).KeepsSaves) (text : String) :
    (formatText c text).KeepsSaves := fill_keepsSaves hc _

theorem findLocation_keepsSaves (name : String) : (findLocation name).KeepsSaves := by
  intro m a m' h
  unfold findLocation at h
  split at h
  · cases h
    rfl
  · cases h

/-- A call is a group of its own, whatever its callee declares. -/
theorem calling_keepsSaves (args : List Value) {body : Run Unit} (hb : body.Obeys frame) :
    (calling args body).KeepsSaves :=
  (KeepsSaves.grouped ((bindArgs_obeys args).bind fun _ => hb.bind fun _ => obeys_read _)).nested

/-- A description is formatted without a call of its location. -/
theorem describe_keepsSaves (hc : ∀ source, (c.eval source).KeepsSaves) (name : String) :
    (describe c name).KeepsSaves :=
  (findLocation_keepsSaves name).bind fun _ => formatText_keepsSaves hc _

/-! ## Operations and instructions -/

/-- Calls need the frame discipline: their body may localize, in a group of its own that is closed again. -/
theorem perform_keepsSaves (hf : c.Obey frame) (hc : ∀ source, (c.eval source).KeepsSaves) (op : Op)
    (args : List Value) : (perform c op args).KeepsSaves := by
  cases op
  case rand => exact (keepsSaves_random _ _).map _
  case rnd => exact (keepsSaves_random _ _).map _
  case arrComp =>
    exact (keepsSaves_name _).bind fun _ => (keepsSaves_pattern _).bind fun _ => keepsSaves_read _
  case strComp => exact (keepsSaves_pattern _).bind fun _ => keepsSaves_pure _
  case strFind => exact (keepsSaves_pattern _).bind fun _ => keepsSaves_pure _
  case strPos => exact (keepsSaves_pattern _).bind fun _ => keepsSaves_pure _
  case func =>
    exact (calling_keepsSaves _ (runLocation_obeys hf _ _)).bind fun _ => keepsSaves_pure _
  case dynEval => exact (calling_keepsSaves _ (runBody_obeys hf _)).bind fun _ => keepsSaves_pure _
  case desc => exact (describe_keepsSaves hc _).map _
  case input =>
    intro m a m' h
    cases h
    rfl
  case isPlay =>
    intro m a m' h
    cases h
    rfl
  case msecsCount => exact keepsSaves_msecs.map _
  -- no other operation is performed
  all_goals exact keepsSaves_fail _

theorem applyOp_keepsSaves (hf : c.Obey frame) (hc : ∀ source, (c.eval source).KeepsSaves) (op : Op)
    (args : List Value) : (applyOp c op args).KeepsSaves := by
  unfold applyOp
  split
  · exact keepsSaves_ofExcept _
  · intro m a m' h
    dsimp only at h
    split at h
    · exact keepsSaves_ofExcept _ _ _ _ h
    · exact perform_keepsSaves hf hc op args _ _ _ h

theorem stepOp_keepsSaves (hf : c.Obey frame) (hc : ∀ source, (c.eval source).KeepsSaves) (stamp : Nat)
    (i : Instruction) (stack : List Value) : (stepOp c stamp i stack).KeepsSaves := by
  unfold stepOp
  split
  · exact keepsSaves_fail _
  · refine (keepsSaves_ofExcept _).bind fun args => (applyOp_keepsSaves hf hc i.op args).bind fun v => ?_
    split
    · exact (keepsSaves_checkMoves stamp).bind fun _ => keepsSaves_pure _
    · exact keepsSaves_pure _

/-- No instruction localizes anything. Only operations and formats run more than themselves. -/
theorem step_keepsSaves (hf : c.Obey frame) (hc : ∀ source, (c.eval source).KeepsSaves) (stamp : Nat)
    (i : Instruction) (stack : List Value) : (step c stamp i stack).KeepsSaves := by
  have hread (n : List Char) (g : VarName → Machine → Value) (stack : List Value) :
      (do
        let n ← Run.name n
        let v ← Run.read (g n)
        return (v :: stack, none) : Run Stepped).KeepsSaves :=
    (keepsSaves_name _).bind fun _ => (keepsSaves_read _).bind fun _ => keepsSaves_pure _
  unfold step
  split
  · exact keepsSaves_pure _
  · exact (formatText_keepsSaves hc _).bind fun _ =>
      (keepsSaves_checkMoves stamp).bind fun _ => keepsSaves_pure _
  · split
    · exact hread _ _ _
    · exact keepsSaves_fail _
    · exact hread _ _ _
  · exact hread _ _ _
  · exact keepsSaves_pure _
  · exact (keepsSaves_ofExcept _).bind fun _ => keepsSaves_pure _
  · exact (keepsSaves_ofExcept _).bind fun _ => keepsSaves_pure _
  · exact (keepsSaves_ofExcept _).bind fun _ => keepsSaves_pure _
  · exact (keepsSaves_ofExcept _).bind fun _ => keepsSaves_pure _
  · exact (keepsSaves_ofExcept _).bind fun _ => keepsSaves_pure _
  · exact keepsSaves_fail _
  · exact keepsSaves_fail _
  · exact keepsSaves_fail _
  · exact keepsSaves_fail _
  · exact keepsSaves_fail _
  · exact (stepOp_keepsSaves hf hc stamp i _).bind fun _ => keepsSaves_pure _

/-- By induction on the code that is left. -/
theorem runCode_keepsSaves (hf : c.Obey frame) (hc : ∀ source, (c.eval source).KeepsSaves)
    (stamp pc resume : Nat) (stack : List Value) (code : List Instruction) :
    (runCode c stamp pc resume stack code).KeepsSaves := by
  induction code generalizing pc resume stack with
  | nil =>
    cases stack with
    | nil => exact keepsSaves_fail _
    | cons v stack => exact keepsSaves_pure v
  | cons i rest ih =>
    unfold runCode
    split
    · exact ih _ _ _
    · exact (step_keepsSaves hf hc stamp i stack).bind fun _ => ih _ _ _

end Machine

/-- **An evaluation leaves the saved bindings as they are**, by induction on the fuel. -/
theorem Calls.ofFuel_eval_keepsSaves (n : Nat) (source : List Char) :
    ((Calls.ofFuel n).eval source).KeepsSaves := by
  induction n generalizing source with
  | zero =>
    intro m a m' h
    cases h
  | succ n ih =>
    refine (Run.keepsSaves_compiled source).bind fun code => ?_
    intro m a m' h
    exact Machine.runCode_keepsSaves (Calls.ofFuel_frame n) ih m.moves 0 0 [] code.toList _ _ _ h

end QuestScript
