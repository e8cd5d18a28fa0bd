import QuestScript.Proofs.Case.Kept
import QuestScript.Proofs.Likeness.Recached

/-!
# Evaluating in upper case

A variable is found under its name in upper case, and so is a location. An instruction and the same
instruction in upper case therefore do the same (`step_raised_tied`), and so does the call of a location whose
name is in upper case (`callLocation_tied`); what they may tell apart is the text of an error. `Run.Tied`
compares two such runs, as `Run.Alike` compares runs that do not differ at all.

The stacks of two evaluations agree but for the names that wait for their call (`Value.StackRaised`). All other
instructions leave the names alone (`Compiler.Kept`), so the stacks stay that way (`step_names_tied`), and the
call that takes its name does the same on both sides (`step_call_tied`).
-/

namespace QuestScript

open Text (upper uppercased)

/-! ## Runs that end the same way -/

/-- Two runs end with results that are related, or with errors of the same kind, and in machines that differ
in the expressions they have kept. -/
inductive Outcome.Tied {α β : Type} (R : α → β → Prop) : Outcome α → Outcome β → Prop
  | done {a : α} {b : β} {m m' : Machine} (hr : R a b) (hm : m.Recached m') : Tied R (.done a m) (.done b m')
  | failed {e e' : Error} {m m' : Machine} (he : e.kind = e'.kind) (hm : m.Recached m') :
    Tied R (.failed e m) (.failed e' m')
  | outOfFuel : Tied R .outOfFuel .outOfFuel

namespace Run

variable {α β γ δ : Type} {R : α → β → Prop} {S : γ → δ → Prop}

/-- Two runs end the same way whenever they are started in machines that differ in the expressions they have
kept. -/
def Tied (R : α → β → Prop) (x : Run α) (y : Run β) : Prop :=
  ∀ m m', m.Recached m' → (x m).Tied R (y m')

theorem tied_pure {a : α} {b : β} (h : R a b) : Tied R (pure a) (pure b) := fun _ _ hm => .done h hm

theorem tied_fail {e e' : Error} (h : e.kind = e'.kind) : Tied R (fail e) (fail e') := fun _ _ hm => .failed h hm

/-- Runs that go alike end the same way. -/
theorem Alike.tied {x y : Run α} (h : Alike recached x y) : Tied Eq x y := by
  intro m m' hm
  have hr := h m m' hm
  generalize x m = r at hr
  generalize y m' = r' at hr
  cases hr with
  | done a h => exact .done rfl h
  | failed e h => exact .failed rfl h
  | outOfFuel => exact .outOfFuel

/-- Related results are handed on, and errors of the same kind end both runs. -/
theorem Tied.bind {x : Run α} {y : Run β} {f : α → Run γ} {g : β → Run δ} (hx : Tied R x y)
    (hf : ∀ a b, R a b → Tied S (f a) (g b)) : Tied S (x >>= f) (y >>= g) := by
  intro m m' hm
  show (x.andThen f m).Tied S (y.andThen g m')
  have hr := hx m m' hm
  unfold andThen
  generalize x m = r at hr
  generalize y m' = r' at hr
  cases hr with
  | done hab hm => exact hf _ _ hab _ _ hm
  | failed he hm => exact .failed he hm
  | outOfFuel => exact .outOfFuel

/-- What follows from the relation and from the first run, which has come to its result. -/
theorem Tied.imp {R' : α → β → Prop} {x : Run α} {y : Run β} (hx : Tied R x y)
    (h : ∀ a b m m₁, x m = .done a m₁ → R a b → R' a b) : Tied R' x y := by
  intro m m' hm
  have hr := hx m m' hm
  cases hxm : x m with
  | done a m₁ =>
    rw [hxm] at hr
    generalize y m' = r' at hr
    cases hr with
    | done hab hm => exact .done (h _ _ _ _ hxm hab) hm
  | failed e m₁ =>
    rw [hxm] at hr
    generalize y m' = r' at hr
    cases hr with
    | failed he hm => exact .failed he hm
  | outOfFuel =>
    rw [hxm] at hr
    generalize y m' = r' at hr
    cases hr
    exact .outOfFuel

/-- A group is closed alike, also after an error. -/
theorem Tied.grouped {x : Run α} {y : Run β} (hx : Tied R x y) : Tied R x.grouped y.grouped := by
  rintro m _ ⟨cache, rfl⟩
  have hr := hx { m with saves := m.saves.allocate } _ ⟨cache, rfl⟩
  unfold Run.grouped
  dsimp only at hr ⊢
  generalize x { m with saves := m.saves.allocate } = r at hr
  generalize y { m with saves := m.saves.allocate, expressions := cache } = r' at hr
  cases hr with
  | done hab hm => exact .done hab (recached.release _ _ hm)
  | failed he hm => exact .failed he (recached.release _ _ hm)
  | outOfFuel => exact .outOfFuel

theorem Tied.nested {x : Run α} {y : Run β} (hx : Tied R x y) : Tied R x.nested y.nested := by
  rintro m _ ⟨cache, rfl⟩
  unfold Run.nested
  dsimp only
  split
  · exact .failed rfl ⟨cache, rfl⟩
  · have hr := hx { m with callDepth := m.callDepth + 1 } _ ⟨cache, rfl⟩
    dsimp only at hr
    generalize x { m with callDepth := m.callDepth + 1 } = r at hr
    generalize y { m with callDepth := m.callDepth + 1, expressions := cache } = r' at hr
    cases hr with
    | done hab hm => exact .done hab (recached.exit hm)
    | failed he hm => exact .failed he (recached.exit hm)
    | outOfFuel => exact .outOfFuel

end Run

namespace Machine

open Run

variable {c : Calls} {stamp : Nat} {i : Instruction}

theorem stamps_recached (stamp : Nat) (m : Machine) : recached.Stamps stamp stamp :=
  ⟨{ m with moves := stamp }, { m with moves := stamp }, .refl _, rfl, rfl⟩

/-! ## Names -/

/-- **A location is found under its name in upper case.** The errors that there is none quote the name. -/
theorem findLocation_tied (name : String) : Run.Tied Eq (findLocation name) (findLocation (uppercased name)) := by
  rintro m _ ⟨cache, rfl⟩
  unfold findLocation
  dsimp only
  rw [World.find?_uppercased]
  split
  · exact .done rfl ⟨cache, rfl⟩
  · exact .failed rfl ⟨cache, rfl⟩

/-- A location is found under its name in either case. -/
theorem callLocation_tied (hc : c.Alike recached c) (name : String) (args : List Value) (replace : Bool) :
    Run.Tied Eq (callLocation c name args replace) (callLocation c (uppercased name) args replace) := by
  have hrun : Run.Tied Eq (runLocation c name replace) (runLocation c (uppercased name) replace) := by
    refine (findLocation_tied name).bind ?_
    rintro l _ rfl
    exact ((showLocation_alike hc l replace).atSite _).tied
  refine (Run.Tied.grouped ?_).nested
  refine (bindArgs_alike args).tied.bind fun _ _ _ => hrun.bind fun _ _ _ => ?_
  exact (alike_read fun ha => by rw [ha.vars]).tied

/-- A name that can be read is the name of the same variable in either case. -/
theorem name_tied (cs : List Char) : Run.Tied Eq (Run.name cs) (Run.name (upper cs)) := by
  have hread := VarName.read_upper cs
  unfold Run.name
  generalize VarName.read cs = r at hread
  generalize VarName.read (upper cs) = r' at hread
  cases r with
  | ok n =>
    cases r' with
    | ok n' =>
      cases hread
      exact tied_pure rfl
    | error e' => cases hread
  | error e =>
    cases r' with
    | ok n' => cases hread
    | error e' => exact tied_fail (Except.error.inj hread).symm

/-! ## Instructions -/

/-- An instruction that is the same on both sides does the same. -/
theorem step_self_tied (hc : c.Alike recached c) (stamp : Nat) (i : Instruction) (stack : List Value) :
    Run.Tied Eq (step c stamp i stack) (step c stamp i stack) :=
  fun m m' hm => (step_alike hc (stamps_recached stamp m) i stack).tied m m' hm

/-- The name in a literal is in upper case, or it is the same one. -/
theorem literalName_raised (i : Instruction) (marked : Bool) :
    literalName (i.raised marked) = upper (literalName i) ∨ literalName (i.raised marked) = literalName i := by
  unfold literalName Instruction.raised
  dsimp only
  split
  · match i.literal with
    | some (.text s) =>
      left
      simp [Value.raised, Value.display, uppercased]
    | some (.number n) => exact .inr rfl
    | some (.tuple vs) => exact .inr rfl
    | none => exact .inr rfl
  · exact .inr rfl

/-- A variable is found under its name in upper case. -/
theorem readVar_tied {f : VarName → Machine → Value}
    (hf : ∀ n {m m' : Machine}, m.Agrees m' → f n m = f n m') (i : Instruction) (marked : Bool)
    (stack : List Value) :
    let x (i : Instruction) : Run Stepped := do
      let n ← Run.name (literalName i)
      let v ← Run.read (f n)
      return (v :: stack, none)
    Run.Tied Eq (x i) (x (i.raised marked)) := by
  have hname : Run.Tied Eq (Run.name (literalName i)) (Run.name (literalName (i.raised marked))) := by
    rcases literalName_raised i marked with h | h
    · rw [h]
      exact name_tied _
    · rw [h]
      exact (alike_name _).tied
  refine hname.bind ?_
  rintro n _ rfl
  refine (alike_read fun ha => hf n ha).tied.bind ?_
  rintro v _ rfl
  exact tied_pure rfl

/-- **An instruction in upper case** does the same. -/
theorem step_raised_tied (hc : c.Alike recached c) (i : Instruction) (stack : List Value) :
    Run.Tied Eq (step c stamp i stack) (step c stamp (i.raised false) stack) := by
  obtain ⟨op, literal, argCount⟩ := i
  cases op with
  | var =>
    match argCount, stack with
    | 0, stack => exact readVar_tied (fun _ _ _ ha => by rw [ha.vars]) ⟨.var, literal, 0⟩ false stack
    | _ + 1, [] => exact tied_fail rfl
    | n + 1, index :: stack =>
      exact readVar_tied (fun _ _ _ ha => by rw [ha.vars]) ⟨.var, literal, n + 1⟩ false stack
  | lastVar => exact readVar_tied (fun _ _ _ ha => by rw [ha.vars]) ⟨.lastVar, literal, argCount⟩ false stack
  | _ =>
    rw [Instruction.raised_of_not_readsVariable rfl]
    exact step_self_tied hc stamp _ stack

/-! ## What lies below the operands -/

/-- An operation takes its operands from the top and leaves all below them. -/
theorem stepOp_append {top : List Value} (low : List Value) (h : i.argCount ≤ top.length) :
    stepOp c stamp i (top ++ low) = (· ++ low) <$> stepOp c stamp i top := by
  unfold stepOp
  rw [if_neg (by rw [List.length_append]; omega), if_neg (by omega), List.take_append_of_le_length h,
    List.drop_append_of_le_length h, map_bind]
  refine congrArg _ (funext fun args => ?_)
  rw [map_bind]
  refine congrArg _ (funext fun v => ?_)
  split
  · simp only [map_bind, map_pure, List.cons_append]
  · rw [map_pure, List.cons_append]

/-- An instruction that finds its operands leaves the values below them as they are. -/
theorem step_append {top : List Value} (low : List Value) (h : i.pops ≤ top.length) :
    step c stamp i (top ++ low) = (fun s : Stepped => (s.1 ++ low, s.2)) <$> step c stamp i top := by
  obtain ⟨op, literal, argCount⟩ := i
  cases op with
  | push | jump => rfl
  | format | lastVar => simp only [step, map_bind, map_pure, List.cons_append]
  | var =>
    cases argCount with
    | zero => simp only [step, map_bind, map_pure, List.cons_append]
    | succ n =>
      cases top with
      | nil => simp [Instruction.pops] at h
      | cons v top => simp only [step, map_bind, map_pure, List.cons_append]
  | jumpUnless | truth | cast =>
    cases top with
    | nil => cases h
    | cons v top => simp only [step, map_bind, map_pure, List.cons_append]
  | andJump | orJump =>
    cases top with
    | nil => cases h
    | cons v top =>
      simp only [step, map_bind, List.cons_append]
      refine congrArg _ (funext fun yes => ?_)
      cases yes <;> rfl
  | _ =>
    have hop : stepOp c stamp _ (top ++ low) = _ <$> _ := stepOp_append low h
    show (stepOp c stamp _ (top ++ low) >>= _) = _ <$> (stepOp c stamp _ top >>= _)
    rw [hop, map_bind, bind_map_left]
    rfl

/-! ## The call of a location -/

/-- The one operation for which the case of a text makes no difference, by what it calls. -/
theorem applyOp_call_tied (hc : c.Alike recached c) (name : String) (args : List Value) :
    Run.Tied Eq (applyOp c (.func none) (.text name :: args))
      (applyOp c (.func none) (.text (uppercased name) :: args)) := by
  have hcall : Run.Tied Eq (callLocation c name args false >>= fun slot => pure (resultValue slot none))
      (callLocation c (uppercased name) args false >>= fun slot => pure (resultValue slot none)) := by
    refine (callLocation_tied hc name args false).bind ?_
    rintro slot _ rfl
    exact tied_pure rfl
  exact hcall

/-- **A location is called by its name in upper case**; the name lies below its arguments. -/
theorem step_call_tied (hc : c.Alike recached c) (hop : i.op = .func none) {args : List Value}
    (hargs : i.argCount = args.length + 1) (name : String) :
    Run.Tied Eq (step c stamp i (args ++ [.text name])) (step c stamp i (args ++ [.text (uppercased name)])) := by
  obtain ⟨op, literal, argCount⟩ := i
  obtain rfl : op = .func none := hop
  obtain rfl : argCount = args.length + 1 := hargs
  have hlen (v : Value) : (args ++ [v]).length = args.length + 1 := by
    rw [List.length_append, List.length_singleton]
  have hcoerce (t : String) : coerceArgs (Op.func none).argType 0 (.text t :: args.reverse)
      = (coerceArgs (Op.func none).argType 1 args.reverse).map (.text t :: ·) := by
    show (coerceArgs (Op.func none).argType 1 args.reverse).bind _ = _
    cases coerceArgs (Op.func none).argType 1 args.reverse <;> rfl
  have hstep (t : String) : stepOp c stamp ⟨.func none, literal, args.length + 1⟩ (args ++ [.text t])
      = (Run.ofExcept ((coerceArgs (Op.func none).argType 1 args.reverse).map (.text t :: ·)) >>= fun vs =>
          applyOp c (.func none) vs >>= fun v => checkMoves stamp >>= fun _ => pure [v]) := by
    unfold stepOp
    rw [if_neg (by rw [hlen]; exact Nat.lt_irrefl _), List.take_of_length_le (Nat.le_of_eq (hlen _)),
      List.drop_of_length_le (Nat.le_of_eq (hlen _)), List.reverse_append, ← hcoerce]
    rfl
  show Run.Tied Eq (stepOp c stamp _ (args ++ [.text name]) >>= _)
    (stepOp c stamp _ (args ++ [.text (uppercased name)]) >>= _)
  refine Run.Tied.bind (R := Eq) ?_ ?_
  · rw [hstep, hstep]
    cases coerceArgs (Op.func none).argType 1 args.reverse with
    | error e => exact tied_fail rfl
    | ok vs =>
      refine (applyOp_call_tied hc name vs).bind ?_
      rintro v _ rfl
      refine Run.Tied.bind (R := Eq) ?_ fun _ _ _ => tied_pure rfl
      exact fun m m' hm => (alike_checkMoves (stamps_recached stamp m)).tied m m' hm
  · rintro s _ rfl
    exact tied_pure rfl

end Machine

/-! ## Stacks -/

/-- Two stacks that agree, but for names that may be in upper case; these lie at the heights `named`. -/
inductive Value.StackRaised (named : Nat → Prop) : List Value → List Value → Prop
  | nil : StackRaised named [] []
  | same (v : Value) {s s' : List Value} (h : StackRaised named s s') : StackRaised named (v :: s) (v :: s')
  | name (t : String) {s s' : List Value} (hn : named s.length) (h : StackRaised named s s') :
    StackRaised named (.text t :: s) (.text (uppercased t) :: s')

namespace Value.StackRaised

variable {named named' : Nat → Prop} {s s' : List Value}

/-- The same values on top of both stacks change nothing below. -/
theorem append (top : List Value) (h : StackRaised named s s') : StackRaised named (top ++ s) (top ++ s') := by
  induction top with
  | nil => exact h
  | cons v top ih => exact .same v ih

/-- It is enough to know which of the values are names. -/
theorem mono (h : StackRaised named s s') (hn : ∀ k < s.length, named k → named' k) : StackRaised named' s s' := by
  induction h with
  | nil => exact .nil
  | same v _ ih => exact .same v (ih fun k hk => hn k (Nat.lt_succ_of_lt hk))
  | name t hlen _ ih =>
    exact .name t (hn _ (Nat.lt_succ_self _) hlen) (ih fun k hk => hn k (Nat.lt_succ_of_lt hk))

/-- Above all the names the stacks are equal. -/
theorem split (h : StackRaised named s s') {p : Nat} (hp : p ≤ s.length) (hn : ∀ k, named k → k + p < s.length) :
    ∃ top low low', s = top ++ low ∧ s' = top ++ low' ∧ top.length = p ∧ StackRaised named low low' := by
  induction h generalizing p with
  | nil => exact ⟨[], [], [], rfl, rfl, (Nat.le_zero.mp hp).symm, .nil⟩
  | @same v s s' h ih =>
    cases p with
    | zero => exact ⟨[], v :: s, v :: s', rfl, rfl, rfl, .same v h⟩
    | succ p =>
      obtain ⟨top, low, low', rfl, rfl, hlen, h⟩ :=
        ih (Nat.le_of_succ_le_succ hp) fun k hk => Nat.lt_of_succ_lt_succ (hn k hk)
      exact ⟨v :: top, low, low', rfl, rfl, congrArg _ hlen, h⟩
  | @name t s s' hlen h ih =>
    cases p with
    | zero => exact ⟨[], _, _, rfl, rfl, rfl, .name t hlen h⟩
    | succ p =>
      have hlt : s.length + (p + 1) < s.length + 1 := hn _ hlen
      omega

/-- Without names the stacks are equal. -/
theorem eq (h : StackRaised named s s') (hn : ∀ k, ¬named k) : s' = s := by
  induction h with
  | nil => rfl
  | same v _ ih => rw [ih]
  | name t hlen => exact absurd hlen (hn _)

end Value.StackRaised

end QuestScript
