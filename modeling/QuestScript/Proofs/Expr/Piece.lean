import QuestScript.Proofs.Expr.Tree
import QuestScript.Proofs.Frame

/-!
# Pieces of code

A piece of a compiled expression computes a run if executing it amounts to doing the run and putting
its result on the stack, whatever is on the stack already and whatever follows. `Computes` says so
for one value and `ComputesAll` for several.

Both know the number of the first instruction, because jumps lead to numbers. A jump to the end of
its piece leaves the machine as falling through does (`runCode_resume`), so a piece never shows from
the outside which way was taken.

A run that gives a result has not changed the location (`frame`), so the checks for that after calls
never fail here.
-/

namespace QuestScript

/-- Two continuations of a run that agree wherever the location is the same. -/
theorem Run.bind_congr_moves {α β : Type} {x : Run α} (hx : x.Obeys frame) {f g : α → Run β}
    {m : Machine} (h : ∀ a m', m'.moves = m.moves → f a m' = g a m') :
    (x >>= f) m = (x >>= g) m := by
  have hm := hx m
  show x.andThen f m = x.andThen g m
  unfold andThen
  cases hr : x m with
  | done a m' => rw [hr] at hm; exact h a m' hm.1
  | failed e m' => rfl
  | outOfFuel => rfl

namespace Machine

variable {c : Calls}

/-! ## Jumps -/

/-- Instructions before the target of a jump are passed by. -/
theorem runCode_skip {stamp pc resume : Nat} {piece : List Instruction} (stack : List Value)
    (rest : List Instruction) (h : pc + piece.length ≤ resume) :
    runCode c stamp pc resume stack (piece ++ rest)
      = runCode c stamp (pc + piece.length) resume stack rest := by
  induction piece generalizing pc with
  | nil => rfl
  | cons i piece ih =>
    rw [List.length_cons] at h ⊢
    rw [List.cons_append, runCode, if_pos (by omega), ih (by omega)]
    congr 1
    omega

/-- A jump that has reached its target is over. -/
theorem runCode_resume {stamp pc resume : Nat} (stack : List Value) (code : List Instruction)
    (h : resume ≤ pc) :
    runCode c stamp pc resume stack code = runCode c stamp pc 0 stack code := by
  cases code with
  | nil => rfl
  | cons i rest => rw [runCode, runCode, if_neg (by omega), if_neg (by omega)]

/-- A jump over a piece goes on after it. -/
theorem runCode_jump {stamp pc target : Nat} {piece : List Instruction} (stack : List Value)
    (rest : List Instruction) (h : target = pc + piece.length) :
    runCode c stamp pc target stack (piece ++ rest)
      = runCode c stamp (pc + piece.length) 0 stack rest := by
  rw [runCode_skip stack rest (Nat.le_of_eq h.symm), runCode_resume stack rest (Nat.le_of_eq h)]

/-- An instruction that is not passed by is executed. -/
theorem runCode_cons {stamp pc resume : Nat} (stack : List Value) (i : Instruction)
    (rest : List Instruction) (h : resume ≤ pc) :
    runCode c stamp pc resume stack (i :: rest)
      = (step c stamp i stack >>= fun s =>
          runCode c stamp (pc + 1) (s.2.getD 0) s.1 rest) := by
  rw [runCode, if_neg (by omega)]

/-! ## Operations -/

/-- Whether an instruction with this operation takes all its operands from the stack, converts them
and puts one result back. -/
def operates : Op → Bool
  | .push | .format | .var | .lastVar | .jump _ | .jumpUnless _ | .andJump _ | .orJump _ | .truth
  | .cast _ => false
  | _ => true

theorem operates_of_isFunction {op : Op} (h : op.isFunction = true) : operates op = true := by
  cases op <;> first | rfl | cases h

theorem step_of_operates {stamp : Nat} {i : Instruction} (stack : List Value)
    (h : operates i.op = true) :
    step c stamp i stack = (stepOp c stamp i stack >>= fun s => pure (s, none)) := by
  unfold step
  split <;> simp_all [operates]

theorem operate_obeys (hc : c.Obey frame) (op : Op) (vs : List Value) :
    (Expr.operate c op vs).Obeys frame :=
  (Run.obeys_ofExcept _).bind fun args => applyOp_obeys hc op args

/-- An operation finds its operands on top of the stack, the last one first. -/
theorem stepOp_operate (hc : c.Obey frame) {stamp : Nat} {i : Instruction} {vs : List Value}
    (stack : List Value) (hvs : vs.length = i.argCount) {m : Machine} (hm : m.moves = stamp) :
    stepOp c stamp i (vs.reverse ++ stack) m
      = (Expr.operate c i.op vs >>= fun v => pure (v :: stack)) m := by
  have hlen : vs.reverse.length = i.argCount := by rw [List.length_reverse, hvs]
  unfold stepOp Expr.operate
  rw [if_neg (by rw [List.length_append]; omega), List.take_left' hlen, List.drop_left' hlen,
    List.reverse_reverse, bind_assoc]
  refine Run.bind_congr_moves (Run.obeys_ofExcept _) fun args m₁ h₁ => ?_
  refine Run.bind_congr_moves (applyOp_obeys hc i.op args) fun v m₂ h₂ => ?_
  split
  · -- the location is the same as before the operation
    have hcheck := Run.checkMoves_of_eq (h₂.trans (h₁.trans hm))
    show Run.andThen (Run.checkMoves stamp) _ m₂ = _
    rw [Run.andThen, hcheck]
  · rfl

/-! ## Pieces that put one value on the stack -/

/-- Executing the piece, whose first instruction has number `base`, is doing the run and putting its
result on the stack. -/
structure Computes (c : Calls) (base : Nat) (piece : List Instruction) (x : Run Value) : Prop where
  keeps : x.Obeys frame
  run {stamp resume : Nat} {m : Machine} (stack : List Value) (rest : List Instruction) :
    resume ≤ base → m.moves = stamp →
    runCode c stamp base resume stack (piece ++ rest) m
      = (x >>= fun v => runCode c stamp (base + piece.length) 0 (v :: stack) rest) m

/-- Executing the piece puts the results of the run on the stack, of which there are `count`. -/
structure ComputesAll (c : Calls) (base : Nat) (piece : List Instruction) (count : Nat)
    (xs : Run (List Value)) : Prop where
  keeps : xs.Obeys frame
  length_eq {m m' : Machine} {vs : List Value} : xs m = .done vs m' → vs.length = count
  run {stamp resume : Nat} {m : Machine} (stack : List Value) (rest : List Instruction) :
    resume ≤ base → m.moves = stamp →
    runCode c stamp base resume stack (piece ++ rest) m
      = (xs >>= fun vs =>
          runCode c stamp (base + piece.length) 0 (vs.reverse ++ stack) rest) m

variable {base : Nat}

/-- One instruction that puts a value on the stack. -/
theorem Computes.single {i : Instruction} {x : Run Value} (hx : x.Obeys frame)
    (h : ∀ {stamp : Nat} {m : Machine} (stack : List Value), m.moves = stamp →
      step c stamp i stack m = (x >>= fun v => pure (v :: stack, none)) m) :
    Computes c base [i] x where
  keeps := hx
  run stack rest hr hm := by
    rw [List.singleton_append, runCode_cons stack i rest hr]
    show Run.andThen (step c _ i stack) _ _ = _
    rw [Run.andThen, h stack hm]
    show ((x >>= fun v => pure (v :: stack, none)) >>= _) _ = _
    rw [bind_assoc]
    rfl

/-- A piece and an instruction that replaces its value by another. -/
theorem Computes.replace {piece : List Instruction} {i : Instruction} {x : Run Value}
    {f : Value → Run Value} (hx : Computes c base piece x) (hf : ∀ v, (f v).Obeys frame)
    (h : ∀ (stamp : Nat) (v : Value) (stack : List Value),
      step c stamp i (v :: stack) = (f v >>= fun w => pure (w :: stack, none))) :
    Computes c base (piece ++ [i]) (x >>= f) where
  keeps := hx.keeps.bind hf
  run stack rest hr hm := by
    rw [List.append_assoc, hx.run stack _ hr hm, bind_assoc]
    refine Run.bind_congr_moves hx.keeps fun v m₁ h₁ => ?_
    rw [List.singleton_append, runCode_cons _ i rest (Nat.zero_le _), h, bind_assoc,
      List.length_append]
    rfl

/-! ## Pieces that put several values on the stack -/

theorem ComputesAll.nil : ComputesAll c base [] 0 (pure []) where
  keeps := Run.obeys_pure _
  length_eq h := by cases h; rfl
  run stack rest hr hm := by
    rw [List.nil_append, runCode_resume stack rest hr]
    rfl

theorem ComputesAll.cons {piece pieces : List Instruction} {count : Nat} {x : Run Value}
    {xs : Run (List Value)} (hx : Computes c base piece x)
    (hxs : ComputesAll c (base + piece.length) pieces count xs) :
    ComputesAll c base (piece ++ pieces) (count + 1) (do
      let v ← x
      let vs ← xs
      return v :: vs) where
  keeps := hx.keeps.bind fun _ => hxs.keeps.bind fun _ => Run.obeys_pure _
  length_eq h := by
    obtain ⟨v, m₁, -, h₁⟩ := Run.bind_eq_done h
    obtain ⟨vs, m₂, h₂, h₃⟩ := Run.bind_eq_done h₁
    cases h₃
    rw [List.length_cons, hxs.length_eq h₂]
  run stack rest hr hm := by
    rw [List.append_assoc, hx.run stack _ hr hm, bind_assoc]
    refine Run.bind_congr_moves hx.keeps fun v m₁ h₁ => ?_
    rw [hxs.run _ rest (Nat.zero_le _) (h₁.trans hm), bind_assoc]
    refine Run.bind_congr_moves hxs.keeps fun vs m₂ h₂ => ?_
    rw [List.length_append, ← Nat.add_assoc]
    show _ = runCode c _ _ 0 ((v :: vs).reverse ++ stack) rest m₂
    rw [List.reverse_cons, List.append_assoc]
    rfl

/-- The operands of an operation and the operation. -/
theorem ComputesAll.operate {piece : List Instruction} {count : Nat} {xs : Run (List Value)}
    (hc : c.Obey frame) (hxs : ComputesAll c base piece count xs) {i : Instruction}
    (ho : operates i.op = true) (hi : i.argCount = count) :
    Computes c base (piece ++ [i]) (xs >>= Expr.operate c i.op) where
  keeps := hxs.keeps.bind fun vs => operate_obeys hc i.op vs
  run {stamp resume m} stack rest hr hm := by
    rw [List.append_assoc, hxs.run stack _ hr hm, bind_assoc]
    show Run.andThen xs _ m = Run.andThen xs _ m
    unfold Run.andThen
    have hkeeps := hxs.keeps m
    cases hx : xs m with
    | failed e m' => rfl
    | outOfFuel => rfl
    | done vs m' =>
      rw [hx] at hkeeps
      have hlen : vs.length = i.argCount := (hxs.length_eq hx).trans hi.symm
      have hstep := stepOp_operate hc stack hlen (hkeeps.1.trans hm)
      show runCode c stamp _ 0 (vs.reverse ++ stack) ([i] ++ rest) m' = _
      rw [List.singleton_append, runCode_cons _ i rest (Nat.zero_le _), step_of_operates _ ho,
        bind_assoc]
      show Run.andThen (stepOp c stamp i _) _ m' = _
      rw [Run.andThen, hstep, List.length_append]
      show ((Expr.operate c i.op vs >>= fun v => pure (v :: stack)) >>= _) m' = _
      rw [bind_assoc]
      rfl

/-! ## Single values -/

/-- A literal. -/
theorem computes_push (v : Value) : Computes c base [{ op := .push, literal := some v }] (pure v) :=
  .single (Run.obeys_pure v) fun _ _ => rfl

/-- A text whose expressions are replaced by their values. -/
theorem computes_format (hc : c.Obey frame) (s : String) :
    Computes c base [{ op := .format, literal := some (.text s) }]
      (Value.text <$> formatText c s) := by
  refine .single ((formatText_obeys hc s).map _) fun {stamp m} stack hm => ?_
  rw [map_eq_pure_bind, bind_assoc]
  refine Run.bind_congr_moves (formatText_obeys hc s) fun text m₁ h₁ => ?_
  have hcheck := Run.checkMoves_of_eq (h₁.trans hm)
  show Run.andThen (Run.checkMoves stamp) _ m₁ = _
  rw [Run.andThen, hcheck]
  rfl

/-- A variable without an index. -/
theorem computes_var (s : String) :
    Computes c base [{ op := .var, literal := some (.text s) }] (do
      let n ← Run.name s.toList
      Run.read (·.vars.get n (.number 0))) :=
  .single ((Run.obeys_name _).bind fun _ => Run.obeys_read _) fun stack _ => by
    rw [bind_assoc]
    rfl

/-- An index and the variable it is for. -/
theorem Computes.item {piece : List Instruction} {x : Run Value} (hx : Computes c base piece x)
    (s : String) :
    Computes c base (piece ++ [{ op := .var, literal := some (.text s), argCount := 1 }]) (do
      let v ← x
      let n ← Run.name s.toList
      Run.read (·.vars.get n v)) :=
  hx.replace (fun _ => (Run.obeys_name _).bind fun _ => Run.obeys_read _) fun stamp v stack => by
    rw [bind_assoc]
    rfl

/-- The conversion a name asks for. -/
theorem Computes.convert {piece : List Instruction} {x : Run Value} (hx : Computes c base piece x)
    (ty : ValueType) :
    Computes c base (piece ++ [{ op := .cast ty, argCount := 1 }])
      (x >>= fun v => Expr.convert v (some ty)) :=
  hx.replace (fun _ => Run.obeys_ofExcept _) fun _ _ _ => rfl

theorem truth_obeys (v : Value) : (Expr.truth v).Obeys frame := Run.obeys_ofExcept _

/-- The truth of a value as a number. -/
theorem Computes.truth {piece : List Instruction} {x : Run Value} (hx : Computes c base piece x) :
    Computes c base (piece ++ [{ op := .truth, argCount := 1 }])
      (Value.ofBool <$> (x >>= Expr.truth)) := by
  have h := hx.replace (i := { op := .truth, argCount := 1 })
    (fun v => (truth_obeys v).map Value.ofBool)
    fun stamp v stack => by
      rw [map_eq_pure_bind, bind_assoc]
      rfl
  rw [map_eq_pure_bind, bind_assoc]
  simpa only [map_eq_pure_bind] using h

/-! ## Values that are not always needed -/

/-- A value whose truth decides whether a second piece is needed: if not, the jump over it leaves
another value in its place. -/
theorem Computes.shortcut {left right : List Instruction} {i : Instruction} {x y : Run Value}
    {target : Nat} {w : Value} (go : Bool → Bool) (hx : Computes c base left x)
    (hy : Computes c (base + left.length + 1) right y)
    (ht : target = base + left.length + 1 + right.length)
    (hi : ∀ (stamp : Nat) (v : Value) (stack : List Value),
      step c stamp i (v :: stack) = (Expr.truth v >>= fun yes =>
        pure (if go yes then (stack, none) else (w :: stack, some target)))) :
    Computes c base (left ++ i :: right)
      (x >>= fun v => Expr.truth v >>= fun yes => if go yes then y else pure w) where
  keeps := hx.keeps.bind fun v => (truth_obeys v).bind fun _ =>
    Run.obeys_ite hy.keeps (Run.obeys_pure _)
  run {stamp resume m} stack rest hr hm := by
    rw [List.append_assoc, hx.run stack _ hr hm, bind_assoc]
    refine Run.bind_congr_moves hx.keeps fun v m₁ h₁ => ?_
    rw [List.cons_append, runCode_cons _ _ _ (Nat.zero_le _), hi, bind_assoc, bind_assoc]
    refine Run.bind_congr_moves (truth_obeys v) fun yes m₂ h₂ => ?_
    have hlen : base + (left ++ i :: right).length = base + left.length + 1 + right.length := by
      rw [List.length_append, List.length_cons]
      omega
    rw [pure_bind, hlen]
    cases go yes with
    | true => exact hy.run stack rest (Nat.zero_le _) (h₂.trans (h₁.trans hm))
    | false => exact congrFun (runCode_jump (w :: stack) rest ht) m₂

/-- `AND`: the right side decides if the left side is true. -/
theorem Computes.and {left right : List Instruction} {x y : Run Value} {target : Nat}
    (hx : Computes c base left x) (hy : Computes c (base + left.length + 1) right y)
    (ht : target = base + left.length + 1 + (right.length + 1)) :
    Computes c base
      (left ++ { op := .andJump target } :: (right ++ [{ op := .truth, argCount := 1 }]))
      (do if ← Expr.truth (← x) then Value.ofBool <$> (y >>= Expr.truth)
          else pure (.ofBool false)) :=
  hx.shortcut id hy.truth (by simpa using ht) fun _ _ _ => rfl

/-- `OR`: the right side decides if the left side is false. -/
theorem Computes.or {left right : List Instruction} {x y : Run Value} {target : Nat}
    (hx : Computes c base left x) (hy : Computes c (base + left.length + 1) right y)
    (ht : target = base + left.length + 1 + (right.length + 1)) :
    Computes c base
      (left ++ { op := .orJump target } :: (right ++ [{ op := .truth, argCount := 1 }]))
      (do if ← Expr.truth (← x) then pure (.ofBool true)
          else Value.ofBool <$> (y >>= Expr.truth)) := by
  have h := hx.shortcut (i := { op := .orJump target }) (w := .ofBool true) not hy.truth
    (by simpa using ht) fun stamp v stack => by
      refine congrArg (Expr.truth v >>= ·) (funext fun yes => ?_)
      cases yes <;> rfl
  refine Eq.mp (congrArg (Computes c base _) ?_) h
  refine congrArg (x >>= ·) (funext fun v => congrArg (Expr.truth v >>= ·) (funext fun yes => ?_))
  cases yes <;> rfl

/-- The choice between two values: a jump to the second one behind the condition, and one over it
behind the first one. -/
theorem Computes.iif {test yes no : List Instruction} {x y z : Run Value} {first second : Nat}
    (hx : Computes c base test x) (hy : Computes c (base + test.length + 1) yes y)
    (hz : Computes c (base + test.length + 1 + yes.length + 1) no z)
    (h₁ : first = base + test.length + 1 + yes.length + 1) (h₂ : second = first + no.length) :
    Computes c base
      (test ++ { op := .jumpUnless first } :: (yes ++ { op := .jump second } :: no))
      (do if ← Expr.truth (← x) then y else z) where
  keeps := hx.keeps.bind fun v => (truth_obeys v).bind fun _ => Run.obeys_ite hy.keeps hz.keeps
  run {stamp resume m} stack rest hr hm := by
    rw [List.append_assoc, hx.run stack _ hr hm, bind_assoc]
    refine Run.bind_congr_moves hx.keeps fun v m₁ hm₁ => ?_
    rw [List.cons_append, runCode_cons _ _ _ (Nat.zero_le _), bind_assoc]
    show ((Expr.truth v >>= fun b => pure (stack, if b then none else some first)) >>= _) m₁ = _
    rw [bind_assoc]
    refine Run.bind_congr_moves (truth_obeys v) fun b m₂ hm₂ => ?_
    have hmoves := hm₂.trans (hm₁.trans hm)
    have hlen : base + (test ++ { op := .jumpUnless first } ::
        (yes ++ { op := .jump second } :: no)).length
        = base + test.length + 1 + yes.length + 1 + no.length := by
      simp only [List.length_append, List.length_cons]
      omega
    rw [pure_bind, hlen, List.append_assoc, List.cons_append]
    cases b with
    | true =>
      show runCode c stamp _ 0 stack (yes ++ _) m₂ = (y >>= _) m₂
      rw [hy.run stack _ (Nat.zero_le _) hmoves]
      refine Run.bind_congr_moves hy.keeps fun w m₃ hm₃ => ?_
      rw [runCode_cons _ _ _ (Nat.zero_le _)]
      exact congrFun (runCode_jump (w :: stack) rest (h₂.trans (by rw [h₁]))) m₃
    | false =>
      have hjump : runCode c stamp (base + test.length + 1) first stack
          (yes ++ [{ op := .jump second }] ++ (no ++ rest)) = _ :=
        runCode_jump stack (no ++ rest) (by rw [List.length_append]; exact h₁)
      rw [List.append_assoc, List.length_append] at hjump
      show runCode c stamp _ first stack (yes ++ ([{ op := .jump second }] ++ (no ++ rest))) m₂ = _
      rw [hjump]
      exact hz.run stack rest (Nat.zero_le _) hmoves

end Machine

end QuestScript
