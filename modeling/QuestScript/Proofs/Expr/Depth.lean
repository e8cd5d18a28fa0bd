import QuestScript.Proofs.Discipline

/-!
# Depths of the stack

How many values an instruction takes off the stack and puts back, on each way it can go on, and what
it means that a piece of code is balanced: every instruction has a depth that is the same on all
ways to it.

In balanced code every instruction finds its operands. So when an evaluation fails, it is because of
what an instruction did with them (`evaluate_failed_of_balanced`), and none of the errors for a
missing operand is ever met.
-/

namespace QuestScript

namespace Instruction

/-- The number of values an instruction takes off the stack. -/
def pops (i : Instruction) : Nat :=
  match i.op with
  | .push | .format | .lastVar | .jump _ => 0
  | .var => min i.argCount 1
  | .jumpUnless _ | .andJump _ | .orJump _ | .truth | .cast _ => 1
  | _ => i.argCount

/-- The number of values it puts on the stack when it goes on with the next instruction; `none` if
it never does. -/
def falls (i : Instruction) : Option Nat :=
  match i.op with
  | .jump _ => none
  | .jumpUnless _ | .andJump _ | .orJump _ => some 0
  | _ => some 1

/-- Where it may jump to, and the number of values it puts on the stack then. -/
def jumps (i : Instruction) : Option (Nat × Nat) :=
  match i.op with
  | .jump target | .jumpUnless target => some (target, 0)
  | .andJump target | .orJump target => some (target, 1)
  | _ => none

end Instruction

/-- Code whose instructions have depths that agree on all ways through it: it starts with nothing on
the stack, every instruction finds its operands, every jump leads forward, and one value is left at
the end. -/
structure Balanced (code : Code) (depth : Nat → Nat) : Prop where
  start : depth 0 = 0
  enough {n : Nat} {i : Instruction} : code[n]? = some i → i.pops ≤ depth n
  falls {n k : Nat} {i : Instruction} : code[n]? = some i → i.falls = some k →
    depth (n + 1) + i.pops = depth n + k
  jumps {n target k : Nat} {i : Instruction} : code[n]? = some i → i.jumps = some (target, k) →
    n < target ∧ target ≤ code.size ∧ depth target + i.pops = depth n + k
  stop : depth code.size = 1

namespace Machine

variable {c : Calls} {stamp : Nat} {i : Instruction}

/-! ## One instruction -/

/-- A way on from an instruction changes the depth of the stack as the instruction says. -/
def Shifts (i : Instruction) (stack : List Value) : Stepped → Prop
  | (stack', none) => ∃ k, i.falls = some k ∧ stack'.length + i.pops = stack.length + k
  | (stack', some target) =>
    ∃ k, i.jumps = some (target, k) ∧ stack'.length + i.pops = stack.length + k

theorem stepOp_length {stack stack' : List Value} {m m' : Machine}
    (h : stepOp c stamp i stack m = .done stack' m') :
    stack'.length + i.argCount = stack.length + 1 := by
  unfold stepOp at h
  by_cases hlt : stack.length < i.argCount
  · rw [if_pos hlt] at h
    cases h
  · rw [if_neg hlt] at h
    obtain ⟨args, m₁, -, h₁⟩ := Run.bind_eq_done h
    obtain ⟨v, m₂, -, h₂⟩ := Run.bind_eq_done h₁
    have hstack : stack' = v :: stack.drop i.argCount := by
      by_cases hr : i.op.mayRefresh = true
      · simp only [if_pos hr] at h₂
        obtain ⟨_, m₃, -, h₃⟩ := Run.bind_eq_done h₂
        cases h₃
        rfl
      · simp only [if_neg hr] at h₂
        cases h₂
        rfl
    rw [hstack, List.length_cons, List.length_drop]
    omega

/-- What an instruction does to the depth of the stack, whichever way it takes. -/
theorem step_shifts (stack : List Value) {m m' : Machine} {s : Stepped}
    (h : step c stamp i stack m = .done s m') : Shifts i stack s := by
  obtain ⟨op, literal, argCount⟩ := i
  cases op with
  | push | jump =>
    cases h
    exact ⟨_, rfl, rfl⟩
  | format | lastVar =>
    obtain ⟨_, m₁, -, h₁⟩ := Run.bind_eq_done h
    obtain ⟨_, m₂, -, h₂⟩ := Run.bind_eq_done h₁
    cases h₂
    exact ⟨1, rfl, rfl⟩
  | var =>
    match argCount, stack with
    | 0, stack =>
      obtain ⟨_, m₁, -, h₁⟩ := Run.bind_eq_done h
      obtain ⟨_, m₂, -, h₂⟩ := Run.bind_eq_done h₁
      cases h₂
      exact ⟨1, rfl, rfl⟩
    | _ + 1, [] => cases h
    | n + 1, v :: stack =>
      obtain ⟨_, m₁, -, h₁⟩ := Run.bind_eq_done h
      obtain ⟨_, m₂, -, h₂⟩ := Run.bind_eq_done h₁
      cases h₂
      refine ⟨1, rfl, ?_⟩
      simp [Instruction.pops]
  | jumpUnless | andJump | orJump =>
    match stack with
    | [] => cases h
    | v :: stack =>
      obtain ⟨yes, m₁, -, h₁⟩ := Run.bind_eq_done h
      cases yes with
      | true => cases h₁; exact ⟨_, rfl, rfl⟩
      | false => cases h₁; exact ⟨_, rfl, rfl⟩
  | truth | cast =>
    match stack with
    | [] => cases h
    | v :: stack =>
      obtain ⟨_, m₁, -, h₁⟩ := Run.bind_eq_done h
      cases h₁
      exact ⟨1, rfl, rfl⟩
  | _ =>
    obtain ⟨stack', m₁, h₁, h₂⟩ := Run.bind_eq_done h
    cases h₂
    exact ⟨1, rfl, stepOp_length h₁⟩

/-- An instruction that does not find its operands fails. -/
theorem step_of_lt_pops {stack : List Value} (h : stack.length < i.pops) :
    step c stamp i stack = Run.fail underflow := by
  obtain ⟨op, literal, argCount⟩ := i
  cases op with
  | push | jump | format | lastVar => cases h
  | var =>
    match argCount, stack with
    | 0, _ => cases h
    | n + 1, [] => rfl
    | n + 1, v :: stack =>
      simp only [Instruction.pops, List.length_cons] at h
      omega
  | jumpUnless | andJump | orJump | truth | cast =>
    match stack with
    | [] => rfl
    | v :: stack =>
      simp only [Instruction.pops, List.length_cons] at h
      omega
  | _ =>
    replace h : stack.length < argCount := h
    show (stepOp c stamp _ stack >>= _) = _
    rw [stepOp, if_pos h]
    rfl

/-! ## Whole expressions -/

/-- The places an evaluation that starts in `m` comes to: the number of the next instruction, and
the stack and the machine it finds. -/
inductive Reaches (c : Calls) (code : Code) (m : Machine) : Nat → List Value → Machine → Prop
  | start : Reaches c code m 0 [] m
  | step {n : Nat} {stack : List Value} {m₁ m₂ : Machine} {i : Instruction} {s : Stepped}
    (h : Reaches c code m n stack m₁) (hi : code[n]? = some i)
    (hs : step c m.moves i stack m₁ = .done s m₂) :
    Reaches c code m (max (n + 1) (s.2.getD 0)) s.1 m₂

variable {code : Code} {m : Machine}

/-- An evaluation fails at an instruction it comes to, or at the end when no value is left. -/
theorem runCode_failed {pc resume : Nat} {stack : List Value} {rest : List Instruction}
    {m₁ m' : Machine} {e : Error} (hreach : Reaches c code m (max pc resume) stack m₁)
    (hrest : code.toList.drop pc = rest)
    (h : runCode c m.moves pc resume stack rest m₁ = .failed e m') :
    ∃ n stack₂ m₂, Reaches c code m n stack₂ m₂ ∧
      ((∃ i, code[n]? = some i ∧ step c m.moves i stack₂ m₂ = .failed e m') ∨
        code.size ≤ n ∧ stack₂ = [] ∧ e = underflow) := by
  -- the evaluation stands at `max pc resume`; what comes before that is only passed by
  induction rest generalizing pc resume stack m₁ with
  | nil =>
    have hend : code.size ≤ pc := by simpa using hrest
    cases stack with
    | nil =>
      cases h
      exact ⟨_, [], _, hreach, .inr ⟨Nat.le_trans hend (Nat.le_max_left _ _), rfl, rfl⟩⟩
    | cons v stack => cases h
  | cons i rest ih =>
    have hlt : pc < code.toList.length := by
      refine Nat.lt_of_not_le fun hge => ?_
      rw [List.drop_eq_nil_of_le hge] at hrest
      cases hrest
    rw [List.drop_eq_getElem_cons hlt] at hrest
    obtain ⟨rfl, hrest'⟩ := List.cons.inj hrest
    have hi : code[pc]? = some code.toList[pc] := by
      rw [← Array.getElem?_toList]
      exact List.getElem?_eq_getElem hlt
    rw [runCode] at h
    by_cases hskip : pc < resume
    · rw [if_pos hskip] at h
      rw [Nat.max_eq_right (Nat.le_of_lt hskip)] at hreach
      refine ih ?_ hrest' h
      rw [Nat.max_eq_right hskip]
      exact hreach
    · rw [if_neg hskip] at h
      rw [Nat.max_eq_left (Nat.not_lt.mp hskip)] at hreach
      rcases Run.bind_eq_failed h with hstep | ⟨⟨stack', target⟩, m₂, hstep, h₁⟩
      · exact ⟨pc, stack, m₁, hreach, .inl ⟨_, hi, hstep⟩⟩
      · exact ih (hreach.step hi hstep) hrest' h₁

/-- In balanced code an instruction takes a stack as deep as it should be to another one. -/
theorem Shifts.length_eq {depth : Nat → Nat} {n : Nat} {stack : List Value} {s : Stepped} (h : Shifts i stack s)
    (hb : Balanced code depth) (hi : code[n]? = some i) (hlen : stack.length = depth n) :
    max (n + 1) (s.2.getD 0) ≤ code.size ∧ s.1.length = depth (max (n + 1) (s.2.getD 0)) := by
  have hlt : n < code.size := (Array.getElem?_eq_some_iff.mp hi).1
  obtain ⟨stack', target⟩ := s
  cases target with
  | none =>
    obtain ⟨k, hfalls, hlen'⟩ := h
    have hdepth := hb.falls hi hfalls
    rw [Option.getD_none, Nat.max_zero]
    refine ⟨hlt, ?_⟩
    show stack'.length = depth (n + 1)
    omega
  | some target =>
    obtain ⟨k, hjumps, hlen'⟩ := h
    obtain ⟨hforward, hsize, hdepth⟩ := hb.jumps hi hjumps
    rw [Option.getD_some, Nat.max_eq_right hforward]
    refine ⟨hsize, ?_⟩
    show stack'.length = depth target
    omega

/-- In balanced code the stack is always as deep as the depth of the place says. -/
theorem Reaches.length_eq {depth : Nat → Nat} {n : Nat} {stack : List Value} {m₁ : Machine}
    (h : Reaches c code m n stack m₁) (hb : Balanced code depth) :
    n ≤ code.size ∧ stack.length = depth n := by
  induction h with
  | start => exact ⟨Nat.zero_le _, hb.start.symm⟩
  | @step n stack m₁ m₂ i s _ hi hs ih => exact (step_shifts stack hs).length_eq hb hi ih.2

/-- An evaluation of balanced code fails only at an instruction that has found all its operands. -/
theorem evaluate_failed_of_balanced {depth : Nat → Nat} (hb : Balanced code depth) {m' : Machine}
    {e : Error} (h : evaluate c code m = .failed e m') :
    ∃ n i stack m₁, Reaches c code m n stack m₁ ∧ code[n]? = some i ∧ i.pops ≤ stack.length ∧
      step c m.moves i stack m₁ = .failed e m' := by
  replace h : runCode c m.moves 0 0 [] code.toList m = .failed e m' := h
  obtain ⟨n, stack, m₁, hreach, ⟨i, hi, hstep⟩ | ⟨hend, rfl, -⟩⟩ := runCode_failed .start rfl h
  · refine ⟨n, i, stack, m₁, hreach, hi, ?_, hstep⟩
    rw [(hreach.length_eq hb).2]
    exact hb.enough hi
  · obtain ⟨hle, hlen⟩ := hreach.length_eq hb
    rw [Nat.le_antisymm hle hend, hb.stop] at hlen
    cases hlen

end Machine

end QuestScript
