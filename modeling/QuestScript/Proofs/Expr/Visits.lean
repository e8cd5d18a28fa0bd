import QuestScript.Proofs.Expr.Counts
import QuestScript.Proofs.Expr.Misread
import QuestScript.Proofs.Expr.Piece

/-!
# Evaluations only go forward

An evaluation is defined by recursion on the list of instructions, and a jump makes it pass over those before
its target. One also thinks of it as a loop with the number of the next instruction (`traceFrom`), which a jump
sets to its target, wherever that is. If every jump leads forward and not beyond the end, the two are the same
(`traceFrom_eq`): the loop comes to each instruction at most once, in order, and so it ends.

Compiled code is of this kind (`compile_inRange`).
-/

namespace QuestScript

open Compiler (Forward)

namespace Machine

/-- Run code from instruction `pc` on, as a loop that ends when it leaves the code. The result comes with the
numbers of the instructions that have been executed. -/
def traceFrom (c : Calls) (stamp : Nat) (code : Code) :
    Nat → Nat → List Value → Machine → List Nat × Outcome Value
  | 0, _, _, _ => ([], .outOfFuel)
  | turns + 1, pc, stack, m =>
    match code[pc]? with
    | none =>
      match stack with
      | v :: _ => ([], .done v m)
      | [] => ([], .failed underflow m)
    | some i =>
      match step c stamp i stack m with
      | .done (stack, target) m =>
        let rest := traceFrom c stamp code turns (target.getD (pc + 1)) stack m
        (pc :: rest.1, rest.2)
      | .failed e m => ([pc], .failed e m)
      | .outOfFuel => ([pc], .outOfFuel)

/-- An evaluation, and the instructions it executes; it has one turn for each of them, and one to end. -/
def trace (c : Calls) (code : Code) (m : Machine) : List Nat × Outcome Value :=
  traceFrom c m.moves code (code.size + 1) 0 [] m

variable {c : Calls} {stamp : Nat} {code : Code}

/-- After an instruction the loop goes on where the evaluation does, and further on. -/
theorem runCode_target (hf : Forward code.toList []) {pc : Nat} {i : Instruction} (hi : code[pc]? = some i)
    {stack stack' : List Value} {target : Option Nat} {m m' : Machine}
    (hstep : step c stamp i stack m = .done (stack', target) m') :
    pc < target.getD (pc + 1) ∧ target.getD (pc + 1) ≤ code.size ∧
      runCode c stamp (pc + 1) (target.getD 0) stack' (code.toList.drop (pc + 1))
        = runCode c stamp (target.getD (pc + 1)) 0 stack' (code.toList.drop (target.getD (pc + 1))) := by
  have hpc : pc < code.size := (Array.getElem?_eq_some_iff.mp hi).1
  cases target with
  | none => exact ⟨Nat.lt_succ_self pc, hpc, rfl⟩
  | some target =>
    obtain ⟨k, hjumps, -⟩ := step_shifts stack hstep
    obtain ⟨hforward, hsize⟩ := hf (Array.getElem?_toList ▸ hi) List.not_mem_nil hjumps
    refine ⟨hforward, hsize, ?_⟩
    -- the instructions before the target are passed over
    have hsplit := List.take_append_drop (target - (pc + 1)) (code.toList.drop (pc + 1))
    rw [List.drop_drop, Nat.add_sub_of_le hforward] at hsplit
    have hlength : target = pc + 1 + ((code.toList.drop (pc + 1)).take (target - (pc + 1))).length := by
      rw [List.length_take, List.length_drop]
      omega
    rw [Option.getD_some, Option.getD_some, ← hsplit, runCode_jump stack' _ hlength, ← hlength]

/-- **The loop does what the evaluation does**, and comes to greater and greater numbers. -/
theorem traceFrom_eq (hf : Forward code.toList []) {turns pc : Nat} (hpc : pc ≤ code.size)
    (hturns : code.size < pc + turns) (stack : List Value) (m : Machine) :
    (traceFrom c stamp code turns pc stack m).2
        = runCode c stamp pc 0 stack (code.toList.drop pc) m ∧
      (traceFrom c stamp code turns pc stack m).1.Pairwise (· < ·) ∧
      ∀ n ∈ (traceFrom c stamp code turns pc stack m).1, pc ≤ n ∧ n < code.size := by
  induction turns generalizing pc stack m with
  | zero => omega
  | succ turns ih =>
    cases hi : code[pc]? with
    | none =>
      have hend : code.toList.drop pc = [] := List.drop_eq_nil_of_le (by simpa using hi)
      rw [hend]
      cases stack with
      | nil =>
        simp only [traceFrom, hi]
        exact ⟨rfl, .nil, nofun⟩
      | cons v stack =>
        simp only [traceFrom, hi]
        exact ⟨rfl, .nil, nofun⟩
    | some i =>
      obtain ⟨hlt, hget⟩ := Array.getElem?_eq_some_iff.mp hi
      have hdrop : code.toList.drop pc = i :: code.toList.drop (pc + 1) := by
        rw [List.drop_eq_getElem_cons (by simpa using hlt), Array.getElem_toList, hget]
      have hrun : runCode c stamp pc 0 stack (code.toList.drop pc) m
          = (step c stamp i stack >>= fun s =>
              runCode c stamp (pc + 1) (s.2.getD 0) s.1 (code.toList.drop (pc + 1))) m := by
        rw [hdrop, runCode_cons stack i _ (Nat.zero_le pc)]
      rw [hrun]
      show _ = Run.andThen _ _ m ∧ _
      simp only [traceFrom, hi, Run.andThen]
      -- when the instruction fails, it is the last one of the trace
      have honly : [pc].Pairwise (· < ·) ∧ ∀ n ∈ [pc], pc ≤ n ∧ n < code.size :=
        ⟨List.pairwise_singleton _ _, List.forall_mem_singleton.mpr ⟨Nat.le_refl pc, hlt⟩⟩
      cases hstep : step c stamp i stack m with
      | failed e m' => exact ⟨rfl, honly⟩
      | outOfFuel => exact ⟨rfl, honly⟩
      | done s m' =>
        obtain ⟨stack', target⟩ := s
        -- the target, if there is one, is ahead, so the trace goes on behind this place
        obtain ⟨hforward, hsize, hgo⟩ := runCode_target hf hi hstep
        obtain ⟨heq, hpairwise, hbounds⟩ := ih hsize (by omega) stack' m'
        have hlater : ∀ n ∈ (traceFrom c stamp code turns (target.getD (pc + 1)) stack' m').1, pc < n :=
          fun n hn => Nat.lt_of_lt_of_le hforward (hbounds n hn).1
        refine ⟨?_, List.pairwise_cons.mpr ⟨hlater, hpairwise⟩, List.forall_mem_cons.mpr ⟨?_, ?_⟩⟩
        · rw [heq, ← hgo]
        · exact ⟨Nat.le_refl pc, hlt⟩
        · exact fun n hn => ⟨Nat.le_of_lt (hlater n hn), (hbounds n hn).2⟩

end Machine

/-- **Compiled code is in range and only jumps forward.** It has at least one instruction and no more than
`maxInstructions`. Each instruction takes as many operands as its operation may, and each jump leads to a later
instruction or to the end. So an evaluation, as a loop that goes where a jump leads, executes instructions
with greater and greater numbers. -/
theorem compile_inRange {source : List Char} {code : Code} (h : compile source = .ok code) :
    (1 ≤ code.size ∧ code.size ≤ maxInstructions) ∧
    (∀ i ∈ code, i.op.info.minArgs ≤ i.argCount ∧ i.argCount ≤ i.op.info.maxArgs) ∧
    (∀ n i target k, code[n]? = some i → i.jumps = some (target, k) →
      n < target ∧ target ≤ code.size) ∧
    ∀ (c : Calls) (m : Machine), (Machine.trace c code m).2 = Machine.evaluate c code m ∧
      (Machine.trace c code m).1.Pairwise (· < ·) ∧
      ∀ n ∈ (Machine.trace c code m).1, n < code.size := by
  obtain ⟨hlegal, hpos⟩ := compile_legal h
  have hforward := compile_forward h
  refine ⟨⟨hpos, hlegal.size_le⟩, fun i hi => ?_, fun n i target k hn hj => ?_, fun c m => ?_⟩
  · obtain ⟨n, hn⟩ := Array.mem_iff_getElem?.mp hi
    exact hlegal.fits hn
  · exact hforward (Array.getElem?_toList ▸ hn) List.not_mem_nil hj
  · obtain ⟨heq, hpairwise, hbounds⟩ := @Machine.traceFrom_eq c m.moves code hforward (code.size + 1) 0
      (Nat.zero_le code.size) (by omega) [] m
    exact ⟨heq, hpairwise, fun n hn => (hbounds n hn).2⟩

/-- A choice with an operator that jumps, a call without arguments and a converted result. -/
theorem compile_inRange_sample :
    ∃ code, compile "IIF(A AND NO B, $FUNC('f', (1, 2)), RND) + C[2]".toList = .ok code ∧
      (1 ≤ code.size ∧ code.size ≤ maxInstructions) ∧
      (∀ n i target k, code[n]? = some i → i.jumps = some (target, k) →
        n < target ∧ target ≤ code.size) ∧
      ∀ (c : Calls) (m : Machine), (Machine.trace c code m).1.Pairwise (· < ·) := by
  have hcompile : (compile "IIF(A AND NO B, $FUNC('f', (1, 2)), RND) + C[2]".toList).toOption.isSome
      = true := by decide +kernel
  obtain ⟨code, hcode⟩ := Option.isSome_iff_exists.mp hcompile
  obtain ⟨hsize, -, hjumps, htrace⟩ := compile_inRange (eq_ok_of_toOption hcode)
  exact ⟨code, eq_ok_of_toOption hcode, hsize, hjumps, fun c m => (htrace c m).2.1⟩

end QuestScript
