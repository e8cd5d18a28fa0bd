import QuestScript.Proofs.Case.Eval

/-!
# An expression means the same in upper case

Before a line is read, everything in it that stands outside of literals and blocks is put into upper case. An
expression that ends outside of them means the same then: it is evaluated to the same value, or fails with an
error of the same kind, and leaves the same machine but for the expressions that are kept compiled
(`eval_prepare`).

There is one exception. Where a group is misread as the brackets of a function in front of it
(`Token.misread`), the function takes a value too many, and when that is the name of a location, an evaluation
can tell whether the name is in upper case (`eval_prepare_misread`).
-/

namespace QuestScript

open Text (uppercased)
open Compiler (Kept)

variable {code : Code} {depth : Nat → Nat} {marks : List Nat} {c : Calls} {stamp n k q f : Nat}
  {i : Instruction} {stack stack' : List Value}

namespace Machine

/-! ## Names on the stack -/

/-- The heights at which names lie on the stack before instruction `n`. -/
def Names (code : Code) (depth : Nat → Nat) (marks : List Nat) (n k : Nat) : Prop :=
  ∃ q ∈ marks, ∃ f, Kept code.toList [] depth q f ∧ q < n ∧ n ≤ f ∧ depth q = k

/-- Instruction `n` is not the call that takes a name at height `k`. -/
def Spares (code : Code) (depth : Nat → Nat) (n k : Nat) : Prop :=
  ∀ q, Kept code.toList [] depth q n → depth q ≠ k

theorem Spares.lt (h : Spares code depth n (depth q)) (hk : Kept code.toList [] depth q f) (hle : n ≤ f) :
    n < f := by
  refine Nat.lt_of_le_of_ne hle ?_
  rintro rfl
  exact h q hk rfl

/-- A name that is not taken lies below the operands. -/
theorem Names.lt_of_spares (h : Names code depth marks n k) (hspares : Spares code depth n k)
    (hi : code[n]? = some i) : k + 1 + i.pops ≤ depth n := by
  obtain ⟨q, -, f, hk, hqn, hle, rfl⟩ := h
  exact hk.spared hqn (hspares.lt hk hle) (by rwa [Array.getElem?_toList])

/-- It still lies there after the instruction. -/
theorem Names.next {s : Stepped} (h : Names code depth marks n k) (hspares : Spares code depth n k)
    (hi : code[n]? = some i) (hs : Shifts i stack s) :
    Names code depth marks (max (n + 1) (s.2.getD 0)) k := by
  obtain ⟨q, hmark, f, hk, hqn, hle, rfl⟩ := h
  have hnf := hspares.lt hk hle
  refine ⟨q, hmark, f, hk, by omega, ?_, rfl⟩
  obtain ⟨stack', target⟩ := s
  cases target with
  | none =>
    rw [Option.getD_none, Nat.max_zero]
    exact hnf
  | some target =>
    obtain ⟨l, hjumps, -⟩ := hs
    have hforward := hk.jumps hqn hnf (by rwa [Array.getElem?_toList]) hjumps
    rw [Option.getD_some]
    omega

/-- The call at `n` takes a name that lies `i.argCount` below the top of the stack. -/
theorem depth_eq_of_kept (hk : Kept code.toList [] depth q n) (hi : code[n]? = some i) :
    i.op = .func none ∧ 1 ≤ i.argCount ∧ depth n = depth q + i.argCount := by
  obtain ⟨i', hi', hcall⟩ := hk.call
  rw [Array.getElem?_toList, hi] at hi'
  cases hi'
  exact hcall

/-- It takes no other name. -/
theorem spares_of_ne (hkept : Kept code.toList [] depth q n) (hne : k ≠ depth q) : Spares code depth n k := by
  rintro q' hk' rfl
  obtain ⟨i, hi, -⟩ := hkept.call
  rw [Array.getElem?_toList] at hi
  have := (depth_eq_of_kept hkept hi).2.2
  have := (depth_eq_of_kept hk' hi).2.2
  omega

/-! ## Instructions -/

/-- The stacks after an instruction, which agree but for the names that lie there. -/
def StepNames (code : Code) (depth : Nat → Nat) (marks : List Nat) (n : Nat) (s s' : Stepped) : Prop :=
  s'.2 = s.2 ∧ Value.StackRaised (Names code depth marks (max (n + 1) (s.2.getD 0))) s.1 s'.1

/-- An instruction that does the same on top, above names that it does not take. -/
theorem step_above_tied {i' : Instruction} {top top' low low' : List Value} (hpops : i.pops ≤ top.length)
    (hpops' : i'.pops ≤ top'.length) (hstep : Run.Tied Eq (step c stamp i top) (step c stamp i' top'))
    (hlow : Value.StackRaised (Names code depth marks n) low low') (hi : code[n]? = some i)
    (hspares : ∀ k < low.length, Spares code depth n k) :
    Run.Tied (StepNames code depth marks n) (step c stamp i (top ++ low)) (step c stamp i' (top' ++ low')) := by
  rw [step_append low hpops, step_append low' hpops']
  have hshifts : Run.Tied (fun s s' => s' = s ∧ Shifts i top s) (step c stamp i top) (step c stamp i' top') :=
    hstep.imp fun _ _ _ _ hs heq => ⟨heq.symm, step_shifts top hs⟩
  refine hshifts.bind fun s s' hs => ?_
  obtain ⟨rfl, hs⟩ := hs
  refine Run.tied_pure ⟨rfl, Value.StackRaised.append s'.1 (hlow.mono fun k hk hnames => ?_)⟩
  exact hnames.next (hspares k hk) hi (s := s') hs

/-- The call of a location takes its name. -/
theorem step_kept_tied (hc : c.Alike recached c) (hkept : Kept code.toList [] depth q n)
    (hi : code[n]? = some i) (hlen : stack.length = depth n)
    (h : Value.StackRaised (Names code depth marks n) stack stack') (marked : Bool) :
    Run.Tied (StepNames code depth marks n) (step c stamp i stack) (step c stamp (i.raised marked) stack') := by
  obtain ⟨hop, hone, hdepth⟩ := depth_eq_of_kept hkept hi
  have hpops : i.pops = i.argCount := by rw [Instruction.pops, hop]
  -- its arguments lie above all names
  obtain ⟨args, low, low', rfl, rfl, hargs, hlow⟩ := h.split (p := i.argCount - 1) (by omega) fun k hnames => by
    by_cases hk : k = depth q
    · omega
    · have := hnames.lt_of_spares (spares_of_ne hkept hk) hi
      omega
  rw [List.length_append] at hlen
  have hcount : i.argCount = args.length + 1 := by omega
  have hlength : low.length = depth q + 1 := by omega
  have htop (v : Value) : i.pops ≤ (args ++ [v]).length := by
    rw [hpops, hcount, List.length_append, List.length_singleton]
  have hraised : step c stamp (i.raised marked) = step c stamp i := by
    obtain ⟨op, literal, argCount⟩ := i
    obtain rfl : op = .func none := hop
    rfl
  rw [hraised]
  cases hlow with
  | nil => cases hlength
  | @same v r r' hr =>
    rw [List.append_cons args v r, List.append_cons args v r']
    exact step_above_tied (htop v) (htop v) (step_self_tied hc stamp i _) hr hi fun k hk =>
      spares_of_ne hkept (by rw [List.length_cons] at hlength; omega)
  | @name t r r' _ hr =>
    rw [List.append_cons args _ r, List.append_cons args _ r']
    exact step_above_tied (htop _) (htop _) (step_call_tied hc hop hcount t) hr hi fun k hk =>
      spares_of_ne hkept (by rw [List.length_cons] at hlength; omega)

/-- **An instruction in upper case keeps the stacks as they are**, but for the names of locations. -/
theorem step_names_tied (hc : c.Alike recached c) (hb : Balanced code depth)
    (hkept : ∀ n ∈ marks, ∃ f, Kept code.toList [] depth n f) (hi : code[n]? = some i)
    (hlen : stack.length = depth n) (h : Value.StackRaised (Names code depth marks n) stack stack') :
    Run.Tied (StepNames code depth marks n) (step c stamp i stack)
      (step c stamp (i.raised (marks.contains n)) stack') := by
  by_cases hcall : ∃ q, Kept code.toList [] depth q n
  · obtain ⟨q, hq⟩ := hcall
    exact step_kept_tied hc hq hi hlen h _
  · have hspares (k : Nat) : Spares code depth n k := fun q hk _ => hcall ⟨q, hk⟩
    cases hmark : marks.contains n with
    | false =>
      obtain ⟨top, low, low', rfl, rfl, hpops, hlow⟩ := h.split (hlen ▸ hb.enough hi) fun k hnames => by
        have := hnames.lt_of_spares (hspares k) hi
        omega
      have hraised : (i.raised false).pops = i.pops := rfl
      exact step_above_tied (Nat.le_of_eq hpops.symm) (by rw [hraised, hpops]) (step_raised_tied hc i top) hlow hi
        fun k _ => hspares k
    | true =>
      -- the name that is put on the stack lies there until its call
      have hmem : n ∈ marks := by simpa using hmark
      obtain ⟨f, hk⟩ := hkept n hmem
      obtain ⟨t, ht⟩ := hk.name
      rw [Array.getElem?_toList, hi] at ht
      cases ht
      have hs : Shifts { op := .push, literal := some (.text t) } stack (.text t :: stack, none) := ⟨1, rfl, rfl⟩
      refine Run.tied_pure ⟨rfl, .name t ⟨n, hmem, f, hk, ?_, ?_, hlen.symm⟩ (h.mono ?_)⟩
      · exact Nat.lt_of_lt_of_le (Nat.lt_succ_self n) (Nat.le_max_left _ _)
      · exact Nat.max_le.mpr ⟨hk.lt, Nat.zero_le _⟩
      · exact fun k _ hnames => hnames.next (hspares k) hi hs

/-! ## Whole expressions -/

/-- Two pieces of code whose instructions keep the stacks related come to the same end. -/
theorem runCode_tied {is is' : List Instruction} {R : Nat → List Value → List Value → Prop} (pc : Nat)
    {resume : Nat} {stack stack' : List Value}
    (hsize : is'.length = is.length)
    (hstep : ∀ {n i i' s s'}, is[n]? = some i → is'[n]? = some i' → R n s s' →
      Run.Tied (fun x x' => x'.2 = x.2 ∧ R (max (n + 1) (x.2.getD 0)) x.1 x'.1) (step c stamp i s)
        (step c stamp i' s'))
    (hend : ∀ {n s s'}, is.length ≤ n → R n s s' → s' = s) (h : R (max pc resume) stack stack') :
    Run.Tied Eq (runCode c stamp pc resume stack (is.drop pc)) (runCode c stamp pc resume stack' (is'.drop pc)) := by
  by_cases hpc : pc < is.length
  · have hpc' : pc < is'.length := hsize ▸ hpc
    rw [List.drop_eq_getElem_cons hpc, List.drop_eq_getElem_cons hpc', runCode, runCode]
    by_cases hskip : pc < resume
    · rw [if_pos hskip, if_pos hskip]
      refine runCode_tied (pc + 1) hsize hstep hend ?_
      rwa [Nat.max_eq_right hskip, ← Nat.max_eq_right (Nat.le_of_lt hskip)]
    · rw [if_neg hskip, if_neg hskip]
      rw [Nat.max_eq_left (Nat.not_lt.mp hskip)] at h
      refine (hstep (List.getElem?_eq_getElem hpc) (List.getElem?_eq_getElem hpc') h).bind fun x x' hx => ?_
      obtain ⟨s, target⟩ := x
      obtain ⟨s', target'⟩ := x'
      obtain ⟨htarget, hs⟩ := hx
      obtain rfl : target' = target := htarget
      replace hs : R (max (pc + 1) (target'.getD 0)) s s' := hs
      exact runCode_tied (pc + 1) hsize hstep hend hs
  · have hle : is.length ≤ pc := Nat.le_of_not_lt hpc
    rw [List.drop_eq_nil_of_le hle, List.drop_eq_nil_of_le (hsize ▸ hle),
      hend (Nat.le_trans hle (Nat.le_max_left _ _)) h]
    cases stack with
    | nil => exact Run.tied_fail rfl
    | cons v stack => exact Run.tied_pure rfl
termination_by is.length - pc

theorem getElem?_raised {i' : Instruction} (h : (code.raised marks).toList[n]? = some i') :
    ∃ i, code[n]? = some i ∧ i' = i.raised (marks.contains n) := by
  rw [Array.getElem?_toList, Code.raised, Array.getElem?_mapIdx] at h
  cases hi : code[n]? with
  | none =>
    rw [hi] at h
    cases h
  | some i =>
    rw [hi] at h
    exact ⟨i, rfl, (Option.some.inj h).symm⟩

theorem length_raised (code : Code) (marks : List Nat) : (code.raised marks).toList.length = code.toList.length := by
  simp [Code.raised]

/-- Code without names of locations is evaluated alike. -/
theorem runCode_variables_tied (hc : c.Alike recached c) (code : Code) :
    Run.Tied Eq (runCode c stamp 0 0 [] code.toList) (runCode c stamp 0 0 [] (code.raised []).toList) := by
  refine runCode_tied (R := fun _ s s' => s' = s) 0 (length_raised code []) ?_ (fun _ h => h) rfl
  rintro n i i' _ s hi hi' rfl
  obtain ⟨_, hi₁, rfl⟩ := getElem?_raised hi'
  rw [Array.getElem?_toList, hi₁] at hi
  cases hi
  refine (step_raised_tied hc i s).imp ?_
  rintro x _ - - - rfl
  exact ⟨rfl, rfl⟩

/-- Balanced code whose names are kept for their calls is evaluated alike. -/
theorem runCode_names_tied (hc : c.Alike recached c) (hb : Balanced code depth)
    (hkept : ∀ n ∈ marks, ∃ f, Kept code.toList [] depth n f) :
    Run.Tied Eq (runCode c stamp 0 0 [] code.toList) (runCode c stamp 0 0 [] (code.raised marks).toList) := by
  refine runCode_tied 0 (length_raised code marks)
    (R := fun n s s' => s.length = depth n ∧ Value.StackRaised (Names code depth marks n) s s') ?_ ?_ ?_
  · rintro n i i' s s' hi hi' ⟨hlen, h⟩
    obtain ⟨_, hi₁, rfl⟩ := getElem?_raised hi'
    rw [Array.getElem?_toList, hi₁] at hi
    cases hi
    refine (step_names_tied hc hb hkept hi₁ hlen h).imp fun _ _ _ _ hx hxx => ?_
    obtain ⟨htarget, hstack⟩ := hxx
    have hshifts := step_shifts _ hx
    exact ⟨htarget, (hshifts.length_eq hb hi₁ hlen).2, hstack⟩
  · -- behind the last instruction all names have been taken
    rintro n s s' hend ⟨-, h⟩
    refine h.eq ?_
    rintro k ⟨q, -, f, hk, -, hle, -⟩
    obtain ⟨_, hi, -⟩ := hk.call
    have := (List.getElem?_eq_some_iff.mp hi).1
    omega
  · exact ⟨hb.start.symm, .nil⟩

end Machine

/-- **An expression means the same in upper case.** If it ends outside of literals and blocks, it has the same
value there or fails with an error of the same kind, and leaves the same machine but for the expressions that
are kept compiled. It must not both have a misread group and call a location by its name. -/
theorem eval_prepare {e : List Char} (hout : (Text.Standing.after {} e).isOutside = true)
    (hread : ∀ tokens, Token.tokenize e = .ok tokens →
      Token.misread (tokens.map (·.1)) = false ∨ ∀ t ∈ tokens, t.1.callsLocation = false)
    (fuel : Nat) (m : Machine) :
    ((Calls.ofFuel fuel).eval e m).Tied Eq ((Calls.ofFuel fuel).eval (Source.prepare e) m) := by
  cases fuel with
  | zero => exact .outOfFuel
  | succ n =>
    have hc : (Calls.ofFuel n).Alike recached (Calls.ofFuel n) := Calls.ofFuel_alike recached n
    have hcompiled := compile_prepare hout
    show ((Run.compiled e).andThen _ m).Tied Eq ((Run.compiled (Source.prepare e)).andThen _ m)
    unfold Run.andThen
    generalize hcode : compile e = r at hcompiled
    generalize hcode' : compile (Source.prepare e) = r' at hcompiled
    cases hcompiled with
    | error hkind =>
      obtain ⟨m₁, h₁, hm₁⟩ := Run.compiled_error hcode m
      obtain ⟨m₂, h₂, hm₂⟩ := Run.compiled_error hcode' m
      rw [h₁, h₂]
      exact .failed hkind (hm₁.symm.trans hm₂)
    | @ok code code' h =>
      obtain ⟨tokens, marks, ht, hmarked, rfl⟩ := h
      obtain ⟨m₁, h₁, hm₁⟩ := Run.compiled_ok hcode m
      obtain ⟨m₂, h₂, hm₂⟩ := Run.compiled_ok hcode' m
      rw [h₁, h₂]
      obtain ⟨cache, rfl⟩ := hm₁.symm.trans hm₂
      have hrun : Run.Tied Eq (Machine.runCode (Calls.ofFuel n) m₁.moves 0 0 [] code.toList)
          (Machine.runCode (Calls.ofFuel n) m₁.moves 0 0 [] (code.raised marks).toList) := by
        rcases hread tokens ht with hread | hnone
        · obtain ⟨depth, hb⟩ := (balanced_iff ht hcode).mpr hread
          exact Machine.runCode_names_tied hc hb (hmarked.kept_of_balanced hread hb)
        · obtain rfl := hmarked.marks_eq hnone
          exact Machine.runCode_variables_tied hc code
      exact hrun m₁ _ ⟨cache, rfl⟩

/-- A function, a variable and a location are found in any case, and the literal is left as it is. -/
theorem eval_prepare_sample :
    let e := "@cellar(max(x, +(2))) & 'Stairs'".toList
    let m : Machine := { Machine.new {} {} with world := World.add {} (Location.ofCode "Cellar" []) }
    (Text.Standing.after {} e).isOutside = true ∧
      String.ofList (Source.prepare e) = "@CELLAR(MAX(X, +(2))) & 'Stairs'" ∧
      ((Calls.ofFuel 3).eval e m).Tied Eq ((Calls.ofFuel 3).eval (Source.prepare e) m) := by
  intro e m
  have hout : (Text.Standing.after {} e).isOutside = true := by decide +kernel
  have hread : (Token.tokenize e).toOption.map (fun tokens => Token.misread (tokens.map (·.1))) = some false := by
    decide +kernel
  refine ⟨hout, by decide +kernel, eval_prepare hout (fun tokens ht => .inl ?_) 3 m⟩
  rw [ht] at hread
  exact Option.some.inj hread

/-- Not so where a group is misread: the function takes the name, and tells it from the name in upper case. -/
theorem eval_prepare_misread :
    let e := "@foo(DESC(MAX +('a')))".toList
    let m : Machine := { Machine.new {} {} with world := World.add {} (Location.ofCode "foo" []) }
    (Text.Standing.after {} e).isOutside = true ∧
      (∃ err m', (Calls.ofFuel 3).eval e m = .failed err m' ∧ err.kind = .badSyntax) ∧
      ∃ err m', (Calls.ofFuel 3).eval (Source.prepare e) m = .failed err m' ∧ err.kind = .unknownLocation := by
  intro e m
  have hkind {r : Outcome Value} {k : ErrorKind} (h : r.error?.map Error.kind = some k) :
      ∃ err m', r = .failed err m' ∧ err.kind = k := by
    obtain ⟨err, herr, hk⟩ := Option.map_eq_some_iff.mp h
    obtain ⟨m', hm'⟩ := Outcome.exists_of_error? herr
    exact ⟨err, m', hm', hk⟩
  exact ⟨by decide +kernel, hkind (by decide +kernel), hkind (by decide +kernel)⟩

end QuestScript
