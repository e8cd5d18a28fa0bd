import QuestScript.Proofs.Expr.Balance

/-!
# Compiled code is in range

Compiled code has at least one instruction and no more than `maxInstructions`, and each instruction takes a
number of operands that its operation allows.

The compiler checks the numbers in different places: most of them where a bracket or a comma is read, some
never, because an operator is only put on the stack with all its operands. `Ranged` says what holds between
two tokens. What waits with nothing above it has enough operands, and only a function below its bracket may
still lack some; an operator that is emitted is on top. As long as nothing has been emitted, a value that has
been read still waits as a function without arguments.
-/

namespace QuestScript

/-- The operation takes as many operands. -/
def Instruction.Fits (i : Instruction) : Prop :=
  i.op.info.minArgs ≤ i.argCount ∧ i.argCount ≤ i.op.info.maxArgs

instance : DecidablePred Instruction.Fits := fun _ => inferInstanceAs (Decidable (_ ∧ _))

namespace Compiler

variable {source : List Char} {sp : Span} {out out' : Code} {S : List Pending} {p : Pending} {o : Op}
variable {above : Pending.Kind} {c c' : Compiler} {ready : Bool}

/-! ## Instructions -/

/-- The instructions so far are not too many and have operands as they should. -/
structure Legal (out : Code) : Prop where
  size_le : out.size ≤ maxInstructions
  fits {n : Nat} {i : Instruction} : out[n]? = some i → i.Fits

theorem Legal.emit {i : Instruction} (h : Legal out) (hemit : emit out i sp = .ok out') (hi : i.Fits) :
    Legal out' ∧ 0 < out'.size := by
  unfold Compiler.emit at hemit
  split at hemit
  · cases hemit
  · next hsize =>
    cases hemit
    rw [Array.size_push]
    refine ⟨⟨?_, ?_⟩, Nat.succ_pos _⟩
    · rw [Array.size_push]
      exact Nat.not_le.mp hsize
    · intro n i' hn
      rw [Array.getElem?_push] at hn
      split at hn
      · cases hn
        exact hi
      · exact h.fits hn

theorem info_retarget (target : Nat) (op : Op) : (retarget target op).info = op.info := by
  cases op <;> rfl

theorem size_patch (out : Code) (index : Option Nat) : (patch out index).size = out.size := by
  cases index with
  | none => rfl
  | some index => exact Array.size_modify

/-- The operands of a jump do not depend on its target. -/
theorem Legal.patch (h : Legal out) (index : Option Nat) : Legal (patch out index) := by
  refine ⟨(size_patch out index).symm ▸ h.size_le, ?_⟩
  cases index with
  | none => exact h.fits
  | some index =>
    intro n i hn
    rw [Compiler.patch, Array.getElem?_modify] at hn
    split at hn
    · obtain ⟨i', hi', rfl⟩ := Option.map_eq_some_iff.mp hn
      rw [Instruction.Fits, info_retarget]
      exact h.fits hi'
    · exact h.fits hn

/-! ## What waits -/

/-- How many operands of an operator may have been read, below something else: a function whose arguments
are being read may lack some, and a variable has no index before its bracket is closed. -/
structure Allowed (above : Pending.Kind) (o : Op) (args : Nat) : Prop where
  most : args ≤ o.info.maxArgs
  least : above = .openRound ∧ o.isFunction = true ∨ o.info.minArgs ≤ args
  index : above = .openSquare → o = .var → args = 0

/-- Everything that waits below `above` may have its operands. -/
def Counted (above : Pending.Kind) : List Pending → Prop
  | [] => True
  | p :: S => (∀ o, p.kind = .op o → Allowed above o p.args) ∧ Counted p.kind S

/-- With nothing above it, an operator has all its operands. -/
theorem Allowed.start {args : Nat} (hmin : o.info.minArgs ≤ args) (hmax : args ≤ o.info.maxArgs) :
    Allowed .start o args := ⟨hmax, .inr hmin, nofun⟩

theorem Allowed.minArgs_le {args : Nat} (h : Allowed .start o args) : o.info.minArgs ≤ args :=
  h.least.resolve_left fun habove => nomatch habove.1

/-- What stands above is gone. -/
theorem Counted.lower (h : Counted above S) (hS : above = .openRound → (top S).isFunction = false) :
    Counted .start S := by
  cases S with
  | nil => exact trivial
  | cons p S =>
    refine ⟨fun o hk => ?_, h.2⟩
    obtain ⟨most, least, -⟩ := h.1 o hk
    refine .start (least.resolve_left ?_) most
    rintro ⟨habove, hfunction⟩
    have htop : p.kind.isFunction = false := hS habove
    rw [hk] at htop
    exact Bool.false_ne_true (htop.symm.trans hfunction)

/-- Something is put on top. -/
theorem Counted.under (h : Counted .start S) (hS : above = .openSquare → top S ≠ .op .var) :
    Counted above S := by
  cases S with
  | nil => exact trivial
  | cons p S =>
    refine ⟨fun o hk => ?_, h.2⟩
    refine ⟨(h.1 o hk).most, .inr (h.1 o hk).minArgs_le, ?_⟩
    rintro habove rfl
    exact absurd hk (hS habove)

/-- An operator is put on top with all its operands. -/
theorem Counted.cons_op (h : Counted .start S) (hk : p.kind = .op o) (hp : Allowed .start o p.args) :
    Counted .start (p :: S) := by
  refine ⟨fun o' hk' => ?_, h.under (by rw [hk]; exact nofun)⟩
  cases hk.symm.trans hk'
  exact hp

/-- An index is counted once. -/
theorem Counted.countIndex (h : Counted .openSquare S) : Counted .start (countIndex S) := by
  rcases countIndex_cases S with ⟨-, heq⟩ | ⟨v, rest, rfl, hv, heq⟩
  · rw [heq]
    exact h.lower nofun
  · rw [heq]
    have hzero : v.args = 0 := (h.1 .var hv).index rfl rfl
    refine ⟨fun o hk => ?_, h.2⟩
    cases hv.symm.trans hk
    exact .start (Nat.zero_le _) (Nat.le_of_eq (congrArg (· + 1) hzero))

/-- Something waits that will be an instruction. -/
def Waits (S : List Pending) : Prop := ∃ p ∈ S, ∃ o, p.kind = .op o ∧ o ≠ .iif

theorem Waits.head (hk : p.kind = .op o) (ho : o ≠ .iif) : Waits (p :: S) :=
  ⟨p, List.mem_cons_self, o, hk, ho⟩

theorem Waits.tail (h : Waits (p :: S)) (hp : ∀ o, p.kind = .op o → o = .iif) : Waits S := by
  obtain ⟨q, hq, o, hk, ho⟩ := h
  rcases List.mem_cons.mp hq with rfl | hq
  · exact absurd (hp o hk) ho
  · exact ⟨q, hq, o, hk, ho⟩

theorem Waits.countIndex (h : Waits S) : Waits (countIndex S) := by
  rcases countIndex_cases S with ⟨-, heq⟩ | ⟨v, rest, rfl, hv, heq⟩
  · rw [heq]
    exact h
  · rw [heq]
    exact .head (p := { v with args := v.args + 1 }) hv nofun

/-! ## States -/

/-- What holds between two tokens; the flag says that a value has just been read. -/
structure Ranged (ready : Bool) (c : Compiler) : Prop where
  legal : Legal c.out
  counted : Counted .start c.stack
  top_ne : ready = false → top c.stack ≠ .op .var
  waits : c.out.size = 0 → ready = true → Waits c.stack
  /-- Behind the condition of a choice there is a jump. -/
  unchosen : c.out.size = 0 → ∀ p ∈ c.stack, p.kind = .op .iif → p.args = 0

theorem Ranged.of_stack (h : Ranged ready c) (hS : c.stack = S) : Ranged ready ⟨c.out, S⟩ := hS ▸ h

/-- Once something has been emitted only the operands count. -/
theorem Ranged.of_pos (hout : Legal out ∧ 0 < out.size) (hS : Counted .start S)
    (htop : ready = false → top S ≠ .op .var) : Ranged ready ⟨out, S⟩ where
  legal := hout.1
  counted := hS
  top_ne := htop
  waits hzero := absurd hzero (Nat.ne_of_gt hout.2)
  unchosen hzero := absurd hzero (Nat.ne_of_gt hout.2)

/-- An operator is put on the stack with all its operands; without any it is a value itself. -/
theorem Ranged.push_op {ready' : Bool} (h : Ranged ready c) (hk : p.kind = .op o)
    (hp : Allowed .start o p.args) (hiif : o ≠ .iif) (hvar : ready' = false → o ≠ .var) :
    Ranged ready' { c with stack := p :: c.stack } where
  legal := h.legal
  counted := h.counted.cons_op hk hp
  top_ne hready heq := hvar hready (Pending.Kind.op.inj (hk.symm.trans heq))
  waits _ _ := .head hk hiif
  unchosen hzero := by
    refine List.forall_mem_cons.mpr ⟨fun heq => ?_, h.unchosen hzero⟩
    exact absurd (Pending.Kind.op.inj (hk.symm.trans heq)) hiif

theorem Ranged.push_bracket {b : Pending} (h : Ranged ready c) (hb : isBracket b.kind = true)
    (hS : b.kind = .openSquare → top c.stack ≠ .op .var) :
    Ranged false { c with stack := b :: c.stack } where
  legal := h.legal
  counted := ⟨fun o hk => absurd hk (ne_op_of_isBracket hb o), h.counted.under hS⟩
  top_ne _ := ne_op_of_isBracket hb .var
  waits _ := nofun
  unchosen hzero :=
    List.forall_mem_cons.mpr ⟨fun hk => absurd hk (ne_op_of_isBracket hb .iif), h.unchosen hzero⟩

/-- An operator is put on the stack, and then the bracket its operands are in. -/
theorem Ranged.push_bracketed {b f : Pending} (h : Ranged ready c) (hb : isBracket b.kind = true)
    (hf : f.kind = .op o) (hp : Allowed b.kind o f.args) (hiif : o = .iif → f.args = 0) :
    Ranged false { c with stack := b :: f :: c.stack } where
  legal := h.legal
  counted := by
    refine ⟨fun o hk => absurd hk (ne_op_of_isBracket hb o), fun o' hk => ?_, ?_⟩
    · cases hf.symm.trans hk
      exact hp
    · exact h.counted.under (by rw [hf]; exact nofun)
  top_ne _ := ne_op_of_isBracket hb .var
  waits _ := nofun
  unchosen hzero := by
    refine List.forall_mem_cons.mpr ⟨fun hk => absurd hk (ne_op_of_isBracket hb .iif),
      List.forall_mem_cons.mpr ⟨fun hk => ?_, h.unchosen hzero⟩⟩
    cases hf.symm.trans hk
    exact hiif rfl

/-- A choice that has got its values has left jumps. -/
theorem Ranged.pos_of_choice (h : Ranged ready ⟨out, S⟩) (hp : p ∈ S) (hk : p.kind = .op .iif)
    (hargs : p.args ≠ 0) : 0 < out.size :=
  Nat.pos_of_ne_zero fun hzero => hargs (h.unchosen hzero p hp hk)

/-! ## Operators are emitted -/

theorem emitOp_legal (h : emitOp out p o sp = .ok out') (hout : Legal out) (hp : Allowed .start o p.args)
    (hiif : o = .iif → 0 < out.size) : Legal out' ∧ 0 < out'.size := by
  unfold emitOp at h
  split at h
  · obtain ⟨out₁, hemit, h₁⟩ := bind_eq_ok h
    cases h₁
    obtain ⟨hlegal, hpos⟩ := hout.emit hemit (by decide)
    exact ⟨hlegal.patch _, by rwa [size_patch]⟩
  · obtain ⟨out₁, hemit, h₁⟩ := bind_eq_ok h
    cases h₁
    obtain ⟨hlegal, hpos⟩ := hout.emit hemit (by decide)
    exact ⟨hlegal.patch _, by rwa [size_patch]⟩
  · cases h
    exact ⟨hout.patch _, by rw [size_patch]; exact hiif rfl⟩
  · exact hout.emit h ⟨hp.minArgs_le, hp.most⟩

/-- What is on top is emitted with the operands it has. -/
theorem Ranged.emitPending (h : Ranged true ⟨out, p :: S⟩) (hemit : emitPending out p sp = .ok out') :
    Ranged true ⟨out', S⟩ := by
  unfold Compiler.emitPending at hemit
  split at hemit
  · next o hk =>
    obtain ⟨out₁, h₁, h₂⟩ := bind_eq_ok hemit
    have hp : Allowed .start o p.args := h.counted.1 o hk
    have hlegal := emitOp_legal h₁ h.legal hp (by
      rintro rfl
      have hmin : 3 ≤ p.args := hp.minArgs_le
      exact h.pos_of_choice List.mem_cons_self hk (by omega))
    have hS : Counted .start S := h.counted.2.lower (by rw [hk]; exact nofun)
    split at h₂
    · exact .of_pos (hlegal.1.emit h₂ ⟨Nat.le_refl 1, Nat.le_refl 1⟩) hS nofun
    · cases h₂
      exact .of_pos hlegal hS nofun
  · cases hemit

/-- Operators are emitted until one is met that binds less tightly. -/
theorem reduce_ranged {r : Nat} (h : reduce r sp S out = .ok c) (hs : Ranged true ⟨out, S⟩) :
    Ranged true c ∧ Admits c.stack r := by
  induction S generalizing out with
  | nil =>
    cases h
    refine ⟨hs, ?_⟩
    rintro _ ⟨⟩
  | cons p S ih =>
    rw [reduce] at h
    split at h
    · next hstop =>
      cases h
      refine ⟨hs, ?_⟩
      rintro _ ⟨⟩
      simpa using hstop
    · obtain ⟨out', hemit, h₁⟩ := bind_eq_ok h
      exact ih h₁ (hs.emitPending hemit)

/-! ## Operator position -/

theorem minArgs_le_maxArgs (op : Op) : op.info.minArgs ≤ op.info.maxArgs := by
  cases op <;> exact Nat.le_of_ble_eq_true rfl

theorem fits_tuple {args : Nat} (h : args ≤ maxArgs) : Instruction.Fits { op := .tuple, argCount := args } :=
  ⟨Nat.zero_le _, h⟩

theorem closeTuple_ranged (h : closeTuple c sp = .ok c') (hs : Ranged true c) : Ranged true c' := by
  rcases closeTuple_cases h with ⟨-, rfl⟩ | ⟨p, ps, out', hstack, hk, hargs, hemit, rfl⟩
  · exact hs
  · replace hs := hs.of_stack hstack
    have hS : Counted .start ps := hs.counted.2.lower (by rw [hk]; exact nofun)
    exact .of_pos (hs.legal.emit hemit (fits_tuple hargs)) hS nofun

/-- The arguments of a call are complete. -/
theorem Ranged.close_call {f b : Pending} {args : Nat} (hs : Ranged ready ⟨out, b :: f :: S⟩)
    (hf : f.kind = .op o) (hmin : o.info.minArgs ≤ args) (hmax : args ≤ o.info.maxArgs)
    (hargs : o = .iif → f.args ≠ 0) : Ranged true ⟨out, { f with args } :: S⟩ := by
  -- a choice has its jumps, and any other function is an instruction to come
  have hiif : out.size = 0 → o ≠ .iif := by
    rintro hzero rfl
    exact hargs rfl (hs.unchosen hzero f (by simp) hf)
  refine ⟨hs.legal, ⟨fun o' hk => ?_, hs.counted.2.2⟩, nofun, fun hzero _ => .head hf (hiif hzero), ?_⟩
  · cases hf.symm.trans hk
    exact .start hmin hmax
  · intro hzero
    refine List.forall_mem_cons.mpr ⟨fun hk => ?_, fun p hp => hs.unchosen hzero p (by simp [hp])⟩
    cases hf.symm.trans hk
    exact absurd rfl (hiif hzero)

theorem closeRound_ranged (h : closeRound c sp = .ok c') (hs : Ranged true c) : Ranged true c' := by
  obtain ⟨b, S, hstack, hb, hcases⟩ := closeRound_eq_ok h
  replace hs := hs.of_stack hstack
  have hbracket : ∀ o, b.kind ≠ .op o := by
    rw [hb]
    exact nofun
  rcases hcases with ⟨hS, rfl⟩ | ⟨f, rest, o, rfl, hf, -, hmin, hmax, rfl⟩
  · refine ⟨hs.legal, hs.counted.2.lower fun _ => hS, nofun, fun hzero _ => ?_, fun hzero p hp => ?_⟩
    · exact (hs.waits hzero rfl).tail fun o hk => absurd hk (hbracket o)
    · exact hs.unchosen hzero p (List.mem_cons_of_mem b hp)
  · refine hs.close_call hf hmin hmax ?_
    rintro rfl
    have : 3 ≤ f.args + 1 := hmin
    omega

theorem closeSquare_ranged (h : closeSquare c sp = .ok c') (hs : Ranged true c) : Ranged true c' := by
  obtain ⟨b, S, hstack, hb, rfl⟩ := closeSquare_eq_ok h
  replace hs := hs.of_stack hstack
  have hcounted : Counted .openSquare S := hb ▸ hs.counted.2
  refine ⟨hs.legal, hcounted.countIndex, nofun, fun hzero _ => ?_, fun hzero p hp hk => ?_⟩
  · refine ((hs.waits hzero rfl).tail fun o hk => ?_).countIndex
    rw [hb] at hk
    cases hk
  · have hold : ∀ q ∈ S, q.kind = .op .iif → q.args = 0 := fun q hq =>
      hs.unchosen hzero q (List.mem_cons_of_mem b hq)
    replace hp : p ∈ countIndex S := hp
    rcases countIndex_cases S with ⟨-, heq⟩ | ⟨v, rest, rfl, hv, heq⟩
    · rw [heq] at hp
      exact hold p hp hk
    · rw [heq] at hp
      rcases List.mem_cons.mp hp with rfl | hp
      · cases hv.symm.trans hk
      · exact hold p (List.mem_cons_of_mem v hp) hk

theorem functionComma_ranged {b f : Pending} (h : functionComma out b f o S sp = .ok c')
    (hb : b.kind = .openRound) (hf : f.kind = .op o) (ho : o.isFunction = true)
    (hs : Ranged true ⟨out, b :: f :: S⟩) : Ranged false c' := by
  unfold functionComma at h
  dsimp only at h
  split at h
  · cases h
  next hmax =>
  have hcounted (f' : Pending) (hf' : f'.kind = f.kind) (hargs : f'.args = f.args + 1) :
      Counted .start (b :: f' :: S) := by
    refine ⟨fun o hk => ?_, fun o' hk => ?_, hf'.symm ▸ hs.counted.2.2⟩
    · rw [hb] at hk
      cases hk
    · cases (hf'.trans hf).symm.trans hk
      exact ⟨hargs.symm ▸ Nat.not_lt.mp hmax, .inl ⟨hb, ho⟩, by rw [hb]; exact nofun⟩
  have htop (f' : Pending) : top (b :: f' :: S) ≠ .op .var := by
    show b.kind ≠ _
    rw [hb]
    exact nofun
  split at h
  · split at h
    · obtain ⟨out', hemit, h₁⟩ := bind_eq_ok h
      cases h₁
      exact .of_pos (hs.legal.emit hemit (by decide)) (hcounted _ rfl rfl) fun _ => htop _
    · obtain ⟨out', hemit, h₁⟩ := bind_eq_ok h
      cases h₁
      obtain ⟨hlegal, hpos⟩ := hs.legal.emit hemit (by decide)
      exact .of_pos ⟨hlegal.patch _, by rwa [size_patch]⟩ (hcounted _ rfl rfl) fun _ => htop _
  · next hiif =>
    cases h
    refine ⟨hs.legal, hcounted _ rfl rfl, fun _ => htop _, fun _ => nofun, fun hzero => ?_⟩
    refine List.forall_mem_cons.mpr ⟨fun hk => ?_, List.forall_mem_cons.mpr ⟨fun hk => ?_, ?_⟩⟩
    · rw [hb] at hk
      cases hk
    · cases hf.symm.trans hk
      exact absurd rfl hiif
    · exact fun p hp => hs.unchosen hzero p (by simp [hp])

/-- A tuple does not get too long. -/
theorem args_le_of_tupleComma (h : tupleComma c sp = .ok c') : ∀ p ∈ c'.stack.head?, p.args ≤ maxArgs := by
  unfold tupleComma at h
  dsimp only at h
  split at h
  all_goals
    obtain ⟨c₁, -, h₁⟩ := bind_eq_ok h
    split at h₁
    · split at h₁
      · cases h₁
      · next hargs =>
        cases h₁
        rintro _ ⟨⟩
        exact Nat.not_lt.mp hargs
    · next hnil =>
      cases h₁
      rw [hnil]
      rintro _ ⟨⟩

theorem tupleComma_ranged (h : tupleComma c sp = .ok c') (hs : Ranged true c) : Ranged false c' := by
  have hargs := args_le_of_tupleComma h
  rcases tupleComma_eq_ok h with ⟨p, rest, hstack, hk, rfl⟩ | ⟨-, rfl⟩
  · replace hs := hs.of_stack hstack
    refine ⟨hs.legal, ⟨fun o ho => ?_, hs.counted.2⟩, fun _ => ?_, fun _ => nofun, fun hzero => ?_⟩
    · cases hk.symm.trans ho
      exact .start (Nat.zero_le _) (hargs _ rfl)
    · show p.kind ≠ _
      rw [hk]
      exact nofun
    · refine List.forall_mem_cons.mpr ⟨fun ho => ?_, fun q hq => hs.unchosen hzero q (by simp [hq])⟩
      cases hk.symm.trans ho
  · exact hs.push_op rfl (.start (Nat.zero_le _) (hargs _ rfl)) nofun fun _ => nofun

theorem comma_ranged (h : comma c sp = .ok c') (hs : Ranged true c) : Ranged false c' := by
  rcases comma_eq_ok h with ⟨b, f, rest, o, hstack, hb, hf, ho, h₁⟩ | h₁
  · exact functionComma_ranged h₁ hb hf ho (hs.of_stack hstack)
  · exact tupleComma_ranged h₁ hs

theorem binary_ranged (h : binary c o sp = .ok c') (ho : o ∈ Op.binaries) (hs : Ranged true c) :
    Ranged false c' := by
  have hall : ∀ o ∈ Op.binaries, o.info.maxArgs = o.info.minArgs ∧ o ≠ .var ∧ o ≠ .iif := by decide
  obtain ⟨hmax, hvar, hiif⟩ := hall o ho
  have hp : Allowed .start o o.info.minArgs := .start (Nat.le_refl _) (Nat.le_of_eq hmax.symm)
  unfold binary at h
  dsimp only at h
  split at h
  · obtain ⟨out', hemit, h₁⟩ := bind_eq_ok h
    cases push_eq_ok h₁
    exact .of_pos (hs.legal.emit hemit (by decide)) (hs.counted.cons_op rfl hp) fun _ => nofun
  · obtain ⟨out', hemit, h₁⟩ := bind_eq_ok h
    cases push_eq_ok h₁
    exact .of_pos (hs.legal.emit hemit (by decide)) (hs.counted.cons_op rfl hp) fun _ => nofun
  · cases push_eq_ok h
    exact hs.push_op rfl hp hiif fun _ => hvar

/-- A token in operator position. -/
theorem operatorStep_ranged {inc : Incoming} {c₁ : Compiler} {token : Token} {flag : Bool}
    (hi : incoming source sp token = .ok inc) (hr : reduce inc.priority sp c.stack c.out = .ok c₁)
    (ha : arrive inc c₁ sp = .ok (flag, c')) (hs : Ranged true c) : Ranged flag c' := by
  have hreduced := (reduce_ranged hr hs).1
  cases inc with
  | closeRound =>
    obtain ⟨c₂, ht, h₁⟩ := bind_eq_ok ha
    obtain ⟨c₃, hc, h₂⟩ := bind_eq_ok h₁
    cases h₂
    exact closeRound_ranged hc (closeTuple_ranged ht hreduced)
  | closeSquare =>
    obtain ⟨c₂, ht, h₁⟩ := bind_eq_ok ha
    obtain ⟨c₃, hc, h₂⟩ := bind_eq_ok h₁
    cases h₂
    exact closeSquare_ranged hc (closeTuple_ranged ht hreduced)
  | comma =>
    obtain ⟨c₂, hc, h₁⟩ := bind_eq_ok ha
    cases h₁
    exact comma_ranged hc hreduced
  | binary op =>
    obtain ⟨c₂, hc, h₁⟩ := bind_eq_ok ha
    cases h₁
    exact binary_ranged hc ((incoming_cases hi).2 op rfl) hreduced

/-! ## Value position -/

theorem fits_value {op : Op} (h : op.info.minArgs = 0) (literal : Option Value) :
    Instruction.Fits { op, literal } := ⟨Nat.le_of_eq h, Nat.zero_le _⟩

theorem value_ranged {i : Instruction} {step : Step} (h : value c i sp = .ok step) (hi : i.Fits)
    (hout : Legal c.out) (hS : Counted .start c.stack) : Ranged step.operatorNext step.compiler := by
  obtain ⟨out', hemit, h₁⟩ := bind_eq_ok h
  cases h₁
  exact .of_pos (hout.emit hemit hi) hS nofun

theorem numberValue_ranged {n : Number} {step : Step} (h : numberValue c n sp = .ok step)
    (hs : Ranged false c) : Ranged step.operatorNext step.compiler := by
  obtain ⟨out, S⟩ := c
  unfold numberValue at h
  split at h
  · next p ps heq =>
    replace heq : S = p :: ps := heq
    subst heq
    split at h
    · next hk =>
      exact value_ranged h (fits_value rfl _) hs.legal (hs.counted.2.lower (by rw [hk]; exact nofun))
    · exact value_ranged h (fits_value rfl _) hs.legal hs.counted
  · exact value_ranged h (fits_value rfl _) hs.legal hs.counted

theorem emptyRound_ranged {step : Step} (h : emptyRound c sp = .ok step) (hs : Ranged false c) :
    Ranged step.operatorNext step.compiler := by
  obtain ⟨b, S, hstack, hb, hcases⟩ := emptyRound_eq_ok h
  replace hs := hs.of_stack hstack
  rcases hcases with ⟨hS, hv⟩ | ⟨f, rest, o, rfl, hf, ho, hmin, rfl⟩
  · exact value_ranged hv (fits_value rfl _) hs.legal (hs.counted.2.lower fun _ => hS)
  · refine hs.close_call hf hmin (hs.counted.2.1 o hf).most ?_
    rintro rfl
    have : 3 ≤ f.args := hmin
    omega

theorem emptySquare_ranged {step : Step} (h : emptySquare c sp = .ok step) (hs : Ranged false c) :
    Ranged step.operatorNext step.compiler := by
  obtain ⟨p, b, S, out', hstack, hk, hb, hemit, rfl⟩ := emptySquare_eq_ok h
  replace hs := hs.of_stack hstack
  have hcounted : Counted .openSquare S := hb ▸ hs.counted.2.2
  exact .of_pos (hs.legal.emit hemit (fits_tuple (hs.counted.1 .tuple hk).most)) hcounted.countIndex nofun

theorem locationCall_ranged {location : List Char} {next : Option Token} {step : Step}
    (h : locationCall c location next sp = .ok step) (hs : Ranged false c) :
    Ranged step.operatorNext step.compiler := by
  obtain ⟨code, hemit, hstep⟩ := locationCall_eq_ok h
  have hname : Ranged true ⟨code, c.stack⟩ :=
    .of_pos (hs.legal.emit hemit (fits_value rfl _)) hs.counted nofun
  have hmax : 1 ≤ (Op.func none).info.maxArgs := by decide
  rcases hstep with ⟨-, rfl⟩ | rfl
  · exact hname.push_bracketed rfl rfl ⟨hmax, .inl ⟨rfl, rfl⟩, nofun⟩ nofun
  · exact hname.push_op rfl (.start (Nat.le_refl 1) hmax) nofun nofun

/-- Without a bracket a function has what it needs when it is put on the stack. -/
theorem functionCall_ranged {s : String} {f : Function} {next : Option Token} {step : Step}
    (h : functionCall c source s f next sp = .ok step) (hf : f.op.isFunction = true) (hs : Ranged false c) :
    Ranged step.operatorNext step.compiler := by
  have hvar : f.op ≠ .var := Op.ne_of_isFunction hf rfl
  have hmax := minArgs_le_maxArgs f.op
  have hiif : f.op.info.minArgs ≤ 1 → f.op ≠ .iif := by
    intro hmin hop
    rw [hop] at hmin
    exact absurd hmin (by decide)
  rcases functionCall_eq_ok h with ⟨-, rfl⟩ | ⟨-, hmin, rfl⟩ | ⟨-, hmin, rfl⟩
  · exact hs.push_bracketed rfl rfl ⟨Nat.zero_le _, .inl ⟨rfl, hf⟩, nofun⟩ fun _ => rfl
  · exact hs.push_op rfl (.start (Nat.le_of_eq hmin) (Nat.zero_le _)) (hiif (by omega)) nofun
  · exact hs.push_op rfl (.start (Nat.le_of_eq hmin) (hmin ▸ hmax)) (hiif (by omega)) fun _ => hvar

theorem variableRead_ranged {s : String} {next after : Option Token} {step : Step}
    (h : variableRead c s next after sp = .ok step) (hs : Ranged false c) :
    Ranged step.operatorNext step.compiler := by
  rcases variableRead_eq_ok h with ⟨op, step', hop, hv⟩ | ⟨-, rfl⟩
  · rcases hop with ⟨rfl, -, -, rfl⟩ | ⟨rfl, rfl⟩
    · show Ranged step'.operatorNext step'.compiler
      exact value_ranged hv (fits_value rfl _) hs.legal hs.counted
    · exact value_ranged hv (fits_value rfl _) hs.legal hs.counted
  · exact hs.push_bracketed rfl rfl ⟨Nat.zero_le _, .inr (Nat.zero_le _), fun _ _ => rfl⟩ nofun

/-- A token in value position. -/
theorem valueStep_ranged {token : Token} {next after : Option Token} {step : Step}
    (h : valueStep source token sp next after c = .ok step) (hs : Ranged false c) :
    Ranged step.operatorNext step.compiler := by
  cases token with
  | number n => exact numberValue_ranged h hs
  | text t =>
    replace h : value c { op := if t.isEmpty then .push else .format, literal := some (.text t) } sp
      = .ok step := h
    exact value_ranged h (fits_value (by split <;> rfl) _) hs.legal hs.counted
  | code t => exact value_ranged h (fits_value rfl _) hs.legal hs.counted
  | minus =>
    cases opening_eq_ok h
    exact hs.push_op rfl (.start (Nat.le_refl 1) (Nat.le_refl 1)) nofun fun _ => nofun
  | plus =>
    cases h
    exact hs
  | openRound =>
    cases opening_eq_ok h
    exact hs.push_bracket rfl nofun
  | closeRound => exact emptyRound_ranged h hs
  | openSquare =>
    obtain ⟨c₁, h₁, h₂⟩ := bind_eq_ok h
    cases push_eq_ok h₁
    cases opening_eq_ok h₂
    have hbracket := hs.push_bracket (b := { kind := .openSquare }) rfl fun _ => hs.top_ne rfl
    exact hbracket.push_op rfl (.start (Nat.le_refl 0) (Nat.zero_le _)) nofun fun _ => nofun
  | closeSquare => exact emptySquare_ranged h hs
  | name s =>
    rcases nameValue_cases h with ⟨-, location, h₁⟩ | ⟨f, hf, h₁⟩ | ⟨-, h₁⟩
    · exact locationCall_ranged h₁ hs
    · exact functionCall_ranged h₁ (Function.isFunction_of_find? hf) hs
    · exact variableRead_ranged h₁ hs
  | _ => cases h

/-! ## Whole expressions -/

theorem eq_tuple_of_priority (h : o.priority = Op.barrier) : o = .tuple := by
  cases o <;> first | rfl | exact absurd h (Nat.ne_of_beq_eq_false rfl)

/-- At the end nothing waits any more, so something has been emitted. -/
theorem finish_ranged {code : Code} (h : run source true c [] = .ok code) (hs : Ranged true c) :
    Legal code ∧ 0 < code.size := by
  obtain ⟨c₁, c₂, hr, ht, hlength, rfl⟩ := run_nil_iff.mp h
  obtain ⟨hreduced, hadmits⟩ := reduce_ranged hr hs
  rcases closeTuple_cases ht with ⟨htop, rfl⟩ | ⟨p, S, out', hstack, hk, hargs, hemit, rfl⟩
  · refine ⟨hreduced.legal, Nat.pos_of_ne_zero fun hzero => ?_⟩
    obtain ⟨p, hp, o, hk, -⟩ := hreduced.waits hzero rfl
    -- what still waits could not be emitted, so it is the tuple, but that is gone too
    obtain ⟨q, hq⟩ : ∃ q, c₂.stack = [q] :=
      List.length_eq_one_iff.mp (Nat.le_antisymm hlength (List.length_pos_of_mem hp))
    rw [hq] at hp htop hadmits
    obtain rfl := List.mem_singleton.mp hp
    have hbarrier : p.priority = Op.barrier := (hadmits p rfl).resolve_right (Nat.not_lt_zero _)
    rw [Pending.priority, hk] at hbarrier
    exact htop (hk.trans (congrArg _ (eq_tuple_of_priority hbarrier)))
  · exact hreduced.legal.emit hemit (fits_tuple hargs)

theorem run_ranged {ready : Bool} {c : Compiler} (ts : List (Token × Span)) {code : Code}
    (h : run source ready c ts = .ok code) (hs : Ranged ready c) : Legal code ∧ 0 < code.size := by
  match ts, ready with
  | [], false =>
    rw [run] at h
    cases h
  | [], true => exact finish_ranged h hs
  | (token, sp) :: rest, true =>
    obtain ⟨inc, c₁, flag, c₂, hi, hr, ha, h₁⟩ := run_operator_iff.mp h
    exact run_ranged rest h₁ (operatorStep_ranged hi hr ha hs)
  | (token, sp) :: rest, false =>
    obtain ⟨step, hstep, h₁⟩ := run_value h
    exact run_ranged _ h₁ (valueStep_ranged hstep hs)
termination_by ts.length
decreasing_by
  all_goals
    simp only [List.length_cons, List.length_drop]
    omega

theorem start_ranged : Ranged false { stack := [{ kind := .start }] } where
  legal := ⟨Nat.zero_le _, nofun⟩
  counted := ⟨nofun, trivial⟩
  top_ne _ := nofun
  waits _ := nofun
  unchosen _ := List.forall_mem_singleton.mpr nofun

end Compiler

/-- Compiled code is neither empty nor too long, and its instructions have operands as they should. -/
theorem compile_legal {source : List Char} {code : Code} (h : compile source = .ok code) :
    Compiler.Legal code ∧ 0 < code.size := by
  obtain ⟨tokens, -, hrun⟩ := bind_eq_ok h
  exact Compiler.run_ranged tokens hrun Compiler.start_ranged

end QuestScript
