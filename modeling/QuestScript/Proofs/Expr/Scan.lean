import QuestScript.Expr.Compile

/-!
# One token at a time

What the compiler has done when it has accepted a token: one lemma for each of its parts, from an
equation `… = .ok …` to the instructions and the stack it leaves.

The code so far is written as a list here, because the arguments are about what has been appended.
-/

namespace QuestScript

/-- A computation that succeeds and goes on with its result has both parts succeed. -/
theorem bind_eq_ok {ε α β : Type} {x : Except ε α} {f : α → Except ε β} {b : β}
    (h : (x >>= f) = .ok b) : ∃ a, x = .ok a ∧ f a = .ok b := by
  cases x with
  | ok a => exact ⟨a, rfl, h⟩
  | error e => cases h

theorem eq_ok_of_toOption {ε α : Type} {r : Except ε α} {a : α} (h : r.toOption = some a) :
    r = .ok a := by
  cases r with
  | ok b => cases h; rfl
  | error e => cases h

/-! ## Names and operators -/

namespace Function

theorem mem_table_of_find? {s : String} {f : Function} (h : find? s = some f) : f ∈ table := by
  unfold find? at h
  exact List.mem_of_find?_eq_some h

theorem isFunction_of_find? {s : String} {f : Function} (h : find? s = some f) :
    f.op.isFunction = true := by
  have hall : ∀ f ∈ table, f.op.isFunction = true := by decide +kernel
  exact hall f (mem_table_of_find? h)

/-- No function has a name like a call of a location. -/
theorem head?_of_find? {s : String} {f : Function} (h : find? s = some f) :
    s.toList.head? ≠ some '@' := by
  have hall : ∀ f ∈ table, f.name.toList.head? ≠ some '@' := by decide +kernel
  have hname : f.name = Text.uppercased s := by
    have := List.find?_some h
    simpa using this
  intro hs
  refine hall f (mem_table_of_find? h) ?_
  cases hl : s.toList with
  | nil => rw [hl] at hs; cases hs
  | cons a cs =>
    rw [hl] at hs
    cases hs
    rw [hname, Text.uppercased, String.toList_ofList, hl, Text.upper_cons,
      Text.upperChar_of_ascii (by decide)]
    rfl

end Function

namespace Op

theorem priority_ne_barrier_of_isFunction {op : Op} (h : op.isFunction = true) :
    op.priority ≠ barrier := by
  cases op <;> first | exact Nat.ne_of_beq_eq_false rfl | cases h

theorem priority_le_barrier (op : Op) : op.priority ≤ barrier := by
  cases op <;> exact Nat.le_of_ble_eq_true rfl

theorem minArgs_of_isWordOperator {op : Op} (h : op.isWordOperator = true) :
    op.info.minArgs = 1 := by
  cases op <;> first | rfl | cases h

theorem maxArgs_of_isWordOperator {op : Op} (h : op.isWordOperator = true) :
    op.info.maxArgs = 1 := by
  cases op <;> first | rfl | cases h

theorem isFunction_of_isWordOperator {op : Op} (h : op.isWordOperator = true) :
    op.isFunction = true := by
  cases op <;> first | rfl | cases h

theorem ne_of_isFunction {op op' : Op} (h : op.isFunction = true) (h' : op'.isFunction = false) :
    op ≠ op' := by
  rintro rfl
  rw [h] at h'
  cases h'

/-- The operators between two operands. -/
def binaries : List Op :=
  [add, sub, mul, div, mod, append, eq, ne, lt, gt, le, ge, and, or]

end Op

theorem Function.wordOperator?_mem {s : String} {op : Op} (h : wordOperator? s = some op) :
    op ∈ Op.binaries := by
  unfold wordOperator? at h
  split at h
  case h_4 => cases h
  all_goals cases h; decide

namespace Compiler

variable {source : List Char} {out : List Instruction} {S : List Pending} {sp : Span}

/-! ## Instructions -/

theorem emit_eq_ok {i : Instruction} {out' : Code} (h : emit out.toArray i sp = .ok out') :
    out' = (out ++ [i]).toArray := by
  unfold emit at h
  split at h
  · cases h
  · cases h
    exact List.push_toArray out i

theorem toList_of_emit {code code' : Code} {i : Instruction} (h : emit code i sp = .ok code') :
    code'.toList = code.toList ++ [i] := by
  obtain ⟨out⟩ := code
  rw [emit_eq_ok h]

/-- Giving a jump its target leaves all other instructions as they are. -/
theorem patch_some (before after : List Instruction) (i : Instruction) :
    patch (before ++ i :: after).toArray (some before.length)
      = (before ++
          { i with op := retarget (before.length + 1 + after.length) i.op } :: after).toArray := by
  have hlen : (before ++ i :: after).length = before.length + 1 + after.length := by
    rw [List.length_append, List.length_cons]
    omega
  simp only [patch, List.modify_toArray, List.size_toArray, hlen]
  rw [List.modify_eq_take_cons_drop (by rw [hlen]; omega)]
  simp

/-- The instruction for the conversion a name asks for. -/
def castPiece : Option ValueType → List Instruction
  | some ty => [{ op := .cast ty, argCount := 1 }]
  | none => []

/-- Emitting what waits is emitting its operation and then its conversion. -/
theorem emitPending_eq_ok {code : Code} {p : Pending} {out' : Code}
    (h : emitPending code p sp = .ok out') :
    ∃ op out₁, p.kind = .op op ∧ emitOp code p op sp = .ok out₁ ∧
      ∀ {l : List Instruction}, out₁ = l.toArray → out' = (l ++ castPiece p.cast).toArray := by
  unfold emitPending at h
  split at h
  · next op hk =>
    obtain ⟨out₁, h₁, h₂⟩ := bind_eq_ok h
    refine ⟨op, out₁, hk, h₁, ?_⟩
    rintro l rfl
    split at h₂
    · next ty hty => rw [hty]; exact emit_eq_ok h₂
    · next hty => cases h₂; rw [hty, castPiece, List.append_nil]
  · cases h

/-- An operation that is neither `AND` nor `OR` nor a choice is one instruction. -/
theorem emitOp_eq_ok {p : Pending} {op : Op} {out' : Code} (h : emitOp out.toArray p op sp = .ok out')
    (hop : op ≠ .and ∧ op ≠ .or ∧ op ≠ .iif) :
    out' = (out ++ [(⟨op, p.literal, p.args⟩ : Instruction)]).toArray := by
  obtain ⟨hand, hor, hiif⟩ := hop
  unfold emitOp at h
  split at h
  · contradiction
  · contradiction
  · contradiction
  · exact emit_eq_ok h

/-- `AND` and `OR` are an instruction for the right side, and the jump of the left side. -/
theorem emitOp_logic {p : Pending} {op : Op} {out' : Code} (h : emitOp out.toArray p op sp = .ok out')
    (hop : op = .and ∨ op = .or) :
    out' = patch (out ++ [({ op := .truth, argCount := 1 } : Instruction)]).toArray p.patch := by
  rcases hop with rfl | rfl
  all_goals
    obtain ⟨out₁, h₁, h₂⟩ := bind_eq_ok h
    cases h₂
    rw [emit_eq_ok h₁]

/-! ## The stack -/

theorem push_eq_ok {c c' : Compiler} {p : Pending} (h : push c p sp = .ok c') :
    c' = { c with stack := p :: c.stack } := by
  unfold push at h
  split at h
  · cases h
  · cases h; rfl

/-- An operator that binds at least as tightly is emitted, and then those below it. -/
theorem reduce_cons {r : Nat} {p : Pending} {code : Code} {c : Compiler} (hp : p.priority ≠ Op.barrier)
    (hr : r ≤ p.priority) (h : reduce r sp (p :: S) code = .ok c) :
    ∃ code', emitPending code p sp = .ok code' ∧ reduce r sp S code' = .ok c := by
  rw [reduce, if_neg] at h
  · exact bind_eq_ok h
  · simp only [Bool.or_eq_true, beq_iff_eq, decide_eq_true_eq, not_or]
    exact ⟨hp, Nat.not_lt.mpr hr⟩

/-- A value whose operator has priority `r` may stand here: no waiting operator takes its left side
away. -/
def Admits (S : List Pending) (r : Nat) : Prop :=
  ∀ p ∈ S.head?, p.priority = Op.barrier ∨ p.priority < r

theorem Admits.mono {r r' : Nat} (h : Admits S r) (hr : r ≤ r') : Admits S r' :=
  fun p hp => (h p hp).imp_right fun hlt => Nat.lt_of_lt_of_le hlt hr

theorem reduce_of_admits {r : Nat} {code : Code} (h : Admits S r) :
    reduce r sp S code = .ok ⟨code, S⟩ := by
  cases S with
  | nil => rfl
  | cons p S =>
    rw [reduce, if_pos]
    simpa using h p rfl

/-! ## Brackets and commas -/

/-- Either a function waits on top, or none does. -/
theorem top_cases (S : List Pending) :
    (top S).isFunction = false ∨
      ∃ f rest op, S = f :: rest ∧ f.kind = .op op ∧ op.isFunction = true := by
  cases S with
  | nil => exact .inl rfl
  | cons f rest =>
    cases hf : f.kind with
    | op op =>
      cases ho : op.isFunction with
      | true => exact .inr ⟨f, rest, op, rfl, hf, ho⟩
      | false =>
        refine .inl ?_
        show f.kind.isFunction = false
        rw [hf]
        exact ho
    | start | openRound | openSquare =>
      refine .inl ?_
      show f.kind.isFunction = false
      rw [hf]
      rfl

/-- A tuple on top is emitted. -/
theorem closeTuple_cases {c c' : Compiler} (h : closeTuple c sp = .ok c') :
    (top c.stack ≠ .op .tuple ∧ c' = c) ∨
      ∃ p S out', c.stack = p :: S ∧ p.kind = .op .tuple ∧ p.args + 1 ≤ maxArgs ∧
        emit c.out { op := .tuple, argCount := p.args + 1 } sp = .ok out' ∧ c' = ⟨out', S⟩ := by
  obtain ⟨out, S⟩ := c
  unfold closeTuple at h
  split at h
  · next p ps heq =>
    replace heq : S = p :: ps := heq
    subst heq
    split at h
    · next hk =>
      split at h
      · cases h
      · next hargs =>
        obtain ⟨out', hemit, h₁⟩ := bind_eq_ok h
        cases h₁
        exact .inr ⟨p, ps, out', rfl, hk, Nat.not_lt.mp hargs, hemit, rfl⟩
    · next hk =>
      cases h
      exact .inl ⟨hk, rfl⟩
  · next heq =>
    replace heq : S = [] := heq
    subst heq
    cases h
    exact .inl ⟨nofun, rfl⟩

/-- A closing round bracket counts the last argument of a function, or ends a group. -/
theorem closeRound_eq_ok {c c' : Compiler} (h : closeRound c sp = .ok c') :
    ∃ b S, c.stack = b :: S ∧ b.kind = .openRound ∧
      ((top S).isFunction = false ∧ c' = { c with stack := S } ∨
        ∃ f rest op, S = f :: rest ∧ f.kind = .op op ∧ op.isFunction = true ∧
          op.info.minArgs ≤ f.args + 1 ∧ f.args + 1 ≤ op.info.maxArgs ∧
          c' = { c with stack := { f with args := f.args + 1 } :: rest }) := by
  obtain ⟨out, stack⟩ := c
  cases stack with
  | nil => cases h
  | cons b S =>
    unfold closeRound at h
    dsimp only at h
    split at h
    · cases h
    · next hb =>
      refine ⟨b, S, rfl, Classical.not_not.mp hb, ?_⟩
      rcases top_cases S with hS | ⟨f, rest, op, rfl, hf, ho⟩
      · refine .inl ⟨hS, ?_⟩
        cases S with
        | nil => cases h; rfl
        | cons f rest =>
          dsimp only at h
          split at h
          · next op hf =>
            replace hS : f.kind.isFunction = false := hS
            rw [hf] at hS
            rw [if_neg (by rw [show op.isFunction = false from hS]; exact nofun)] at h
            cases h
            rfl
          · cases h
            rfl
      · simp only [hf, ho, if_true, Bool.or_eq_true, decide_eq_true_eq] at h
        split at h
        · cases h
        · next hargs =>
          simp only [not_or, Nat.not_lt] at hargs
          cases h
          exact .inr ⟨f, rest, op, rfl, hf, ho, hargs.1, hargs.2, by rw [hf]⟩

/-- A closing round bracket right after its opening one. -/
theorem emptyRound_eq_ok {c : Compiler} {step : Step} (h : emptyRound c sp = .ok step) :
    ∃ b S, c.stack = b :: S ∧ b.kind = .openRound ∧
      ((top S).isFunction = false ∧ value { c with stack := S } { op := .tuple } sp = .ok step ∨
        ∃ f rest op, S = f :: rest ∧ f.kind = .op op ∧ op.isFunction = true ∧
          op.info.minArgs ≤ f.args ∧
          step = { operatorNext := true, compiler := { c with stack := S } }) := by
  obtain ⟨out, stack⟩ := c
  cases stack with
  | nil => cases h
  | cons b S =>
    unfold emptyRound at h
    dsimp only at h
    split at h
    · cases h
    · next hb =>
      refine ⟨b, S, rfl, Classical.not_not.mp hb, ?_⟩
      rcases top_cases S with hS | ⟨f, rest, op, rfl, hf, ho⟩
      · refine .inl ⟨hS, ?_⟩
        cases S with
        | nil => exact h
        | cons f rest =>
          dsimp only at h
          split at h
          · next op hf =>
            replace hS : f.kind.isFunction = false := hS
            rw [hf] at hS
            rwa [if_neg (by rw [show op.isFunction = false from hS]; exact nofun)] at h
          · exact h
      · simp only [hf, ho, if_true] at h
        split at h
        · cases h
        · next hargs =>
          cases h
          exact .inr ⟨f, rest, op, rfl, hf, ho, Nat.not_lt.mp hargs, rfl⟩

/-- An index is counted for the variable below, if there is one. -/
theorem countIndex_cases (S : List Pending) :
    top S ≠ .op .var ∧ countIndex S = S ∨
      ∃ v rest, S = v :: rest ∧ v.kind = .op .var ∧
        countIndex S = { v with args := v.args + 1 } :: rest := by
  cases S with
  | nil => exact .inl ⟨nofun, rfl⟩
  | cons v rest =>
    by_cases hv : v.kind = .op .var
    · exact .inr ⟨v, rest, rfl, hv, if_pos hv⟩
    · exact .inl ⟨hv, if_neg hv⟩

theorem closeSquare_eq_ok {c c' : Compiler} (h : closeSquare c sp = .ok c') :
    ∃ b S, c.stack = b :: S ∧ b.kind = .openSquare ∧ c' = { c with stack := countIndex S } := by
  obtain ⟨out, stack⟩ := c
  cases stack with
  | nil => cases h
  | cons b S =>
    unfold closeSquare at h
    dsimp only at h
    split at h
    · cases h
    · next hb =>
      cases h
      exact ⟨b, S, rfl, Classical.not_not.mp hb, rfl⟩

/-- A closing square bracket in value position emits the tuple that waits in it. -/
theorem emptySquare_eq_ok {c : Compiler} {step : Step} (h : emptySquare c sp = .ok step) :
    ∃ p b S out', c.stack = p :: b :: S ∧ p.kind = .op .tuple ∧ b.kind = .openSquare ∧
      emit c.out { op := .tuple, argCount := p.args } sp = .ok out' ∧
      step = { operatorNext := true, compiler := ⟨out', countIndex S⟩ } := by
  obtain ⟨out, stack⟩ := c
  cases stack with
  | nil => cases h
  | cons p S =>
    unfold emptySquare at h
    dsimp only at h
    split at h
    · cases h
    · next hp =>
      obtain ⟨out', hemit, h₁⟩ := bind_eq_ok h
      cases S with
      | nil => cases h₁
      | cons b S =>
        dsimp only at h₁
        split at h₁
        · cases h₁
        · next hb =>
          cases h₁
          exact ⟨p, b, S, out', rfl, Classical.not_not.mp hp, Classical.not_not.mp hb, hemit, rfl⟩

/-- A comma counts an item of the tuple on top, or opens one. -/
theorem tupleComma_eq_ok {c c' : Compiler} (h : tupleComma c sp = .ok c') :
    (∃ p S, c.stack = p :: S ∧ p.kind = .op .tuple ∧
      c' = { c with stack := { p with args := p.args + 1 } :: S }) ∨
    top c.stack ≠ .op .tuple ∧
      c' = { c with stack := { kind := .op .tuple, args := 1 } :: c.stack } := by
  obtain ⟨out, stack⟩ := c
  unfold tupleComma at h
  by_cases ht : top stack = .op .tuple
  · rw [if_pos ht] at h
    cases stack with
    | nil => cases ht
    | cons p S =>
      obtain ⟨c₁, h₁, h₂⟩ := bind_eq_ok h
      cases h₁
      dsimp only at h₂
      split at h₂
      · cases h₂
      · cases h₂
        exact .inl ⟨p, S, rfl, ht, rfl⟩
  · rw [if_neg ht] at h
    obtain ⟨c₁, h₁, h₂⟩ := bind_eq_ok h
    cases push_eq_ok h₁
    dsimp only at h₂
    split at h₂
    · cases h₂
    · cases h₂
      exact .inr ⟨ht, rfl⟩

/-- A comma is one between arguments if a function has opened the bracket it stands in. -/
theorem comma_eq_ok {c c' : Compiler} (h : comma c sp = .ok c') :
    (∃ b f rest op, c.stack = b :: f :: rest ∧ b.kind = .openRound ∧ f.kind = .op op ∧
      op.isFunction = true ∧ functionComma c.out b f op rest sp = .ok c') ∨
    tupleComma c sp = .ok c' := by
  obtain ⟨out, stack⟩ := c
  unfold comma at h
  split at h
  · next b f rest heq =>
    split at h
    · next op hb hf =>
      split at h
      · next ho => exact .inl ⟨b, f, rest, op, heq, hb, hf, ho, h⟩
      · exact .inr h
    · exact .inr h
  · exact .inr h

/-! ## Operators between operands -/

/-- The two operators that leave a jump behind their left side, and the jump. -/
inductive Logic : Op → (Nat → Op) → Prop
  | and : Logic .and .andJump
  | or : Logic .or .orJump

/-- `AND` and `OR` leave a jump and wait; all other operators only wait. -/
theorem binary_cases {op : Op} {c' : Compiler} (h : binary ⟨out.toArray, S⟩ op sp = .ok c') :
    (∃ jump, Logic op jump ∧
      c' = ⟨(out ++ [({ op := jump 0 } : Instruction)]).toArray,
        { kind := .op op, args := 2, patch := some out.length } :: S⟩) ∨
    op ≠ .and ∧ op ≠ .or ∧ c' = ⟨out.toArray, { kind := .op op, args := op.info.minArgs } :: S⟩ := by
  have hlogic : ∀ {op : Op} {jump : Nat → Op}, Logic op jump →
      binary ⟨out.toArray, S⟩ op sp = .ok c' →
      c' = ⟨(out ++ [({ op := jump 0 } : Instruction)]).toArray,
        { kind := .op op, args := 2, patch := some out.length } :: S⟩ := by
    intro op jump hl h
    cases hl
    all_goals
      obtain ⟨out', hemit, h₁⟩ := bind_eq_ok h
      cases push_eq_ok h₁
      rw [emit_eq_ok hemit]
      rfl
  by_cases hand : op = .and
  · subst hand
    exact .inl ⟨_, .and, hlogic .and h⟩
  by_cases hor : op = .or
  · subst hor
    exact .inl ⟨_, .or, hlogic .or h⟩
  refine .inr ⟨hand, hor, ?_⟩
  unfold binary at h
  dsimp only at h
  split at h
  · contradiction
  · contradiction
  · exact push_eq_ok h

/-! ## Values -/

theorem value_stack {c : Compiler} {i : Instruction} {step : Step} (h : value c i sp = .ok step) :
    step.operatorNext = true ∧ step.skip = 0 ∧ step.compiler.stack = c.stack := by
  obtain ⟨out', -, h₁⟩ := bind_eq_ok h
  cases h₁
  exact ⟨rfl, rfl, rfl⟩

theorem value_eq_ok {i : Instruction} {step : Step} (h : value ⟨out.toArray, S⟩ i sp = .ok step) :
    step = { operatorNext := true, compiler := ⟨(out ++ [i]).toArray, S⟩ } := by
  obtain ⟨out', h₁, h₂⟩ := bind_eq_ok h
  cases h₂
  rw [emit_eq_ok h₁]

theorem opening_eq_ok {c : Compiler} {p : Pending} {step : Step} (h : opening c p sp = .ok step) :
    step = { operatorNext := false, compiler := { c with stack := p :: c.stack } } := by
  obtain ⟨c', h₁, h₂⟩ := bind_eq_ok h
  cases h₂
  rw [push_eq_ok h₁]

theorem call_eq_ok {c : Compiler} {f : Pending} {step : Step} (h : call c f sp = .ok step) :
    step = { operatorNext := false, skip := 1,
             compiler := { c with stack := { kind := .openRound } :: f :: c.stack } } := by
  obtain ⟨c₁, h₁, h₂⟩ := bind_eq_ok h
  obtain ⟨c₂, h₃, h₄⟩ := bind_eq_ok h₂
  cases h₄
  rw [push_eq_ok h₃, push_eq_ok h₁]

/-- A function name opens a call if a bracket follows it; otherwise the function takes no argument,
or the next value. -/
theorem functionCall_eq_ok {c : Compiler} {s : String} {f : Function} {next : Option Token}
    {step : Step} (h : functionCall c source s f next sp = .ok step) :
    (next = some .openRound ∧
      step = { operatorNext := false, skip := 1,
               compiler := { c with stack := { kind := .openRound } ::
                 { kind := .op f.op, cast := f.cast } :: c.stack } }) ∨
    (next ≠ some .openRound ∧ f.op.info.minArgs = 0 ∧
      step = { operatorNext := true,
               compiler := { c with stack := { kind := .op f.op, cast := f.cast } :: c.stack } }) ∨
    (next ≠ some .openRound ∧ f.op.info.minArgs = 1 ∧
      step = { operatorNext := false,
               compiler := { c with stack :=
                 { kind := .op f.op, cast := f.cast, args := 1 } :: c.stack } }) := by
  -- the check of the space after a word leaves nothing behind
  unfold functionCall at h
  dsimp only at h
  generalize hcall : ite (next = some .openRound) _ _ = called at h
  replace h : called = .ok step := by
    by_cases hw : f.op.isWordOperator = true
    · rw [if_pos hw] at h
      exact (bind_eq_ok h).choose_spec.2
    · rw [if_neg hw] at h
      exact h
  rw [← hcall] at h
  split at h
  · next hn => exact .inl ⟨hn, call_eq_ok h⟩
  · next hn =>
    split at h
    · next hmin =>
      obtain ⟨c', hpush, h₁⟩ := bind_eq_ok h
      cases h₁
      cases push_eq_ok hpush
      exact .inr (.inl ⟨hn, hmin, rfl⟩)
    · next hmin => exact .inr (.inr ⟨hn, hmin, opening_eq_ok h⟩)
    · cases h

/-- A name that is no call of a location. -/
theorem nameValue_of_ne {c : Compiler} {s : String} {next after : Option Token}
    (hs : s.toList.head? ≠ some '@') :
    nameValue c source s next after sp =
      match Function.find? s with
      | some f => functionCall c source s f next sp
      | none => variableRead c s next after sp := by
  unfold nameValue
  split
  · next h => rw [h] at hs; exact absurd rfl hs
  · rfl

/-- A call of a location has its name as first argument, and others if a bracket follows. -/
theorem locationCall_eq_ok {c : Compiler} {location : List Char} {next : Option Token} {step : Step}
    (h : locationCall c location next sp = .ok step) :
    ∃ code, emit c.out { op := .push, literal := some (.text (String.ofList location)) } sp = .ok code ∧
      (next = some .openRound ∧
        step = { operatorNext := false, skip := 1,
                 compiler := ⟨code, { kind := .openRound } ::
                   { kind := .op (.func none), args := 1 } :: c.stack⟩ } ∨
       step = { operatorNext := true,
                compiler := ⟨code, { kind := .op (.func none), args := 1 } :: c.stack⟩ }) := by
  unfold locationCall at h
  split at h
  · cases h
  · obtain ⟨code, hemit, h₁⟩ := bind_eq_ok h
    refine ⟨code, hemit, ?_⟩
    dsimp only at h₁
    split at h₁
    · next hn => exact .inl ⟨hn, call_eq_ok h₁⟩
    · obtain ⟨c', hpush, h₂⟩ := bind_eq_ok h₁
      cases h₂
      cases push_eq_ok hpush
      exact .inr rfl

/-- A variable is read as it is, with an index still to come, or its last item. -/
theorem variableRead_eq_ok {c : Compiler} {s : String} {next after : Option Token} {step : Step}
    (h : variableRead c s next after sp = .ok step) :
    (∃ op step', (op = .lastVar ∧ next = some .openSquare ∧ after = some .closeSquare ∧
          step = { step' with skip := 2 } ∨ op = .var ∧ step = step') ∧
        value c { op, literal := some (.text s) } sp = .ok step') ∨
    next = some .openSquare ∧
      step = { operatorNext := false, skip := 1,
               compiler := { c with stack := { kind := .openSquare } ::
                 { kind := .op .var, literal := some (.text s) } :: c.stack } } := by
  unfold variableRead at h
  dsimp only at h
  split at h
  · next hn =>
    split at h
    · next ha =>
      obtain ⟨step', hv, h₁⟩ := bind_eq_ok h
      cases h₁
      exact .inl ⟨.lastVar, step', .inl ⟨rfl, hn, ha, rfl⟩, hv⟩
    · obtain ⟨c₁, h₁, h₂⟩ := bind_eq_ok h
      obtain ⟨c₂, h₃, h₄⟩ := bind_eq_ok h₂
      cases h₄
      cases push_eq_ok h₁
      cases push_eq_ok h₃
      exact .inr ⟨hn, rfl⟩
  · exact .inl ⟨.var, step, .inr ⟨rfl, rfl⟩, h⟩

/-- A name in value position calls a location or a function, or reads a variable. -/
theorem nameValue_cases {c : Compiler} {s : String} {next after : Option Token} {step : Step}
    (h : nameValue c source s next after sp = .ok step) :
    (Function.find? s = none ∧ ∃ location, locationCall c location next sp = .ok step) ∨
    (∃ f, Function.find? s = some f ∧ functionCall c source s f next sp = .ok step) ∨
    (Function.find? s = none ∧ variableRead c s next after sp = .ok step) := by
  by_cases hs : s.toList.head? = some '@'
  · refine .inl ⟨?_, ?_⟩
    · cases hf : Function.find? s with
      | none => rfl
      | some f => exact absurd hs (Function.head?_of_find? hf)
    · unfold nameValue at h
      split at h
      · next location _ => exact ⟨location, h⟩
      · next hne =>
        cases hl : s.toList with
        | nil => rw [hl] at hs; cases hs
        | cons a location =>
          rw [hl] at hs
          cases hs
          exact absurd hl (hne location)
  · rw [nameValue_of_ne hs] at h
    cases hf : Function.find? s with
    | some f =>
      rw [hf] at h
      exact .inr (.inl ⟨f, rfl, h⟩)
    | none =>
      rw [hf] at h
      exact .inr (.inr ⟨rfl, h⟩)

/-! ## Tokens -/

/-- A token in value position is handled, and then the tokens it has not used up. -/
theorem run_value {c : Compiler} {token : Token} {rest : List (Token × Span)} {code : Code}
    (h : run source false c ((token, sp) :: rest) = .ok code) :
    ∃ step, valueStep source token sp (rest[0]?.map (·.1)) (rest[1]?.map (·.1)) c = .ok step ∧
      run source step.operatorNext step.compiler (rest.drop step.skip) = .ok code := by
  rw [run] at h
  exact bind_eq_ok h

/-- What a token in operator position does when the operators that bind more tightly are out. -/
def arrive (inc : Incoming) (c : Compiler) (sp : Span) : Except SourceError (Bool × Compiler) :=
  match inc with
  | .closeRound => do return (true, ← closeRound (← closeTuple c sp) sp)
  | .closeSquare => do return (true, ← closeSquare (← closeTuple c sp) sp)
  | .comma => do return (false, ← comma c sp)
  | .binary op => do return (false, ← binary c op sp)

/-- A token in operator position is read, the operators that bind more tightly are emitted, and then
it is handled. -/
theorem run_operator_iff {c : Compiler} {token : Token} {rest : List (Token × Span)} {code : Code} :
    run source true c ((token, sp) :: rest) = .ok code ↔
      ∃ inc c₁ flag c₂, incoming source sp token = .ok inc ∧
        reduce inc.priority sp c.stack c.out = .ok c₁ ∧ arrive inc c₁ sp = .ok (flag, c₂) ∧
        run source flag c₂ rest = .ok code := by
  rw [run]
  constructor
  · intro h
    obtain ⟨⟨flag, c₂⟩, h₁, h₂⟩ := bind_eq_ok h
    obtain ⟨inc, hi, h₃⟩ := bind_eq_ok h₁
    obtain ⟨c₁, hr, h₄⟩ := bind_eq_ok h₃
    exact ⟨inc, c₁, flag, c₂, hi, hr, h₄, h₂⟩
  · rintro ⟨inc, c₁, flag, c₂, hi, hr, ha, h⟩
    show (operatorStep source token sp c >>= _) = _
    have hstep : operatorStep source token sp c = .ok (flag, c₂) := by
      unfold operatorStep
      rw [hi]
      show (reduce inc.priority sp c.stack c.out >>= _) = _
      rw [hr]
      exact ha
    rw [hstep]
    exact h

/-- At the end of the text all operators are emitted, and then a tuple without brackets. -/
theorem run_nil_iff {c : Compiler} {code : Code} :
    run source true c [] = .ok code ↔
      ∃ c₁ c₂, reduce 0 ⟨Text.byteSize source, Text.byteSize source⟩ c.stack c.out = .ok c₁ ∧
        closeTuple c₁ ⟨Text.byteSize source, Text.byteSize source⟩ = .ok c₂ ∧
        c₂.stack.length ≤ 1 ∧ c₂.out = code := by
  rw [run]
  constructor
  · intro h
    obtain ⟨c₁, hr, h₁⟩ := bind_eq_ok h
    obtain ⟨c₂, ht, h₂⟩ := bind_eq_ok h₁
    split at h₂
    · cases h₂
    · next hlen => cases h₂; exact ⟨c₁, c₂, hr, ht, Nat.not_lt.mp hlen, rfl⟩
  · rintro ⟨c₁, c₂, hr, ht, hlen, rfl⟩
    show finish c _ = _
    unfold finish
    rw [hr]
    show (closeTuple c₁ _ >>= _) = _
    rw [ht]
    exact if_neg (Nat.not_lt.mpr hlen)

end Compiler

end QuestScript
