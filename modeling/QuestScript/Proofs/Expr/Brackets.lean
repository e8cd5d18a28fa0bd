import QuestScript.Proofs.Expr.Scan
import QuestScript.Proofs.Expr.Tree

/-!
# Operators and the ends of brackets

A token in operator position first emits the operators that bind more tightly. A comma, a closing
bracket and the end of the text emit all of them down to the last barrier, so what they do depends
only on what is left then.
-/

namespace QuestScript

/-! ## Operators -/

namespace Token

theorem operator?_mem {token : Token} {op : Op} (h : token.operator? = some op) :
    op ∈ Op.binaries := by
  unfold operator? at h
  split at h
  case h_12 => exact Function.wordOperator?_mem h
  case h_13 => cases h
  all_goals cases h; decide

/-- A token that stands for an operator is read as that operator. -/
theorem incoming_of_operator? {source : List Char} {sp : Span} {token : Token} {op : Op}
    {inc : Compiler.Incoming} (h : token.operator? = some op)
    (hi : Compiler.incoming source sp token = .ok inc) : inc = .binary op := by
  cases token with
  | name s =>
    replace h : Function.wordOperator? s = some op := h
    simp only [Compiler.incoming, h] at hi
    obtain ⟨_, -, h₂⟩ := bind_eq_ok hi
    cases h₂
    rfl
  | number n | text s | code s | openRound | closeRound | openSquare | closeSquare | comma
  | colon => cases h
  | _ =>
    cases h
    cases hi
    rfl

end Token

namespace Spells

theorem tail_le_head {e : Expr} {head tail : Nat} {t : List (Token × Span)}
    (h : Spells (.expr e head tail) t) : tail ≤ head := by
  cases h with
  | neg => exact Nat.le_trans (Nat.min_le_left _ _) (Op.priority_le_barrier _)
  | word => exact Nat.le_trans (Nat.min_le_left _ _) (Op.priority_le_barrier _)
  | binary => exact Nat.min_le_left _ _
  | item => exact Op.priority_le_barrier _
  | call => exact Op.priority_le_barrier _
  | iif => exact Op.priority_le_barrier _
  | _ => exact Nat.le_refl _

/-- The operand of a minus sign begins with a number only if it is that number: no operator binds
more tightly than the sign. -/
theorem eq_number {e : Expr} {head tail : Nat} {n : Number} {sp : Span} {t : List (Token × Span)}
    (h : Spells (.expr e head tail) ((.number n, sp) :: t)) (hh : Op.neg.priority < head) :
    e = .number n ∧ t = [] := by
  have hall : ∀ op ∈ Op.binaries, op.priority < Op.neg.priority := by decide
  generalize hts : (Token.number n, sp) :: t = ts at h
  cases h with
  | number => cases hts; exact ⟨rfl, rfl⟩
  | binary sp' hop => exact absurd hh (Nat.lt_asymm (hall _ (Token.operator?_mem hop)))
  | _ => cases hts

end Spells

namespace Compiler

variable {source : List Char} {code : Code} {out : List Instruction} {S : List Pending} {sp : Span}
  {rest : List (Token × Span)}

/-! ## Tokens in operator position -/

/-- Whether no operator is taken off a stack with this on top. -/
def isBarrier : Pending.Kind → Bool
  | .op op => op == .tuple
  | _ => true

theorem admits_of_isBarrier {r : Nat} (h : isBarrier (top S) = true) : Admits S r := by
  intro p hp
  cases S with
  | nil => cases hp
  | cons q S =>
    cases hp
    replace h : isBarrier p.kind = true := h
    unfold Pending.priority
    split
    · next op hk =>
      rw [hk] at h
      have hop : op = .tuple := by simpa [isBarrier] using h
      rw [hop]
      exact .inl rfl
    · exact .inl rfl

/-- A token that ends an item finds the stack as it is when nothing waits above a barrier. -/
theorem run_at_barrier {token : Token} {inc : Incoming} (hS : isBarrier (top S) = true)
    (hi : incoming source sp token = .ok inc) :
    run source true ⟨out.toArray, S⟩ ((token, sp) :: rest) = .ok code ↔
      ∃ flag c', arrive inc ⟨out.toArray, S⟩ sp = .ok (flag, c') ∧
        run source flag c' rest = .ok code := by
  have hr : reduce inc.priority sp S out.toArray = .ok ⟨out.toArray, S⟩ :=
    reduce_of_admits (admits_of_isBarrier hS)
  rw [run_operator_iff]
  constructor
  · rintro ⟨inc', c₁, flag, c₂, hi', hr', ha, h⟩
    rw [hi] at hi'
    cases hi'
    rw [hr] at hr'
    cases hr'
    exact ⟨flag, c₂, ha, h⟩
  · rintro ⟨flag, c', ha, h⟩
    exact ⟨inc, _, flag, c', hi, hr, ha, h⟩

theorem closeTuple_eq_ok {p : Pending} {c' : Compiler} (hp : p.kind = .op .tuple)
    (h : closeTuple ⟨out.toArray, p :: S⟩ sp = .ok c') :
    c' = ⟨(out ++ [({ op := .tuple, argCount := p.args + 1 } : Instruction)]).toArray, S⟩ := by
  rcases closeTuple_cases h with ⟨htop, -⟩ | ⟨p', S', out', hstack, -, -, hemit, rfl⟩
  · exact absurd hp htop
  · cases hstack
    rw [emit_eq_ok hemit]

theorem closeTuple_of_ne {code : Code} (hS : top S ≠ .op .tuple) :
    closeTuple ⟨code, S⟩ sp = .ok ⟨code, S⟩ := by
  cases S with
  | nil => rfl
  | cons p S => exact if_neg hS

theorem run_comma (hS : isBarrier (top S) = true)
    (h : run source true ⟨out.toArray, S⟩ ((.comma, sp) :: rest) = .ok code) :
    ∃ c', comma ⟨out.toArray, S⟩ sp = .ok c' ∧ run source false c' rest = .ok code := by
  obtain ⟨flag, c', ha, h₁⟩ := (run_at_barrier hS rfl).mp h
  obtain ⟨c₁, hc, h₂⟩ := bind_eq_ok ha
  cases h₂
  exact ⟨c', hc, h₁⟩

section Closing

variable {token : Token} {inc : Incoming} {close : Compiler → Span → Except SourceError Compiler}

/-- A closing bracket when no tuple waits in it. -/
theorem run_closing (hi : incoming source sp token = .ok inc)
    (ha : ∀ c, arrive inc c sp = do return (true, ← close (← closeTuple c sp) sp))
    (hS' : top S ≠ .op .tuple) (hS : isBarrier (top S) = true)
    (h : run source true ⟨out.toArray, S⟩ ((token, sp) :: rest) = .ok code) :
    ∃ c', close ⟨out.toArray, S⟩ sp = .ok c' ∧ run source true c' rest = .ok code := by
  obtain ⟨flag, c', harrive, h₁⟩ := (run_at_barrier hS hi).mp h
  rw [ha] at harrive
  obtain ⟨c₁, ht, h₂⟩ := bind_eq_ok harrive
  rw [closeTuple_of_ne hS'] at ht
  cases ht
  obtain ⟨c₂, hc, h₃⟩ := bind_eq_ok h₂
  cases h₃
  exact ⟨c', hc, h₁⟩

theorem run_closeRound (hS' : top S ≠ .op .tuple) (hS : isBarrier (top S) = true)
    (h : run source true ⟨out.toArray, S⟩ ((.closeRound, sp) :: rest) = .ok code) :
    ∃ c', closeRound ⟨out.toArray, S⟩ sp = .ok c' ∧ run source true c' rest = .ok code :=
  run_closing rfl (fun _ => rfl) hS' hS h

theorem run_closeSquare (hS' : top S ≠ .op .tuple) (hS : isBarrier (top S) = true)
    (h : run source true ⟨out.toArray, S⟩ ((.closeSquare, sp) :: rest) = .ok code) :
    ∃ c', closeSquare ⟨out.toArray, S⟩ sp = .ok c' ∧ run source true c' rest = .ok code :=
  run_closing rfl (fun _ => rfl) hS' hS h

/-- A closing bracket emits the tuple that waits in it, and then does what it does without one. -/
theorem run_closing_tuple {p : Pending} (hi : incoming source sp token = .ok inc)
    (ha : ∀ c, arrive inc c sp = do return (true, ← close (← closeTuple c sp) sp))
    (hp : p.kind = .op .tuple) (hS : isBarrier (top S) = true) (hS' : top S ≠ .op .tuple)
    (h : run source true ⟨out.toArray, p :: S⟩ ((token, sp) :: rest) = .ok code) :
    run source true
      ⟨(out ++ [({ op := .tuple, argCount := p.args + 1 } : Instruction)]).toArray, S⟩
      ((token, sp) :: rest) = .ok code := by
  have hp' : isBarrier (top (p :: S)) = true := by
    show isBarrier p.kind = true
    rw [hp]
    rfl
  obtain ⟨flag, c₂, harrive, h₁⟩ := (run_at_barrier hp' hi).mp h
  rw [ha] at harrive
  obtain ⟨c₁, ht, h₂⟩ := bind_eq_ok harrive
  cases closeTuple_eq_ok hp ht
  refine (run_at_barrier hS hi).mpr ⟨flag, c₂, ?_, h₁⟩
  rw [ha, closeTuple_of_ne hS']
  exact h₂

end Closing

theorem run_binary {c : Compiler} {token : Token} {op : Op} (ht : token.operator? = some op)
    (h : run source true c ((token, sp) :: rest) = .ok code) :
    ∃ c₁ c₂, reduce op.priority sp c.stack c.out = .ok c₁ ∧ binary c₁ op sp = .ok c₂ ∧
      run source false c₂ rest = .ok code := by
  obtain ⟨inc, c₁, flag, c₂, hi, hr, ha, h₁⟩ := run_operator_iff.mp h
  cases Token.incoming_of_operator? ht hi
  obtain ⟨c₃, hb, h₂⟩ := bind_eq_ok ha
  cases h₂
  exact ⟨c₁, c₂, hr, hb, h₁⟩

/-! ## Ends of brackets -/

/-- What may follow an expression that fills a bracket: its end, or the end of the text. -/
inductive Closes : List (Token × Span) → Prop
  | finish : Closes []
  | round (sp : Span) (rest : List (Token × Span)) : Closes ((.closeRound, sp) :: rest)
  | square (sp : Span) (rest : List (Token × Span)) : Closes ((.closeSquare, sp) :: rest)

/-- What may follow an item of a list. -/
inductive Ends : List (Token × Span) → Prop
  | comma (sp : Span) (rest : List (Token × Span)) : Ends ((.comma, sp) :: rest)
  | close {rest : List (Token × Span)} : Closes rest → Ends rest

/-- What follows an expression that is complete. -/
def Follows (rest : List (Token × Span)) : Prop :=
  rest[0]?.map (·.1) ≠ some .openRound ∧ rest[0]?.map (·.1) ≠ some .openSquare

theorem Ends.follows (h : Ends rest) : Follows rest := by
  cases h with
  | comma sp rest => exact ⟨nofun, nofun⟩
  | close h =>
    cases h with
    | finish => exact ⟨nofun, nofun⟩
    | round sp rest => exact ⟨nofun, nofun⟩
    | square sp rest => exact ⟨nofun, nofun⟩

theorem follows_of_operator? {token : Token} {op : Op} (h : token.operator? = some op) :
    Follows ((token, sp) :: rest) := by
  constructor
  · rintro ⟨⟩
    cases h
  · rintro ⟨⟩
    cases h

/-- The end of an item emits all operators of the item, and only sees what they leave. -/
theorem Ends.run {c : Compiler} (hrest : Ends rest) (h : run source true c rest = .ok code) :
    ∃ sp c₁, reduce 0 sp c.stack c.out = .ok c₁ ∧
      ∀ c', reduce 0 sp c'.stack c'.out = .ok c₁ → Compiler.run source true c' rest = .ok code := by
  have htoken : ∀ {token : Token} {sp : Span} {rest : List (Token × Span)} {inc : Incoming},
      incoming source sp token = .ok inc → inc.priority = 0 →
      Compiler.run source true c ((token, sp) :: rest) = .ok code →
      ∃ sp' c₁, reduce 0 sp' c.stack c.out = .ok c₁ ∧ ∀ c', reduce 0 sp' c'.stack c'.out = .ok c₁ →
        Compiler.run source true c' ((token, sp) :: rest) = .ok code := by
    intro token sp rest inc hi hp h
    obtain ⟨inc', c₁, flag, c₂, hi', hr, ha, h₁⟩ := run_operator_iff.mp h
    rw [hi] at hi'
    cases hi'
    rw [hp] at hr
    refine ⟨sp, c₁, hr, fun c' hr' => run_operator_iff.mpr ?_⟩
    exact ⟨inc, c₁, flag, c₂, hi, hp.symm ▸ hr', ha, h₁⟩
  cases hrest with
  | comma sp rest => exact htoken rfl rfl h
  | close hrest =>
    cases hrest with
    | finish =>
      obtain ⟨c₁, c₂, hr, h₁⟩ := run_nil_iff.mp h
      exact ⟨_, c₁, hr, fun c' hr' => run_nil_iff.mpr ⟨c₁, c₂, hr', h₁⟩⟩
    | round sp rest => exact htoken rfl rfl h
    | square sp rest => exact htoken rfl rfl h

/-- The end of a bracket emits the tuple that fills it. -/
theorem Closes.run_tuple {p : Pending} (hrest : Closes rest) (hp : p.kind = .op .tuple)
    (hS : isBarrier (top S) = true) (hS' : top S ≠ .op .tuple)
    (h : run source true ⟨out.toArray, p :: S⟩ rest = .ok code) :
    run source true
      ⟨(out ++ [({ op := .tuple, argCount := p.args + 1 } : Instruction)]).toArray, S⟩ rest
        = .ok code := by
  cases hrest with
  | finish =>
    have hp' : isBarrier (top (p :: S)) = true := by
      show isBarrier p.kind = true
      rw [hp]
      rfl
    obtain ⟨c₁, c₂, hr, ht, h₁⟩ := run_nil_iff.mp h
    rw [reduce_of_admits (admits_of_isBarrier hp')] at hr
    cases hr
    cases closeTuple_eq_ok hp ht
    exact run_nil_iff.mpr
      ⟨_, _, reduce_of_admits (admits_of_isBarrier hS), closeTuple_of_ne hS', h₁⟩
  | round sp rest => exact run_closing_tuple rfl (fun _ => rfl) hp hS hS' h
  | square sp rest => exact run_closing_tuple rfl (fun _ => rfl) hp hS hS' h

end Compiler

end QuestScript
