import QuestScript.Proofs.Expr.Balance
import QuestScript.Proofs.Expr.Nested
import QuestScript.Proofs.Expr.Placed

/-!
# The outline of the stack

What the stack has to say about the brackets and commas of an expression: which brackets are open, and
whether a tuple waits outside all of them. The tokens say the same without compiling anything
(`Token.mark`), and they agree after each step (`operatorStep_outline`, `valueStep_outline`).
-/

namespace QuestScript

namespace Token

/-- The brackets still to be closed after a token, and whether a comma has been seen outside all of
them. -/
def mark (o : List Char × Bool) (token : Token) : Option (List Char × Bool) :=
  (nest o.1 token).map (·, o.2 || (token == .comma && o.1.isEmpty))

/-- Whether a token is neither a bracket nor a comma. -/
def isPlain : Token → Bool
  | openRound | closeRound | openSquare | closeSquare | comma => false
  | _ => true

theorem mark_of_isPlain {token : Token} (h : token.isPlain = true) (o : List Char × Bool) :
    mark o token = some o := by
  obtain ⟨l, b⟩ := o
  cases token with
  | openRound | closeRound | openSquare | closeSquare | comma => cases h
  | _ => exact congrArg (fun b' => some (l, b')) (Bool.or_false b)

/-- The same after some tokens. -/
def markAll (o : List Char × Bool) (tokens : List Token) : Option (List Char × Bool) := tokens.foldlM mark o

theorem markAll_cons (o : List Char × Bool) (token : Token) (tokens : List Token) :
    markAll o (token :: tokens) = (mark o token).bind (markAll · tokens) := List.foldlM_cons

theorem markAll_append (o : List Char × Bool) (ts us : List Token) :
    markAll o (ts ++ us) = (markAll o ts).bind (markAll · us) := List.foldlM_append

/-- Tokens whose brackets can be followed, and whether one of them is a comma outside all brackets. -/
theorem markAll_eq {l l' : List Char} {tokens : List Token} (h : nestAll l tokens = some l') (b : Bool) :
    markAll (l, b) tokens = some (l', b || topComma l tokens) := by
  induction tokens generalizing l b with
  | nil =>
    cases h
    rw [topComma, Bool.or_false]
    rfl
  | cons token tokens ih =>
    rw [nestAll_cons] at h
    obtain ⟨l₁, h₁, h₂⟩ := Option.bind_eq_some_iff.mp h
    rw [markAll_cons, mark, h₁]
    show markAll (l₁, _) tokens = _
    rw [ih h₂, topComma, h₁, Option.any_some, Bool.or_assoc]

end Token

namespace Compiler

variable {sp : Span} {out : Code} {S : List Pending} {p : Pending} {w : List Char} {token : Token}

/-! ## Outlines -/

/-- Whether a tuple waits outside all brackets. -/
def spread : List Pending → Bool
  | [] => false
  | p :: S => decide (p.kind = .op .tuple) && (brackets S).isEmpty || spread S

/-- The brackets still to be closed, and whether a tuple waits outside all of them. -/
def outline (S : List Pending) : List Char × Bool := (brackets S, spread S)

theorem outline_op {o : Op} (h : p.kind = .op o) (ho : o ≠ .tuple) (S : List Pending) :
    outline (p :: S) = outline S := by
  simp [outline, spread, brackets_cons_of_op h, h, ho]

theorem outline_tuple (h : p.kind = .op .tuple) (S : List Pending) :
    outline (p :: S) = (brackets S, (brackets S).isEmpty || spread S) := by
  simp [outline, spread, brackets_cons_of_op h, h]

theorem outline_openRound (h : p.kind = .openRound) (S : List Pending) :
    outline (p :: S) = (')' :: brackets S, spread S) := by
  simp [outline, spread, brackets, Pending.closer?, h]

theorem outline_openSquare (h : p.kind = .openSquare) (S : List Pending) :
    outline (p :: S) = (']' :: brackets S, spread S) := by
  simp [outline, spread, brackets, Pending.closer?, h]

/-- The number of operands does not show. -/
theorem outline_kind {q : Pending} (h : q.kind = p.kind) (S : List Pending) : outline (q :: S) = outline (p :: S) := by
  have hcloser : q.closer? = p.closer? := by rw [Pending.closer?, Pending.closer?, h]
  simp only [outline, spread, brackets, List.filterMap_cons, hcloser, h]

theorem outline_append_start (S : List Pending) : outline (S ++ [{ kind := .start }]) = outline S := by
  have hb : ∀ S : List Pending, brackets (S ++ [{ kind := .start }]) = brackets S := by
    intro S
    rw [brackets_append]
    exact List.append_nil _
  induction S with
  | nil => rfl
  | cons p S ih =>
    rw [outline, outline, Prod.mk.injEq] at ih
    rw [List.cons_append, outline, outline, spread, spread, ih.2, hb, ← List.cons_append, hb]

theorem countIndex_outline (S : List Pending) : outline (countIndex S) = outline S := by
  rcases countIndex_cases S with ⟨-, hS⟩ | ⟨v, rest, rfl, -, hS⟩
  · rw [hS]
  · rw [hS]
    exact outline_kind rfl rest

/-- Operators that are emitted do not show: a tuple is not one of them. -/
theorem reduce_outline {r : Nat} {c : Compiler} (h : reduce r sp S out = .ok c) : outline c.stack = outline S := by
  induction S generalizing out with
  | nil =>
    cases h
    rfl
  | cons p S ih =>
    rw [reduce] at h
    split at h
    · cases h
      rfl
    · next hp =>
      obtain ⟨out₁, he, h₁⟩ := bind_eq_ok h
      obtain ⟨o, -, hk, -⟩ := emitPending_eq_ok he
      rw [ih h₁, outline_op hk]
      rintro rfl
      refine hp ?_
      rw [Pending.priority, hk]
      rfl

/-- A tuple inside a bracket does not show either. -/
theorem closeTuple_outline {c c' : Compiler} (h : closeTuple c sp = .ok c') (hc : brackets c'.stack ≠ []) :
    outline c.stack = outline c'.stack := by
  rcases closeTuple_cases h with ⟨-, rfl⟩ | ⟨p, S, out', hstack, hp, -, -, rfl⟩
  · rfl
  · rw [hstack, outline_tuple hp, outline]
    simp [hc]

theorem closeRound_outline {c c' : Compiler} (h : closeRound c sp = .ok c') :
    outline c.stack = (')' :: brackets c'.stack, spread c'.stack) := by
  obtain ⟨b, S, hstack, hb, ⟨-, rfl⟩ | ⟨f, rest, o, rfl, -, -, -, -, rfl⟩⟩ := closeRound_eq_ok h
  · rw [hstack, outline_openRound hb]
  · rw [hstack, outline_openRound hb]
    rfl

theorem closeSquare_outline {c c' : Compiler} (h : closeSquare c sp = .ok c') :
    outline c.stack = (']' :: brackets c'.stack, spread c'.stack) := by
  obtain ⟨b, S, hstack, hb, rfl⟩ := closeSquare_eq_ok h
  have hindex := countIndex_outline S
  rw [outline, outline, Prod.mk.injEq] at hindex
  rw [hstack, outline_openSquare hb, hindex.1, hindex.2]

theorem functionComma_stack {b f : Pending} {o : Op} {c' : Compiler} (h : functionComma out b f o S sp = .ok c') :
    ∃ f', f'.kind = f.kind ∧ c'.stack = b :: f' :: S := by
  unfold functionComma at h
  dsimp only at h
  split at h
  · cases h
  split at h
  · split at h
    all_goals
      obtain ⟨out', -, h₁⟩ := bind_eq_ok h
      cases h₁
      exact ⟨{ f with args := f.args + 1, patch := some out.size }, rfl, rfl⟩
  · cases h
    exact ⟨{ f with args := f.args + 1 }, rfl, rfl⟩

/-- A comma that belongs to no call leaves a tuple on top. -/
theorem comma_outline {c c' : Compiler} (h : comma c sp = .ok c') :
    outline c'.stack = (brackets c.stack, spread c.stack || (brackets c.stack).isEmpty) := by
  rcases comma_eq_ok h with ⟨b, f, rest, o, hstack, hb, hf, ho, h₁⟩ | h₁
  · obtain ⟨f', hf', hstack'⟩ := functionComma_stack h₁
    have hne : (brackets (b :: f :: rest)).isEmpty = false := by simp [brackets, Pending.closer?, hb]
    have htuple : o ≠ .tuple := Op.ne_of_isFunction ho rfl
    rw [hstack', hstack, hne, Bool.or_false, outline_openRound hb, ← outline, outline_openRound hb]
    have hrest := outline_op hf htuple rest
    have hrest' := outline_op (hf'.trans hf) htuple rest
    rw [outline, outline, Prod.mk.injEq] at hrest hrest'
    rw [hrest.1, hrest.2, hrest'.1, hrest'.2]
  · rcases tupleComma_eq_ok h₁ with ⟨p, S, hstack, hp, rfl⟩ | ⟨-, rfl⟩
    · rw [hstack, outline_tuple (p := { p with args := p.args + 1 }) hp, brackets_cons_of_op hp]
      cases hS : (brackets S).isEmpty with
      | true => simp
      | false => simp [spread, hS]
    · rw [outline_tuple rfl, Bool.or_comm]

theorem ne_tuple_of_binary {o : Op} (ho : o ∈ Op.binaries) : o ≠ .tuple := by
  rintro rfl
  exact absurd ho (by decide)

theorem binary_stack {c c' : Compiler} {o : Op} (h : binary c o sp = .ok c') :
    ∃ p, p.kind = .op o ∧ c'.stack = p :: c.stack := by
  obtain ⟨⟨out⟩, S⟩ := c
  rcases binary_cases h with ⟨jump, -, rfl⟩ | ⟨-, -, rfl⟩
  · exact ⟨_, rfl, rfl⟩
  · exact ⟨_, rfl, rfl⟩

/-! ## Operator position -/

/-- The meaning of a token in operator position tells which token it is, as far as the outline goes. -/
theorem incoming_mark {inc : Incoming} (h : incoming w sp token = .ok inc) (o : List Char × Bool) :
    inc = .closeRound ∧ token = .closeRound ∨ inc = .closeSquare ∧ token = .closeSquare ∨
      inc = .comma ∧ token = .comma ∨
      ∃ op, inc = .binary op ∧ op ∈ Op.binaries ∧ token ≠ .comma ∧ Token.mark o token = some o := by
  cases token with
  | closeRound =>
    cases h
    exact .inl ⟨rfl, rfl⟩
  | closeSquare =>
    cases h
    exact .inr (.inl ⟨rfl, rfl⟩)
  | comma =>
    cases h
    exact .inr (.inr (.inl ⟨rfl, rfl⟩))
  | name s =>
    have hop := (incoming_cases h).2
    simp only [incoming] at h
    split at h
    · obtain ⟨_, -, h₁⟩ := bind_eq_ok h
      cases h₁
      exact .inr (.inr (.inr ⟨_, rfl, hop _ rfl, by simp, Token.mark_of_isPlain rfl o⟩))
    · cases h
  | number | text | code | openRound | openSquare | colon => cases h
  | _ =>
    have hop := (incoming_cases h).2
    cases h
    exact .inr (.inr (.inr ⟨_, rfl, hop _ rfl, by simp, Token.mark_of_isPlain rfl o⟩))

/-- **A token in operator position changes the outline as it does among the tokens**, and only a comma
leaves a tuple that waits for its next item. -/
theorem operatorStep_outline {c c' : Compiler} {flag : Bool} (h : operatorStep w token sp c = .ok (flag, c')) :
    Token.mark (outline c.stack) token = some (outline c'.stack) ∧
      (flag = false → top c'.stack = .op .tuple → token = .comma) := by
  obtain ⟨inc, hi, h₁⟩ := bind_eq_ok h
  obtain ⟨c₁, hr, h₂⟩ := bind_eq_ok h₁
  rw [← reduce_outline hr]
  rcases incoming_mark hi (outline c₁.stack) with ⟨rfl, rfl⟩ | ⟨rfl, rfl⟩ | ⟨rfl, rfl⟩ | ⟨op, rfl, hop, -, hmark⟩
  · obtain ⟨c₂, ht, h₃⟩ := bind_eq_ok h₂
    obtain ⟨c₃, hc, h₄⟩ := bind_eq_ok h₃
    cases h₄
    have hc₂ := closeRound_outline hc
    have hne : brackets c₂.stack ≠ [] := by rw [show brackets c₂.stack = _ from (Prod.ext_iff.mp hc₂).1]; simp
    rw [closeTuple_outline ht hne, hc₂]
    exact ⟨by simp [Token.mark, Token.nest, outline], nofun⟩
  · obtain ⟨c₂, ht, h₃⟩ := bind_eq_ok h₂
    obtain ⟨c₃, hc, h₄⟩ := bind_eq_ok h₃
    cases h₄
    have hc₂ := closeSquare_outline hc
    have hne : brackets c₂.stack ≠ [] := by rw [show brackets c₂.stack = _ from (Prod.ext_iff.mp hc₂).1]; simp
    rw [closeTuple_outline ht hne, hc₂]
    exact ⟨by simp [Token.mark, Token.nest, outline], nofun⟩
  · obtain ⟨c₂, hc, h₃⟩ := bind_eq_ok h₂
    cases h₃
    rw [comma_outline hc]
    exact ⟨by simp [Token.mark, Token.nest, outline], fun _ _ => rfl⟩
  · obtain ⟨c₂, hc, h₃⟩ := bind_eq_ok h₂
    cases h₃
    obtain ⟨p, hp, hstack⟩ := binary_stack hc
    rw [hstack, outline_op hp (ne_tuple_of_binary hop)]
    refine ⟨hmark, fun _ htop => ?_⟩
    have heq : Pending.Kind.op op = .op .tuple := hp.symm.trans htop
    cases heq
    exact absurd rfl (ne_tuple_of_binary hop)

/-! ## Value position -/

theorem numberValue_outline {c : Compiler} {n : Number} {step : Step} (h : numberValue c n sp = .ok step) :
    step.operatorNext = true ∧ step.skip = 0 ∧ outline step.compiler.stack = outline c.stack := by
  obtain ⟨out, S⟩ := c
  cases S with
  | nil =>
    obtain ⟨hnext, hskip, hstack⟩ := value_stack h
    exact ⟨hnext, hskip, by rw [hstack]⟩
  | cons p S =>
    simp only [numberValue] at h
    split at h
    · next hp =>
      obtain ⟨hnext, hskip, hstack⟩ := value_stack h
      exact ⟨hnext, hskip, by rw [hstack, outline_op hp (by simp)]⟩
    · obtain ⟨hnext, hskip, hstack⟩ := value_stack h
      exact ⟨hnext, hskip, by rw [hstack]⟩

theorem emptyRound_outline {c : Compiler} {step : Step} (h : emptyRound c sp = .ok step) :
    step.operatorNext = true ∧ step.skip = 0 ∧
      outline c.stack = (')' :: brackets step.compiler.stack, spread step.compiler.stack) := by
  obtain ⟨b, S, hstack, hb, ⟨-, h₁⟩ | ⟨f, rest, o, rfl, -, -, -, rfl⟩⟩ := emptyRound_eq_ok h
  · obtain ⟨hnext, hskip, hstack'⟩ := value_stack h₁
    exact ⟨hnext, hskip, by rw [hstack, outline_openRound hb, hstack']⟩
  · exact ⟨rfl, rfl, by rw [hstack, outline_openRound hb]⟩

theorem emptySquare_outline {c : Compiler} {step : Step} (h : emptySquare c sp = .ok step) :
    step.operatorNext = true ∧ step.skip = 0 ∧
      outline c.stack = (']' :: brackets step.compiler.stack, spread step.compiler.stack) := by
  obtain ⟨p, b, S, out', hstack, hp, hb, -, rfl⟩ := emptySquare_eq_ok h
  have hindex := countIndex_outline S
  have hinner := outline_openSquare hb S
  rw [outline, outline, Prod.mk.injEq] at hindex
  rw [outline, Prod.mk.injEq] at hinner
  refine ⟨rfl, rfl, ?_⟩
  rw [hstack, outline_tuple hp, hinner.1, hinner.2, hindex.1, hindex.2]
  rfl

/-- An opening bracket that is used up with a name. -/
theorem markAll_openRound {rest : List Token} (h : rest[0]? = some .openRound) (o : List Char × Bool) :
    Token.markAll o (rest.take 1) = some (')' :: o.1, o.2) ∧ 1 ≤ rest.length := by
  cases rest with
  | nil => cases h
  | cons t ts =>
    cases h
    exact ⟨by simp [Token.markAll, Token.mark, Token.nest], by simp⟩

theorem outline_function {f : Pending} {o : Op} (hf : f.kind = .op o) (ho : o.isFunction = true)
    (S : List Pending) : outline (f :: S) = outline S :=
  outline_op hf (Op.ne_of_isFunction ho rfl) S

theorem top_function_ne_tuple {f : Pending} {o : Op} (hf : f.kind = .op o) (ho : o.isFunction = true)
    (S : List Pending) : top (f :: S) ≠ .op .tuple := by
  intro htop
  have heq : Pending.Kind.op o = .op .tuple := hf.symm.trans htop
  cases heq
  exact Op.ne_of_isFunction ho rfl rfl

/-- A function whose bracket is open. -/
theorem outline_call {f : Pending} {o : Op} (hf : f.kind = .op o) (ho : o.isFunction = true)
    (S : List Pending) : outline ({ kind := .openRound } :: f :: S) = (')' :: brackets S, spread S) := by
  have hrest := outline_function hf ho S
  rw [outline, outline, Prod.mk.injEq] at hrest
  rw [outline_openRound rfl, hrest.1, hrest.2]

/-- A variable is read at once, with nothing in the brackets of its index, or once its index is read. -/
theorem variableRead_outline {c : Compiler} {s : String} {rest : List Token} {step : Step}
    (h : variableRead c s rest[0]? rest[1]? sp = .ok step) :
    Token.markAll (outline c.stack) (rest.take step.skip) = some (outline step.compiler.stack) ∧
      step.skip ≤ rest.length ∧ (step.operatorNext = false → top step.compiler.stack ≠ .op .tuple) := by
  rcases variableRead_eq_ok h with ⟨op, step', hop, hv⟩ | ⟨hn, rfl⟩
  · obtain ⟨hnext, hskip, hstack⟩ := value_stack hv
    have htop : step'.operatorNext = false → top step'.compiler.stack ≠ .op .tuple := by
      intro hfalse
      rw [hnext] at hfalse
      cases hfalse
    rcases hop with ⟨-, hn, hafter, rfl⟩ | ⟨-, rfl⟩
    · match rest, hn, hafter with
      | _ :: _ :: ts, rfl, rfl =>
        refine ⟨?_, by simp, htop⟩
        rw [hstack]
        show some (brackets c.stack, (spread c.stack || false) || false) = some (outline c.stack)
        rw [Bool.or_false, Bool.or_false, outline]
    · refine ⟨?_, ?_, htop⟩
      · rw [hskip, hstack]
        rfl
      · rw [hskip]
        exact Nat.zero_le _
  · cases rest with
    | nil => cases hn
    | cons t ts =>
      cases hn
      have hvar := outline_op (p := { kind := .op .var, literal := some (.text s) }) rfl (by simp) c.stack
      rw [outline, outline, Prod.mk.injEq] at hvar
      refine ⟨?_, by simp, by simp [top]⟩
      rw [outline_openSquare rfl, hvar.1, hvar.2]
      simp [Token.markAll, Token.mark, Token.nest, outline]

/-- The tokens that a name uses up open the brackets that it leaves. -/
theorem nameValue_outline {c : Compiler} {s : String} {rest : List Token} {step : Step}
    (h : nameValue c w s rest[0]? rest[1]? sp = .ok step) :
    Token.markAll (outline c.stack) (rest.take step.skip) = some (outline step.compiler.stack) ∧
      step.skip ≤ rest.length ∧ (step.operatorNext = false → top step.compiler.stack ≠ .op .tuple) := by
  rcases nameValue_cases h with ⟨-, location, h₁⟩ | ⟨f, hf, h₁⟩ | ⟨-, h₁⟩
  · obtain ⟨code, -, ⟨hn, rfl⟩ | rfl⟩ := locationCall_eq_ok h₁
    · obtain ⟨hmark, hlen⟩ := markAll_openRound hn (outline c.stack)
      exact ⟨by rw [hmark, outline_call rfl rfl]; rfl, hlen, by simp [top]⟩
    · exact ⟨by rw [outline_function rfl rfl]; rfl, Nat.zero_le _, by simp⟩
  · have ho := Function.isFunction_of_find? hf
    rcases functionCall_eq_ok h₁ with ⟨hn, rfl⟩ | ⟨-, -, rfl⟩ | ⟨-, -, rfl⟩
    · obtain ⟨hmark, hlen⟩ := markAll_openRound hn (outline c.stack)
      exact ⟨by rw [hmark, outline_call rfl ho]; rfl, hlen, by simp [top]⟩
    · exact ⟨by rw [outline_function rfl ho]; rfl, Nat.zero_le _, by simp⟩
    · exact ⟨by rw [outline_function rfl ho]; rfl, Nat.zero_le _, fun _ => top_function_ne_tuple rfl ho _⟩
  · exact variableRead_outline h₁

/-- **The tokens of a step in value position change the outline as they do among the tokens**, and only a
plus sign or an open bracket leaves a tuple that waits for its next item. -/
theorem valueStep_outline {c : Compiler} {rest : List Token} {step : Step}
    (h : valueStep w token sp rest[0]? rest[1]? c = .ok step) :
    Token.markAll (outline c.stack) (token :: rest.take step.skip) = some (outline step.compiler.stack) ∧
      step.skip ≤ rest.length ∧
      (step.operatorNext = false → top step.compiler.stack = .op .tuple →
        token = .plus ∧ step.compiler = c ∧ step.skip = 0 ∨ brackets step.compiler.stack ≠ []) := by
  rw [Token.markAll_cons]
  cases token with
  | number n =>
    obtain ⟨hnext, hskip, hout⟩ := numberValue_outline h
    rw [hskip, hout, hnext, Token.mark_of_isPlain rfl]
    exact ⟨rfl, Nat.zero_le _, nofun⟩
  | text s | code s =>
    obtain ⟨hnext, hskip, hstack⟩ := value_stack h
    rw [hskip, hstack, hnext, Token.mark_of_isPlain rfl]
    exact ⟨rfl, Nat.zero_le _, nofun⟩
  | minus =>
    cases opening_eq_ok h
    refine ⟨?_, Nat.zero_le _, fun _ => nofun⟩
    rw [outline_op (o := .neg) rfl nofun, Token.mark_of_isPlain rfl]
    rfl
  | plus =>
    cases h
    rw [Token.mark_of_isPlain rfl]
    exact ⟨rfl, Nat.zero_le _, fun _ _ => .inl ⟨rfl, rfl, rfl⟩⟩
  | openRound =>
    cases opening_eq_ok h
    refine ⟨?_, Nat.zero_le _, fun _ => nofun⟩
    rw [outline_openRound rfl]
    simp [Token.mark, Token.nest, Token.markAll, outline]
  | closeRound =>
    obtain ⟨hnext, hskip, hout⟩ := emptyRound_outline h
    rw [hskip, hnext, hout]
    exact ⟨by simp [Token.mark, Token.nest, Token.markAll, outline], Nat.zero_le _, nofun⟩
  | openSquare =>
    obtain ⟨c₁, hpush, h₁⟩ := bind_eq_ok h
    cases push_eq_ok hpush
    cases opening_eq_ok h₁
    refine ⟨?_, Nat.zero_le _, fun _ _ => .inr (by simp [brackets, Pending.closer?])⟩
    rw [outline_tuple rfl]
    simp [Token.mark, Token.nest, Token.markAll, outline, brackets, Pending.closer?, spread]
  | closeSquare =>
    obtain ⟨hnext, hskip, hout⟩ := emptySquare_outline h
    rw [hskip, hnext, hout]
    exact ⟨by simp [Token.mark, Token.nest, Token.markAll, outline], Nat.zero_le _, nofun⟩
  | name s =>
    obtain ⟨hmark, hlen, htop⟩ := nameValue_outline h
    rw [Token.mark_of_isPlain rfl]
    exact ⟨hmark, hlen, fun hnext htuple => absurd htuple (htop hnext)⟩
  | _ => cases h

end Compiler

end QuestScript
