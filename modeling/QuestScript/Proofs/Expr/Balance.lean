import QuestScript.Proofs.Expr.Waiting

/-!
# Every step is kept in the books

What the compiler does with a token, in operator position and in value position, takes a sound state
to a sound state and changes the number of values on the stack as the stack of operators says. One
lemma for each of its parts says so; `operatorStep_moves` and `valueStep_moves` put them together.

There is one exception: a round bracket in value position must not come to stand right above a
function.
-/

namespace QuestScript

namespace Compiler

variable {source : List Char} {sp : Span} {out : List Instruction} {S : List Pending} {p : Pending}
  {o : Op}

/-! ## Operators -/

theorem Formed.isPlain (h : Formed out p) (hk : p.kind = .op o) (ho : o ≠ .and ∧ o ≠ .or ∧ o ≠ .iif) :
    isPlain o = true := by
  obtain ⟨hand, hor, hiif⟩ := ho
  unfold Formed at h
  rw [hk] at h
  cases o <;> first | rfl | exact absurd rfl hand | exact absurd rfl hor | exact absurd rfl hiif |
    exact h.1

theorem Formed.patch_eq_some (h : Formed out p) (hk : p.kind = .op o) (ho : o = .and ∨ o = .or) :
    ∃ j, p.patch = some j := by
  obtain ⟨-, j, i, k, hp, -⟩ := (formed_logic_iff hk ho).mp h
  exact ⟨j, hp⟩

/-- `AND` or `OR` with its right side: the jump behind the left side leads past it. -/
theorem emitLogic_moves {out' : Code} (h : emitOp out.toArray p o sp = .ok out') (hk : p.kind = .op o)
    (ho : o = .and ∨ o = .or) (hs : State.Sound ⟨true, out, p :: S⟩) :
    State.Moves ⟨true, out, p :: S⟩ ⟨true, out'.toList, S⟩ := by
  obtain ⟨hargs, hleads⟩ := (formed_logic_iff hk ho).mp hs.head_formed
  obtain ⟨j, hj⟩ := hs.head_formed.patch_eq_some hk ho
  have hd : defers .start o = false := by rcases ho with rfl | rfl <;> rfl
  have hheld : held o p.args = 1 := by
    rw [hargs]
    rcases ho with rfl | rfl <;> rfl
  have hS : Stacked .start (p :: S) := by
    rcases hs.topped with hS | ⟨-, q, S', heq, ⟨o', ho', hc⟩, -⟩
    · exact hS
    · cases heq
      cases hk.symm.trans ho'
      rcases ho with rfl | rfl
      all_goals rcases hc with ⟨hv, -⟩ | ⟨hf, -⟩ <;> contradiction
  have hemit : State.Moves ⟨true, out, p :: S⟩
      ⟨true, out ++ [({ op := .truth, argCount := 1 } : Instruction)], p :: S⟩ :=
    hs.emit_same hS rfl rfl rfl
  have hland := hemit.sound.land hk hd hj (hleads.extend (extends_append out _)) hheld
  rw [emitOp_logic h ho, hj, patch_toArray]
  exact hemit.trans hland

/-- A choice with all its values: the jump behind the last but one leads past it. -/
theorem emitChoice_moves (hk : p.kind = .op .iif) (hs : State.Sound ⟨true, out, p :: S⟩) :
    ∃ j, p.patch = some j ∧ State.Moves ⟨true, out, p :: S⟩ ⟨true, patched out j, S⟩ := by
  -- on top of the stack a choice has no bracket above it, so it has counted its third value
  have hthree : 1 ≤ p.args - 2 := by
    rcases (hs.operator hk).2 with hr | ⟨o', ho', hc⟩
    · rcases hr .iif hk with ⟨hd, -⟩ | ⟨-, hone⟩
      · cases hd
      · exact hone
    · cases hk.symm.trans ho'
      rcases hc with ⟨hv, -⟩ | ⟨-, hmin, -⟩ <;> contradiction
  rcases (formed_iif_iff hk).mp hs.head_formed with ⟨h0, -⟩ | ⟨h1, -⟩ | ⟨h23, hleads⟩
  · omega
  · omega
  · obtain ⟨j, i, k, hj, hrest⟩ := hleads
    refine ⟨j, hj, hs.land hk rfl hj ⟨j, i, k, hj, hrest⟩ ?_⟩
    show p.args - 2 = 1
    omega

/-- A waiting operator whose operands are complete is emitted. -/
theorem emitOp_moves {out' : Code} (h : emitOp out.toArray p o sp = .ok out') (hk : p.kind = .op o)
    (hne : o ≠ .tuple) (hs : State.Sound ⟨true, out, p :: S⟩) :
    State.Moves ⟨true, out, p :: S⟩ ⟨true, out'.toList, S⟩ := by
  by_cases hlogic : o = .and ∨ o = .or
  · exact emitLogic_moves h hk hlogic hs
  by_cases hiif : o = .iif
  · subst hiif
    cases h
    obtain ⟨j, hj, hmoves⟩ := emitChoice_moves hk hs
    rw [hj, patch_toArray]
    exact hmoves
  have hop : o ≠ .and ∧ o ≠ .or ∧ o ≠ .iif :=
    ⟨fun h => hlogic (.inl h), fun h => hlogic (.inr h), hiif⟩
  rw [emitOp_eq_ok h hop]
  exact hs.emit_plain hk (hs.head_formed.isPlain hk hop) hne

theorem emitPending_moves {out' : Code} (h : emitPending out.toArray p sp = .ok out')
    (hne : p.kind ≠ .op .tuple) (hs : State.Sound ⟨true, out, p :: S⟩) :
    State.Moves ⟨true, out, p :: S⟩ ⟨true, out'.toList, S⟩ := by
  obtain ⟨o, out₁, hk, hop, hcast⟩ := emitPending_eq_ok h
  have hmoves := emitOp_moves hop hk (fun ho => hne (hk.trans (by rw [ho]))) hs
  rw [hcast (show out₁ = out₁.toList.toArray from rfl)]
  cases p.cast with
  | none =>
    rw [castPiece, List.append_nil]
    exact hmoves
  | some ty =>
    exact hmoves.trans (hmoves.sound.emit_same (hs.operator hk).1 rfl rfl rfl)

theorem Complete.priority_eq (h : Complete p) : p.priority = 30 := by
  have hall : ∀ o : Op, o.isFunction = true → o.info.minArgs = 0 → o.priority = 30 := by
    intro o ho hmin
    cases o <;> first | rfl | (cases hmin; done) | cases ho
  obtain ⟨o, hk, ⟨rfl, -⟩ | ⟨ho, hmin, -⟩⟩ := h
  · rw [Pending.priority, hk]
    rfl
  · rw [Pending.priority, hk]
    exact hall o ho hmin

/-- Operators that bind more tightly are emitted until one is met that waits for an operand. -/
theorem reduce_moves {r : Nat} {c : Compiler} (hr : r ≤ 30) (h : reduce r sp S out.toArray = .ok c)
    (hs : State.Sound ⟨true, out, S⟩) :
    State.Moves ⟨true, out, S⟩ ⟨true, c.out.toList, c.stack⟩ ∧ Stacked .start c.stack ∧
      Admits c.stack r := by
  induction S generalizing out with
  | nil =>
    rcases hs.topped with hS | ⟨-, p, S', heq, -⟩
    · cases hS
    · cases heq
  | cons p S ih =>
    rw [reduce] at h
    split at h
    · next hstop =>
      cases h
      have hstop' : p.priority = Op.barrier ∨ p.priority < r := by simpa using hstop
      refine ⟨.refl hs, ?_, ?_⟩
      · -- an operator with all its operands binds as tightly as a call and would have been emitted
        rcases hs.topped with hS | ⟨-, q, S', heq, hc, -⟩
        · exact hS
        · cases heq
          rw [hc.priority_eq] at hstop'
          rcases hstop' with hb | hlt
          · cases hb
          · omega
      · intro q hq
        cases hq
        exact hstop'
    · next hgo =>
      obtain ⟨out', h₁, h₂⟩ := bind_eq_ok h
      have hne : p.kind ≠ .op .tuple := by
        intro hk
        refine hgo ?_
        rw [Pending.priority, hk]
        rfl
      have hmoves := emitPending_moves h₁ hne hs
      obtain ⟨hmoves', hS⟩ := @ih out'.toList h₂ hmoves.sound
      exact ⟨hmoves.trans hmoves', hS⟩

/-! ## Operator position -/

/-- The state in which the compiler is, after a value or before one. -/
def state (ready : Bool) (c : Compiler) : State := ⟨ready, c.out.toList, c.stack⟩

theorem closeTuple_moves {c c' : Compiler} (h : closeTuple c sp = .ok c') (hs : (state true c).Sound)
    (hS : Stacked .start c.stack) :
    State.Moves (state true c) (state true c') ∧ Stacked .start c'.stack := by
  rcases closeTuple_cases h with ⟨-, rfl⟩ | ⟨p, ps, out', hstack, hk, -, hemit, rfl⟩
  · exact ⟨.refl hs, hS⟩
  · unfold state at hs ⊢
    rw [hstack] at hs ⊢
    refine ⟨?_, (State.Sound.operator hs hk).1⟩
    rw [toList_of_emit hemit]
    exact State.Sound.emit_tuple hs hk rfl

/-- A group is closed, because no function waits for its bracket. -/
theorem closeGroup_moves {ready : Bool} (hk : p.kind = .openRound) (hS : (top S).isFunction = false)
    (hs : State.Sound ⟨ready, out, p :: S⟩) : State.Moves ⟨ready, out, p :: S⟩ ⟨ready, out, S⟩ := by
  refine hs.close_bracket (by rw [hk]; rfl) ?_
  rw [hk]
  exact same_openRound hS

theorem closeRound_moves {c c' : Compiler} (h : closeRound c sp = .ok c')
    (hs : (state true c).Sound) : State.Moves (state true c) (state true c') := by
  obtain ⟨b, S, hstack, hb, hcases⟩ := closeRound_eq_ok h
  unfold state at hs ⊢
  rw [hstack] at hs ⊢
  rcases hcases with ⟨hS, rfl⟩ | ⟨f, rest, o, rfl, hf, ho, hmin, hmax, rfl⟩
  · exact closeGroup_moves hb hS hs
  · exact hs.close_call hb hf ho rfl hmin fun _ => hmax

/-- The end of an index or of a tuple in square brackets. -/
theorem countIndex_moves (hk : p.kind = .openSquare) (hs : State.Sound ⟨true, out, p :: S⟩) :
    State.Moves ⟨true, out, p :: S⟩ ⟨true, out, countIndex S⟩ := by
  rcases countIndex_cases S with ⟨hS, heq⟩ | ⟨v, rest, rfl, hv, heq⟩
  · rw [heq]
    refine hs.close_bracket (by rw [hk]; rfl) ?_
    rw [hk]
    exact same_openSquare hS
  · rw [heq]
    exact hs.close_index hk hv

theorem closeSquare_moves {c c' : Compiler} (h : closeSquare c sp = .ok c')
    (hs : (state true c).Sound) : State.Moves (state true c) (state true c') := by
  obtain ⟨b, S, hstack, hb, rfl⟩ := closeSquare_eq_ok h
  unfold state at hs ⊢
  rw [hstack] at hs ⊢
  exact countIndex_moves hb hs

/-- A comma between arguments. A choice leaves a jump there, and gives the one before it its
target. -/
theorem functionComma_moves {b f : Pending} {c' : Compiler}
    (h : functionComma out.toArray b f o S sp = .ok c') (hb : b.kind = .openRound)
    (hf : f.kind = .op o) (ho : o.isFunction = true) (hs : State.Sound ⟨true, out, b :: f :: S⟩) :
    State.Moves ⟨true, out, b :: f :: S⟩ (state false c') := by
  have hb' : isBracket b.kind = true := by rw [hb]; rfl
  obtain ⟨-, hform, -, -⟩ := hs.bracketed hb' hf
  unfold functionComma at h
  dsimp only at h
  split at h
  · cases h
  · next hmax =>
    split at h
    · next hiif =>
      subst hiif
      replace hmax : f.args + 1 ≤ 3 := Nat.not_lt.mp hmax
      split at h
      · next hone =>
        obtain ⟨out', h₁, h₂⟩ := bind_eq_ok h
        cases h₂
        unfold state
        rw [toList_of_emit h₁]
        exact hs.choose hb hf (Nat.succ.inj hone) hf hone rfl
      · next hone =>
        obtain ⟨out', h₁, h₂⟩ := bind_eq_ok h
        cases h₂
        obtain ⟨j, hj, hmoves⟩ := hs.choose_next
          { f with args := f.args + 1, patch := some out.length } hb hf (by omega) (by omega) hf rfl rfl
        unfold state
        rw [emit_eq_ok h₁, hj, patch_toArray]
        exact hmoves
    · next hiif =>
      cases h
      have hplain := isPlain_of_isFunction ho hiif
      refine hs.count hb' hf hf ?_ ?_ ?_ rfl ?_
      · rw [hb]
        exact defers_openRound ho
      · rintro rfl
        cases ho
      · refine formed_of_isPlain hf hplain (hform.patch_eq_none hf hplain) ?_
        rintro rfl
        cases ho
      · rw [held_of_isPlain hplain, held_of_isPlain hplain]

theorem comma_moves {c c' : Compiler} (h : comma c sp = .ok c') (hs : (state true c).Sound)
    (hS : Stacked .start c.stack) : State.Moves (state true c) (state false c') := by
  unfold state at hs
  rcases comma_eq_ok h with ⟨b, f, rest, o, hstack, hb, hf, ho, h₁⟩ | h₁
  · rw [hstack] at hs
    rw [show state true c = ⟨true, c.out.toList, b :: f :: rest⟩ by rw [state, hstack]]
    exact functionComma_moves h₁ hb hf ho hs
  · rcases tupleComma_eq_ok h₁ with ⟨p, S, hstack, hk, rfl⟩ | ⟨-, rfl⟩
    · rw [hstack] at hs
      unfold state
      rw [hstack]
      exact hs.count_item hk rfl
    · refine hs.push hS rfl rfl (formed_of_isPlain rfl rfl rfl nofun) (.inl ?_) rfl
      exact rests_deferred rfl rfl nofun

theorem binary_moves {c c' : Compiler} (h : binary c o sp = .ok c') (ho : o ∈ Op.binaries)
    (hs : (state true c).Sound) (hS : Stacked .start c.stack) :
    State.Moves (state true c) (state false c') := by
  have hall : ∀ o ∈ Op.binaries, o ≠ .tuple ∧ o ≠ .var ∧ o ≠ .neg ∧ o.info.minArgs = 2 := by decide
  obtain ⟨htuple, hvar, hneg, hmin⟩ := hall o ho
  obtain ⟨⟨out⟩, S⟩ := c
  rcases binary_cases h with ⟨jump, hl, rfl⟩ | ⟨hand, hor, rfl⟩
  · cases hl with
    | and => exact State.Sound.push_logic hs hS rfl (.inl rfl) rfl rfl rfl rfl rfl
    | or => exact State.Sound.push_logic hs hS rfl (.inr rfl) rfl rfl rfl rfl rfl
  · have hplain : isPlain o = true := by
      have : ∀ o ∈ Op.binaries, o ≠ .and → o ≠ .or → isPlain o = true := by decide
      exact this o ho hand hor
    refine State.Sound.push hs hS rfl rfl ?_ (.inl ?_) ?_
    · exact formed_of_isPlain rfl hplain rfl fun h => absurd h hneg
    · refine rests_counted rfl hvar ?_
      rw [held_of_isPlain hplain, hmin]
      exact Nat.le_succ 1
    · rw [held_of_isPlain hplain, hmin, defers_start htuple]
      rfl

/-- What stands in operator position binds no more tightly than a call. -/
theorem incoming_cases {token : Token} {inc : Incoming} (h : incoming source sp token = .ok inc) :
    inc.priority ≤ 30 ∧ ∀ o, inc = .binary o → o ∈ Op.binaries := by
  have hall : ∀ o ∈ Op.binaries, o.priority ≤ 30 := by decide
  have hbinary : ∀ o ∈ Op.binaries,
      (Incoming.binary o).priority ≤ 30 ∧ ∀ o', Incoming.binary o = .binary o' → o' ∈ Op.binaries := by
    intro o ho
    refine ⟨hall o ho, ?_⟩
    intro o' heq
    cases heq
    exact ho
  cases token with
  | closeRound | closeSquare | comma =>
    cases h
    exact ⟨Nat.zero_le _, nofun⟩
  | name s =>
    simp only [incoming] at h
    split at h
    · next op hop =>
      obtain ⟨_, -, h₁⟩ := bind_eq_ok h
      cases h₁
      exact hbinary op (Function.wordOperator?_mem hop)
    · cases h
  | number | text | code | openRound | openSquare | colon => cases h
  | _ =>
    cases h
    exact hbinary _ (by decide)

/-- A token in operator position is kept in the books. -/
theorem operatorStep_moves {inc : Incoming} {c₀ c₁ c₂ : Compiler} {token : Token} {flag : Bool}
    (hi : incoming source sp token = .ok inc)
    (hr : reduce inc.priority sp c₀.stack c₀.out = .ok c₁) (ha : arrive inc c₁ sp = .ok (flag, c₂))
    (hs : (state true c₀).Sound) : State.Moves (state true c₀) (state flag c₂) := by
  obtain ⟨hpriority, hop⟩ := incoming_cases hi
  obtain ⟨⟨out⟩, S⟩ := c₀
  obtain ⟨hmoves, hS, -⟩ := reduce_moves hpriority hr hs
  refine hmoves.trans ?_
  cases inc with
  | closeRound =>
    obtain ⟨c, ht, h₁⟩ := bind_eq_ok ha
    obtain ⟨c', hc, h₂⟩ := bind_eq_ok h₁
    cases h₂
    obtain ⟨htuple, -⟩ := closeTuple_moves ht hmoves.sound hS
    exact htuple.trans (closeRound_moves hc htuple.sound)
  | closeSquare =>
    obtain ⟨c, ht, h₁⟩ := bind_eq_ok ha
    obtain ⟨c', hc, h₂⟩ := bind_eq_ok h₁
    cases h₂
    obtain ⟨htuple, -⟩ := closeTuple_moves ht hmoves.sound hS
    exact htuple.trans (closeSquare_moves hc htuple.sound)
  | comma =>
    obtain ⟨c', hc, h₁⟩ := bind_eq_ok ha
    cases h₁
    exact comma_moves hc hmoves.sound hS
  | binary op =>
    obtain ⟨c', hc, h₁⟩ := bind_eq_ok ha
    cases h₁
    exact binary_moves hc (hop op rfl) hmoves.sound hS

/-! ## Value position -/

/-- An instruction that puts a value on the stack. -/
theorem emitValue_moves {i : Instruction} (hf : i.falls = some 1) (hj : i.jumps = none)
    (hpops : i.pops = 0) (hs : State.Sound ⟨false, out, S⟩) :
    State.Moves ⟨false, out, S⟩ ⟨true, out ++ [i], S⟩ := by
  refine hs.emit hf hj rfl ?_ hs.stacked hs.formed
  rw [hpops, height, height]
  simp

theorem value_moves {c : Compiler} {i : Instruction} {step : Step} (h : value c i sp = .ok step)
    (hf : i.falls = some 1) (hj : i.jumps = none) (hpops : i.pops = 0)
    (hs : (state false c).Sound) :
    State.Moves (state false c) (state step.operatorNext step.compiler) := by
  obtain ⟨out', hemit, h₁⟩ := bind_eq_ok h
  cases h₁
  unfold state
  rw [toList_of_emit hemit]
  exact emitValue_moves hf hj hpops hs

theorem numberValue_moves {c : Compiler} {n : Number} {step : Step}
    (h : numberValue c n sp = .ok step) (hs : (state false c).Sound) :
    State.Moves (state false c) (state step.operatorNext step.compiler) := by
  obtain ⟨out, S⟩ := c
  unfold numberValue at h
  split at h
  · next p ps heq =>
    replace heq : S = p :: ps := heq
    subst heq
    split at h
    · next hk =>
      -- the sign has counted the number in advance, so dropping it changes no count
      have hdrop : State.Moves ⟨false, out.toList, p :: ps⟩ ⟨false, out.toList, ps⟩ := by
        obtain ⟨hargs, hp⟩ : p.args = 1 ∧ p.patch = none := by
          have hform := State.Sound.head_formed hs
          unfold Formed at hform
          rwa [hk] at hform
        obtain ⟨hS, -⟩ := State.Sound.operator hs hk
        refine State.Sound.same hs ?_ (.inl hS) (State.Sound.tail_formed hs)
        show State.tally ⟨false, out.toList, ps⟩ = State.tally ⟨false, out.toList, p :: ps⟩
        rw [State.tally, State.tally, waits_cons_none hp, State.height_push hk, hargs]
        congr 1
        show height false ps = 1 - 1 + height false ps
        omega
      exact hdrop.trans (value_moves (c := ⟨out, ps⟩) h rfl rfl rfl hdrop.sound)
    · exact value_moves h rfl rfl rfl hs
  · exact value_moves h rfl rfl rfl hs

/-- A sign or a function without brackets waits for the next value. -/
theorem opening_moves {c : Compiler} {step : Step} (h : opening c p sp = .ok step)
    (hk : p.kind = .op o) (ho : isPlain o = true) (hne : o ≠ .tuple ∧ o ≠ .var) (hargs : p.args = 1)
    (hp : p.patch = none) (hs : (state false c).Sound) :
    State.Moves (state false c) (state step.operatorNext step.compiler) := by
  cases opening_eq_ok h
  have hheld : held o p.args = 1 := by rw [held_of_isPlain ho, hargs]
  refine State.Sound.push hs hs.stacked hk hp (formed_of_isPlain hk ho hp fun _ => hargs) (.inl ?_) ?_
  · exact rests_counted hk hne.2 (Nat.le_of_eq hheld.symm)
  · rw [hheld, defers_start hne.1]
    rfl

/-- A group is opened where no function waits for a bracket. -/
theorem openGroup_moves {b : Pending} (hk : b.kind = .openRound) (hp : b.patch = none)
    (hS : (top S).isFunction = false) (hs : State.Sound ⟨false, out, S⟩) :
    State.Moves ⟨false, out, S⟩ ⟨false, out, b :: S⟩ := by
  refine hs.open_bracket hs.stacked hp (by rw [hk]; rfl) ?_
  rw [hk]
  exact same_openRound hS

theorem openSquare_moves {b t : Pending} (hb : b.kind = .openSquare) (hbp : b.patch = none)
    (ht : t.kind = .op .tuple) (htp : t.patch = none) (hargs : t.args = 0)
    (hs : State.Sound ⟨false, out, S⟩) : State.Moves ⟨false, out, S⟩ ⟨false, out, t :: b :: S⟩ := by
  have hopen : State.Moves ⟨false, out, S⟩ ⟨false, out, b :: S⟩ := by
    refine hs.open_bracket hs.stacked hbp (by rw [hb]; rfl) ?_
    rw [hb]
    exact same_openSquare hs.stacked.top_ne_var
  refine hopen.trans (hopen.sound.push hopen.sound.stacked ht htp
    (formed_of_isPlain ht rfl htp nofun) (.inl ?_) ?_)
  · exact rests_deferred ht rfl nofun
  · rw [hargs]
    rfl

theorem emptyRound_moves {c : Compiler} {step : Step} (h : emptyRound c sp = .ok step)
    (hs : (state false c).Sound) :
    State.Moves (state false c) (state step.operatorNext step.compiler) := by
  obtain ⟨b, S, hstack, hb, hcases⟩ := emptyRound_eq_ok h
  unfold state at hs
  rw [hstack] at hs
  rw [show state false c = ⟨false, c.out.toList, b :: S⟩ by rw [state, hstack]]
  rcases hcases with ⟨hS, h₁⟩ | ⟨f, rest, o, rfl, hf, ho, hmin, rfl⟩
  · have hclose := closeGroup_moves hb hS hs
    exact hclose.trans (value_moves h₁ rfl rfl rfl hclose.sound)
  · exact hs.close_call hb hf ho rfl hmin nofun

theorem emptySquare_moves {c : Compiler} {step : Step} (h : emptySquare c sp = .ok step)
    (hs : (state false c).Sound) :
    State.Moves (state false c) (state step.operatorNext step.compiler) := by
  obtain ⟨p, b, S, out', hstack, hk, hb, hemit, rfl⟩ := emptySquare_eq_ok h
  unfold state at hs ⊢
  rw [hstack] at hs ⊢
  have htuple := hs.emit_tuple hk rfl
  refine htuple.trans ?_
  rw [toList_of_emit hemit]
  exact countIndex_moves hb htuple.sound

/-- A function in front of its bracket has counted the name of a location, or nothing. -/
theorem openCall_moves {f : Pending} {ready : Bool} (hf : f.kind = .op o) (ho : o.isFunction = true)
    (hp : f.patch = none) (hargs : f.args = if ready then 1 else 0) (hiif : o = .iif → ready = false)
    (hS : Stacked .start S) (hs : State.Sound ⟨ready, out, S⟩) :
    State.Moves ⟨ready, out, S⟩ ⟨false, out, { kind := .openRound } :: f :: S⟩ := by
  refine hs.push_bracketed hS rfl rfl hf hp ?_ (defers_openRound ho) ?_ ?_
  · by_cases hi : o = .iif
    · rw [hi] at hf
      refine (formed_iif_iff hf).mpr (.inl ⟨?_, hp⟩)
      rw [hargs, hiif hi]
      rfl
    · refine formed_of_isPlain hf (isPlain_of_isFunction ho hi) hp ?_
      rintro rfl
      cases ho
  · rintro rfl
    cases ho
  · by_cases hi : o = .iif
    · rw [hi, hargs, hiif hi]
      rfl
    · rw [held_of_isPlain (isPlain_of_isFunction ho hi), hargs]

theorem locationCall_moves {c : Compiler} {location : List Char} {next : Option Token} {step : Step}
    (h : locationCall c location next sp = .ok step) (hs : (state false c).Sound) :
    State.Moves (state false c) (state step.operatorNext step.compiler) := by
  obtain ⟨code, hemit, hstep⟩ := locationCall_eq_ok h
  have hS := hs.stacked
  have hname : State.Moves (state false c) ⟨true, code.toList, c.stack⟩ := by
    rw [toList_of_emit hemit]
    exact emitValue_moves rfl rfl rfl hs
  refine hname.trans ?_
  rcases hstep with ⟨-, rfl⟩ | rfl
  · exact openCall_moves rfl rfl rfl rfl nofun hS hname.sound
  · refine hname.sound.push hS rfl rfl (formed_of_isPlain rfl rfl rfl nofun) (.inl ?_) rfl
    exact rests_counted rfl nofun (Nat.le_refl 1)

theorem functionCall_moves {c : Compiler} {s : String} {f : Function} {next : Option Token}
    {step : Step} (h : functionCall c source s f next sp = .ok step) (hf : f.op.isFunction = true)
    (hs : (state false c).Sound) :
    State.Moves (state false c) (state step.operatorNext step.compiler) := by
  have htuple : f.op ≠ .tuple := Op.ne_of_isFunction hf rfl
  have hneg : f.op ≠ .neg := Op.ne_of_isFunction hf rfl
  have hvar : f.op ≠ .var := Op.ne_of_isFunction hf rfl
  -- without brackets a function is no choice: that takes three arguments
  have hplain : f.op.info.minArgs ≤ 1 → isPlain f.op = true := by
    intro hmin
    refine isPlain_of_isFunction hf ?_
    intro hop
    rw [hop] at hmin
    exact absurd hmin (by decide)
  rcases functionCall_eq_ok h with ⟨-, rfl⟩ | ⟨-, hmin, rfl⟩ | ⟨-, hmin, rfl⟩
  · exact openCall_moves rfl hf rfl rfl (fun _ => rfl) hs.stacked hs
  · have hheld : held f.op 0 = 0 := held_of_isPlain (hplain (by omega)) 0
    refine State.Sound.push hs hs.stacked rfl rfl ?_ (.inr ⟨rfl, f.op, rfl, .inr ⟨hf, hmin, rfl⟩⟩) ?_
    · exact formed_of_isPlain rfl (hplain (by omega)) rfl fun h => absurd h hneg
    · rw [hheld, defers_start htuple]
      rfl
  · have hheld : held f.op 1 = 1 := held_of_isPlain (hplain (by omega)) 1
    refine State.Sound.push hs hs.stacked rfl rfl ?_ (.inl ?_) ?_
    · exact formed_of_isPlain rfl (hplain (by omega)) rfl fun _ => rfl
    · exact rests_counted rfl hvar (Nat.le_of_eq hheld.symm)
    · rw [hheld, defers_start htuple]
      rfl

theorem variableRead_moves {c : Compiler} {s : String} {next after : Option Token} {step : Step}
    (h : variableRead c s next after sp = .ok step) (hs : (state false c).Sound) :
    State.Moves (state false c) (state step.operatorNext step.compiler) := by
  rcases variableRead_eq_ok h with ⟨op, step', hop, hv⟩ | ⟨-, rfl⟩
  · rcases hop with ⟨rfl, -, -, rfl⟩ | ⟨rfl, rfl⟩
    · have hmoves := value_moves hv rfl rfl rfl hs
      exact hmoves
    · exact value_moves hv rfl rfl rfl hs
  · exact State.Sound.push_bracketed hs hs.stacked rfl rfl rfl rfl
      (formed_of_isPlain rfl rfl rfl nofun) rfl (fun _ => rfl) rfl

/-- A token in value position is kept in the books, unless it is a round bracket right above a
function. -/
theorem valueStep_moves {c : Compiler} {token : Token} {next after : Option Token} {step : Step}
    (h : valueStep source token sp next after c = .ok step)
    (hround : token = .openRound → (top c.stack).isFunction = false) (hs : (state false c).Sound) :
    State.Moves (state false c) (state step.operatorNext step.compiler) := by
  cases token with
  | number n => exact numberValue_moves h hs
  | text t =>
    replace h : value c { op := if t.isEmpty then .push else .format, literal := some (.text t) } sp
      = .ok step := h
    cases ht : t.isEmpty with
    | true =>
      rw [ht] at h
      exact value_moves h rfl rfl rfl hs
    | false =>
      rw [ht] at h
      exact value_moves h rfl rfl rfl hs
  | code t => exact value_moves h rfl rfl rfl hs
  | minus => exact opening_moves h rfl rfl ⟨nofun, nofun⟩ rfl rfl hs
  | plus =>
    cases h
    exact .refl hs
  | openRound =>
    cases opening_eq_ok h
    exact openGroup_moves rfl rfl (hround rfl) hs
  | closeRound => exact emptyRound_moves h hs
  | openSquare =>
    obtain ⟨c₁, h₁, h₂⟩ := bind_eq_ok h
    cases push_eq_ok h₁
    cases opening_eq_ok h₂
    exact openSquare_moves rfl rfl rfl rfl rfl hs
  | closeSquare => exact emptySquare_moves h hs
  | name s =>
    rcases nameValue_cases h with ⟨-, location, h₁⟩ | ⟨f, hf, h₁⟩ | ⟨-, h₁⟩
    · exact locationCall_moves h₁ hs
    · exact functionCall_moves h₁ (Function.isFunction_of_find? hf) hs
    · exact variableRead_moves h₁ hs
  | _ => cases h

end Compiler

end QuestScript
