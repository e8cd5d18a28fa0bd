import QuestScript.Proofs.Expr.Balance

/-!
# Which expressions are compiled to balanced code

Every step of the compiler is kept in the books, with one exception. A plus sign in front of a value
is dropped. When it stands between a function without brackets and a group, the bracket of the group
comes to stand right above the function as if it were its own, and closing it counts an argument
that has been counted before.

`Token.misread` says where this happens in a list of tokens. Code is balanced if and only if it
happens nowhere (`balanced_iff`).
-/

namespace QuestScript

/-! ## Misread groups -/

/-- No operator spelled as a word is the name of a function. -/
theorem Function.find?_of_wordOperator? {s : String} {o : Op} (h : wordOperator? s = some o) :
    find? s = none := by
  have hall : ∀ name ∈ ["AND", "OR", "MOD"], table.find? (fun f => f.name == name) = none := by
    decide +kernel
  unfold wordOperator? at h
  unfold find?
  split at h
  · next hs => rw [hs]; exact hall _ (by decide)
  · next hs => rw [hs]; exact hall _ (by decide)
  · next hs => rw [hs]; exact hall _ (by decide)
  · cases h

namespace Token

/-- Whether a group comes next, behind any number of plus signs. -/
def opensGroup (tokens : List Token) : Bool :=
  (tokens.dropWhile (· == .plus)).head? == some .openRound

/-- Whether a token is the name of a function that takes the next value when no bracket follows
it. -/
def takesNext : Token → Bool
  | .name s => (Function.find? s).any fun f => f.op.info.minArgs == 1
  | _ => false

/-- Whether a function without brackets is followed by plus signs and a group. -/
def misread : List Token → Bool
  | [] => false
  | token :: rest =>
    token.takesNext && rest.head? == some .plus && opensGroup rest || misread rest

variable {token : Token} {tokens : List Token}

theorem opensGroup_cons (hp : token ≠ .plus) (ho : token ≠ .openRound) :
    opensGroup (token :: tokens) = false := by
  have hp' : (token == .plus) = false := by simpa using hp
  unfold opensGroup
  rw [List.dropWhile_cons, if_neg (by rw [hp']; exact nofun)]
  simpa using ho

theorem misread_cons (h : token.takesNext = false) :
    misread (token :: tokens) = misread tokens := by
  rw [misread, h]
  rfl

/-- A function without brackets is misread if a group comes next: the group would be its brackets if
no plus sign stood between. -/
theorem misread_takesNext (h : token.takesNext = true) (hne : tokens[0]? ≠ some .openRound) :
    misread (token :: tokens) = (opensGroup tokens || misread tokens) := by
  rw [misread, h]
  cases tokens with
  | nil => rfl
  | cons t rest =>
    by_cases hp : t = .plus
    · rw [hp]
      rfl
    · have hfalse : opensGroup (t :: rest) = false := by
        refine opensGroup_cons hp fun ho => hne ?_
        rw [ho]
        rfl
      rw [hfalse, Bool.and_false]

/-- A function with brackets is not misread. -/
theorem misread_openRound (h : tokens[0]? = some .openRound) :
    misread (token :: tokens) = misread (tokens.drop 1) := by
  cases tokens with
  | nil => cases h
  | cons t rest =>
    cases h
    have hhead : ((.openRound :: rest : List Token).head? == some .plus) = false := rfl
    rw [misread, hhead, Bool.and_false, Bool.false_and, Bool.false_or, misread_cons rfl]
    rfl

end Token

namespace Compiler

/-- Whether a bracket of the tokens to come is put above a function that waits for its operand. -/
def slips (ready : Bool) (S : List Pending) (tokens : List Token) : Bool :=
  !ready && (top S).isFunction && Token.opensGroup tokens || Token.misread tokens

variable {source : List Char} {sp : Span} {ready : Bool} {S S' : List Pending} {token : Token}
  {tokens : List Token}

theorem slips_of_top (h : ready = true ∨ (top S).isFunction = false) :
    slips ready S tokens = Token.misread tokens := by
  unfold slips
  rcases h with rfl | h
  · rfl
  · rw [h, Bool.and_false]
    rfl

/-- A token that is no plus sign is not part of what a function before it waits for. -/
theorem slips_cons (hplus : token ≠ .plus)
    (hround : token = .openRound → (top S).isFunction = false) :
    slips ready S (token :: tokens) = Token.misread (token :: tokens) := by
  by_cases ho : token = .openRound
  · exact slips_of_top (.inr (hround ho))
  · unfold slips
    rw [Token.opensGroup_cons hplus ho, Bool.and_false]
    rfl

/-! ## Operator position -/

theorem comma_top {c c' : Compiler} (h : comma c sp = .ok c') : (top c'.stack).isFunction = false := by
  rcases comma_eq_ok h with ⟨b, f, rest, o, -, hb, -, -, h₁⟩ | h₁
  · have htop : ∃ f', c'.stack = b :: f' :: rest := by
      unfold functionComma at h₁
      dsimp only at h₁
      split at h₁
      · cases h₁
      · split at h₁
        · split at h₁
          all_goals
            obtain ⟨out', -, h₂⟩ := bind_eq_ok h₁
            cases h₂
            exact ⟨_, rfl⟩
        · cases h₁
          exact ⟨_, rfl⟩
    obtain ⟨f', hstack⟩ := htop
    rw [hstack]
    show b.kind.isFunction = false
    rw [hb]
    rfl
  · rcases tupleComma_eq_ok h₁ with ⟨p, S, -, hk, rfl⟩ | ⟨-, rfl⟩
    · show p.kind.isFunction = false
      rw [hk]
      rfl
    · rfl

theorem binary_top {c c' : Compiler} {o : Op} (h : binary c o sp = .ok c') (ho : o ∈ Op.binaries) :
    (top c'.stack).isFunction = false := by
  have hall : ∀ o ∈ Op.binaries, o.isFunction = false := by decide
  obtain ⟨⟨out⟩, S⟩ := c
  rcases binary_cases h with ⟨jump, -, rfl⟩ | ⟨-, -, rfl⟩
  · exact hall o ho
  · exact hall o ho

/-- In operator position nothing is misread, and no function is left waiting on top. -/
theorem operatorStep_slips {inc : Incoming} {c₁ c₂ : Compiler} {flag : Bool}
    (hi : incoming source sp token = .ok inc) (ha : arrive inc c₁ sp = .ok (flag, c₂)) :
    slips flag c₂.stack tokens = slips true S (token :: tokens) := by
  have htoken : token.takesNext = false := by
    cases token with
    | name s =>
      simp only [incoming] at hi
      split at hi
      · next op hop =>
        show (Function.find? s).any _ = false
        rw [Function.find?_of_wordOperator? hop]
        rfl
      · cases hi
    | _ => rfl
  have htop : flag = true ∨ (top c₂.stack).isFunction = false := by
    cases inc with
    | closeRound | closeSquare =>
      obtain ⟨c, -, h₁⟩ := bind_eq_ok ha
      obtain ⟨c', -, h₂⟩ := bind_eq_ok h₁
      cases h₂
      exact .inl rfl
    | comma =>
      obtain ⟨c', hc, h₁⟩ := bind_eq_ok ha
      cases h₁
      exact .inr (comma_top hc)
    | binary op =>
      obtain ⟨c', hc, h₁⟩ := bind_eq_ok ha
      cases h₁
      exact .inr (binary_top hc ((incoming_cases hi).2 op rfl))
  rw [slips_of_top htop, slips_of_top (.inl rfl), Token.misread_cons htoken]

/-! ## Value position -/

/-- A bare function is what waits on top of the stack when a group is misread; any other name leaves
nothing there that waits for a bracket. -/
theorem nameValue_slips {c : Compiler} {s : String} {step : Step}
    (h : nameValue c source s tokens[0]? tokens[1]? sp = .ok step) :
    slips step.operatorNext step.compiler.stack (tokens.drop step.skip)
      = Token.misread (.name s :: tokens) := by
  have hnone : Function.find? s = none → (Token.name s).takesNext = false := by
    intro hf
    show (Function.find? s).any _ = false
    rw [hf]
    rfl
  rcases nameValue_cases h with ⟨hf, location, h₁⟩ | ⟨f, hf, h₁⟩ | ⟨hf, h₁⟩
  · obtain ⟨code, -, ⟨hn, rfl⟩ | rfl⟩ := locationCall_eq_ok h₁
    · rw [slips_of_top (.inr rfl), Token.misread_openRound hn]
    · rw [slips_of_top (.inl rfl), Token.misread_cons (hnone hf)]
      rfl
  · have htakes : (Token.name s).takesNext = (f.op.info.minArgs == 1) := by
      show (Function.find? s).any _ = _
      rw [hf]
      rfl
    rcases functionCall_eq_ok h₁ with ⟨hn, rfl⟩ | ⟨-, hmin, rfl⟩ | ⟨hn, hmin, rfl⟩
    · rw [slips_of_top (.inr rfl), Token.misread_openRound hn]
    · rw [slips_of_top (.inl rfl), Token.misread_cons (by rw [htakes, hmin]; rfl)]
      rfl
    · -- the function waits on top, so a group that comes next is misread
      rw [Token.misread_takesNext (by rw [htakes, hmin]; rfl) hn]
      have htop :
          (top ({ kind := .op f.op, cast := f.cast, args := 1 } :: c.stack)).isFunction = true :=
        Function.isFunction_of_find? hf
      unfold slips
      rw [htop]
      rfl
  · rw [Token.misread_cons (hnone hf)]
    rcases variableRead_eq_ok h₁ with ⟨op, step', hop, hv⟩ | ⟨hn, rfl⟩
    · obtain ⟨hready, hzero, -⟩ := value_stack hv
      rcases hop with ⟨-, hn, ha, rfl⟩ | ⟨-, rfl⟩
      · rw [slips_of_top (.inl hready)]
        match tokens, hn, ha with
        | _ :: _ :: rest, rfl, rfl =>
          show Token.misread rest = _
          rw [Token.misread_cons rfl, Token.misread_cons rfl]
      · rw [slips_of_top (.inl hready), hzero]
        rfl
    · rw [slips_of_top (.inr rfl)]
      match tokens, hn with
      | _ :: rest, rfl =>
        show Token.misread rest = _
        rw [Token.misread_cons rfl]

/-- A token in value position tells whether something is misread behind it. -/
theorem valueStep_slips {c : Compiler} {step : Step}
    (h : valueStep source token sp tokens[0]? tokens[1]? c = .ok step)
    (hround : token = .openRound → (top c.stack).isFunction = false) :
    slips step.operatorNext step.compiler.stack (tokens.drop step.skip)
      = slips false c.stack (token :: tokens) := by
  by_cases hplus : token = .plus
  · -- a plus sign leaves no trace: what has waited for a value still does
    subst hplus
    cases h
    rfl
  · rw [slips_cons hplus hround]
    cases token with
    | name s => exact nameValue_slips h
    | plus => exact absurd rfl hplus
    | minus | openRound =>
      cases opening_eq_ok h
      rw [slips_of_top (.inr rfl), Token.misread_cons rfl]
      rfl
    | openSquare =>
      obtain ⟨c₁, h₁, h₂⟩ := bind_eq_ok h
      cases opening_eq_ok h₂
      rw [slips_of_top (.inr rfl), Token.misread_cons rfl]
      rfl
    | closeSquare =>
      obtain ⟨p, b, S, out', -, -, -, -, rfl⟩ := emptySquare_eq_ok h
      rw [slips_of_top (.inl rfl), Token.misread_cons rfl]
      rfl
    | closeRound =>
      have hstep : step.operatorNext = true ∧ step.skip = 0 := by
        obtain ⟨b, S, -, -, ⟨-, h₁⟩ | ⟨f, rest, o, -, -, -, -, rfl⟩⟩ := emptyRound_eq_ok h
        · exact (value_stack h₁).imp_right And.left
        · exact ⟨rfl, rfl⟩
      rw [slips_of_top (.inl hstep.1), Token.misread_cons rfl, hstep.2]
      rfl
    | text t | code t =>
      obtain ⟨hready, hskip, -⟩ := value_stack h
      rw [slips_of_top (.inl hready), Token.misread_cons rfl, hskip]
      rfl
    | number n =>
      have hstep : step.operatorNext = true ∧ step.skip = 0 := by
        replace h : numberValue c n sp = .ok step := h
        unfold numberValue at h
        split at h
        · split at h
          · exact (value_stack h).imp_right And.left
          · exact (value_stack h).imp_right And.left
        · exact (value_stack h).imp_right And.left
      rw [slips_of_top (.inl hstep.1), Token.misread_cons rfl, hstep.2]
      rfl
    | _ => cases h

/-! ## Whole expressions -/

/-- A bracket right above a function is a value more that is expected. -/
theorem slip {out : List Instruction} {b : Pending} {slipped : Bool} (hb : b.kind = .openRound)
    (hbp : b.patch = none) (htop : (top S).isFunction = true) (hs : State.Sound ⟨false, out, S⟩)
    (h : (State.tally ⟨false, out, S⟩).Booked slipped) :
    State.Sound ⟨false, out, b :: S⟩ ∧ (State.tally ⟨false, out, b :: S⟩).Booked true := by
  obtain ⟨f, rest, o, rfl, hf, ho⟩ :
      ∃ f rest o, S = f :: rest ∧ f.kind = .op o ∧ o.isFunction = true := by
    rcases top_cases S with hfalse | hex
    · rw [htop] at hfalse
      cases hfalse
    · exact hex
  have hb' : isBracket b.kind = true := by rw [hb]; rfl
  have hfk : f.kind ≠ .start := by rw [hf]; exact nofun
  have htuple : o ≠ .tuple := Op.ne_of_isFunction ho rfl
  have hheight : height false (b :: f :: rest) = height false (f :: rest) + 1 := by
    rw [State.height_push hf, height, height, base, base, weight_of_isBracket hb', weight_op hf, hb,
      hf, base_op, defers_openRound ho, defers_start htuple]
    simp
    omega
  have htally : State.tally ⟨false, out, b :: f :: rest⟩
      = { State.tally ⟨false, out, f :: rest⟩ with height := height false (f :: rest) + 1 } := by
    rw [State.tally, waits_cons_none hbp, hheight]
    rfl
  have hrest : Stacked f.kind rest := hs.stacked.tail hfk
  refine ⟨⟨.inl (.cons (ne_start_of_isBracket hb') ?_ (.cons hfk ?_ hrest)), ?_, ?_⟩, ?_⟩
  · exact rests_of_isBracket hb'
  · refine rests_deferred hf ?_ fun hv => absurd hv (Op.ne_of_isFunction ho rfl)
    rw [hb]
    exact defers_openRound ho
  · exact List.forall_mem_cons.mpr ⟨formed_of_isBracket hb' hbp, hs.formed⟩
  · rw [htally]
    exact ⟨hs.proper.nodup, hs.proper.below, hs.proper.forward⟩
  · rw [htally]
    exact h.slip

/-- The books of a whole expression: no jump waits, and one value is expected. -/
structure Tally.Whole (t : Tally) (code : Code) : Prop where
  out : t.out.toArray = code
  waits : t.waits = []
  height : t.height = 1
  proper : t.Proper

/-- At the end of the text the start alone is left. -/
theorem finish_moves {c : Compiler} {code : Code} (h : run source true c [] = .ok code)
    (hs : (state true c).Sound) :
    ∃ sp c₁ p, reduce 0 sp c.stack c.out = .ok c₁ ∧ closeTuple c₁ sp = .ok ⟨code, [p]⟩ ∧
      p.kind = .start ∧ p.patch = none ∧ State.Moves (state true c) (state true c₁) ∧
      State.Moves (state true c₁) (state true ⟨code, [p]⟩) := by
  obtain ⟨c₁, ⟨out', stack⟩, hr, ht, hlen, rfl⟩ := run_nil_iff.mp h
  obtain ⟨⟨out⟩, S⟩ := c
  obtain ⟨hmoves, hS, -⟩ := reduce_moves (Nat.zero_le 30) hr hs
  obtain ⟨hmoves', hS'⟩ := closeTuple_moves ht hmoves.sound hS
  -- a stack of one element that is in order is the start alone
  obtain ⟨p, rfl, hk⟩ : ∃ p, stack = [p] ∧ p.kind = .start := by
    cases hS' with
    | bottom hk => exact ⟨_, rfl, hk⟩
    | @cons _ p S hk _ htail =>
      have hnil : S = [] :=
        List.eq_nil_of_length_eq_zero (Nat.le_zero.mp (Nat.le_of_succ_le_succ hlen))
      rw [hnil] at htail
      cases htail
  have hform : Formed out'.toList p := hmoves'.sound.formed p List.mem_cons_self
  refine ⟨_, c₁, p, hr, ht, hk, hform.patch_eq_none_of_bracket ?_, hmoves, hmoves'⟩
  rw [hk]
  exact fun _ => nofun

/-- At the end of the text one value is left, and no jump waits. -/
theorem finish_tally {c : Compiler} {code : Code} {slipped : Bool}
    (h : run source true c [] = .ok code) (hs : (state true c).Sound)
    (hb : (state true c).tally.Booked slipped) : ∃ t : Tally, t.Whole code ∧ t.Booked slipped := by
  obtain ⟨_, _, p, -, -, hk, hp, hmoves, hmoves'⟩ := finish_moves h hs
  have hkeeps := (hmoves.trans hmoves').keeps
  refine ⟨_, ⟨rfl, ?_, ?_, hkeeps.proper⟩, hb.keep hkeeps⟩
  · show waits [p] = []
    rw [waits_cons_none hp]
    rfl
  · show height true [p] = 1
    rw [height, base, weight, hk]
    rfl

/-- The rest of the tokens is kept in the books, unless something has slipped so far or slips in it. -/
theorem run_tally {ready slipped : Bool} {c : Compiler} {code : Code} (ts : List (Token × Span))
    (h : run source ready c ts = .ok code) (hs : (state ready c).Sound)
    (hb : (state ready c).tally.Booked slipped) :
    ∃ t : Tally, t.Whole code ∧ t.Booked (slipped || slips ready c.stack (ts.map (·.1))) := by
  match ts, ready with
  | [], false =>
    rw [run] at h
    cases h
  | [], true =>
    show ∃ t : Tally, t.Whole code ∧ t.Booked (slipped || false)
    rw [Bool.or_false]
    exact finish_tally h hs hb
  | (token, sp) :: rest, true =>
    obtain ⟨inc, c₁, flag, c₂, hi, hr, ha, h₁⟩ := run_operator_iff.mp h
    have hmoves := operatorStep_moves hi hr ha hs
    rw [List.map_cons, ← operatorStep_slips hi ha]
    exact run_tally rest h₁ hmoves.sound (hb.keep hmoves.keeps)
  | (token, sp) :: rest, false =>
    obtain ⟨step, hstep, h₁⟩ := run_value h
    rw [← List.getElem?_map, ← List.getElem?_map] at hstep
    by_cases hslip : token = .openRound ∧ (top c.stack).isFunction = true
    · -- the one step that is not kept in the books
      obtain ⟨rfl, htop⟩ := hslip
      cases opening_eq_ok hstep
      obtain ⟨hs', hb'⟩ := slip (b := { kind := .openRound }) rfl rfl htop hs hb
      have hslips : slips false c.stack (.openRound :: rest.map (·.1)) = true := by
        unfold slips
        rw [htop]
        rfl
      have htally := run_tally _ h₁ hs' hb'
      rw [Bool.true_or] at htally
      rwa [List.map_cons, hslips, Bool.or_true]
    · have hround : token = .openRound → (top c.stack).isFunction = false := by
        intro ht
        exact Bool.not_eq_true _ ▸ fun htop => hslip ⟨ht, htop⟩
      have hmoves := valueStep_moves hstep hround hs
      rw [List.map_cons, ← valueStep_slips hstep hround, ← List.map_drop]
      exact run_tally _ h₁ hmoves.sound (hb.keep hmoves.keeps)
termination_by ts.length
decreasing_by
  all_goals
    simp only [List.length_cons, List.length_drop]
    omega

end Compiler

theorem Compiler.start_sound : (Compiler.state false { stack := [{ kind := .start }] }).Sound where
  topped := .inl (.bottom rfl)
  formed := by
    intro p hp
    cases List.mem_singleton.mp hp
    exact rfl
  proper := ⟨List.nodup_nil, nofun, nofun⟩

theorem Compiler.start_booked :
    (Compiler.state false { stack := [{ kind := .start }] }).tally.Booked false where
  low := by
    intro depth hd x hx
    cases List.mem_singleton.mp hx
    show (0 : Int) ≤ 0 - (depth 0 : Int)
    rw [hd.start]
    exact Int.le_refl 0
  exact := by
    intro _
    refine ⟨fun _ => 0, ⟨rfl, nofun, nofun, nofun⟩, ?_⟩
    intro x hx
    cases List.mem_singleton.mp hx
    rfl
  short := nofun

theorem compile_tally {source : List Char} {tokens : List (Token × Span)} {code : Code}
    (ht : Token.tokenize source = .ok tokens) (hc : compile source = .ok code) :
    ∃ t : Compiler.Tally, t.Whole code ∧ t.Booked (Token.misread (tokens.map (·.1))) := by
  obtain ⟨tokens', ht', hrun⟩ := bind_eq_ok hc
  cases ht.symm.trans ht'
  exact Compiler.run_tally tokens hrun Compiler.start_sound Compiler.start_booked

/-- The jumps of compiled code lead forward, and not beyond its end. -/
theorem compile_forward {source : List Char} {code : Code} (h : compile source = .ok code) :
    Compiler.Forward code.toList [] := by
  obtain ⟨tokens, ht, -⟩ := bind_eq_ok h
  obtain ⟨t, ⟨rfl, hwaits, -, hproper⟩, -⟩ := compile_tally ht h
  have hforward := hproper.forward
  rw [Compiler.Tally.opens, hwaits] at hforward
  exact hforward

/-- Code is balanced if and only if no group is misread as the brackets of a function in front of
it. -/
theorem balanced_iff {source : List Char} {tokens : List (Token × Span)} {code : Code}
    (ht : Token.tokenize source = .ok tokens) (hc : compile source = .ok code) :
    (∃ depth, Balanced code depth) ↔ Token.misread (tokens.map (·.1)) = false := by
  obtain ⟨t, ⟨rfl, hwaits, hheight, hproper⟩, hbooked⟩ := compile_tally ht hc
  exact hbooked.balanced_iff hproper hwaits hheight

/-- An expression is compiled to balanced code if and only if none of its groups is misread. If none
is, every instruction an evaluation comes to finds its operands and one value is left at the end, so
that an evaluation fails only because of what an instruction does with its operands. -/
theorem compile_balanced_iff {source : List Char} {code : Code} (h : compile source = .ok code) :
    ∃ tokens, Token.tokenize source = .ok tokens ∧
      ((∃ depth, Balanced code depth) ↔ Token.misread (tokens.map (·.1)) = false) ∧
      (Token.misread (tokens.map (·.1)) = false → ∀ (c : Calls) (m : Machine),
        (∀ {n stack m₁}, Machine.Reaches c code m n stack m₁ →
          (∀ i, code[n]? = some i → i.pops ≤ stack.length) ∧ (n = code.size → stack.length = 1)) ∧
        ∀ {e m'}, Machine.evaluate c code m = .failed e m' →
          ∃ n i stack m₁, Machine.Reaches c code m n stack m₁ ∧ code[n]? = some i ∧
            i.pops ≤ stack.length ∧ Machine.step c m.moves i stack m₁ = .failed e m') := by
  obtain ⟨tokens, ht, -⟩ := bind_eq_ok h
  refine ⟨tokens, ht, balanced_iff ht h, ?_⟩
  intro hread c m
  obtain ⟨depth, hb⟩ := (balanced_iff ht h).mpr hread
  refine ⟨?_, fun hfail => Machine.evaluate_failed_of_balanced hb hfail⟩
  intro n stack m₁ hreach
  rw [(hreach.length_eq hb).2]
  refine ⟨fun i hi => hb.enough hi, ?_⟩
  rintro rfl
  exact hb.stop

/-- Plus signs in front of other values, and groups that are the brackets of a function, do no
harm. -/
theorem compile_balanced_iff_sample :
    ∃ code, compile "LEN +'x' OR ARRITEM ('x')".toList = .ok code ∧ ∃ depth, Balanced code depth := by
  have hcompile : (compile "LEN +'x' OR ARRITEM ('x')".toList).toOption.isSome = true := by
    decide +kernel
  have hread : (Token.tokenize "LEN +'x' OR ARRITEM ('x')".toList).toOption.map
      (fun tokens => Token.misread (tokens.map (·.1))) = some false := by decide +kernel
  obtain ⟨code, hcode⟩ := Option.isSome_iff_exists.mp hcompile
  obtain ⟨tokens, ht, hiff, -⟩ := compile_balanced_iff (eq_ok_of_toOption hcode)
  rw [ht] at hread
  exact ⟨code, eq_ok_of_toOption hcode, hiff.mpr (Option.some.inj hread)⟩

/-- A misread group: the function wants two operands, and there is one. -/
theorem compile_not_balanced :
    ∃ code, compile "ARRITEM +('x')".toList = .ok code ∧ ¬∃ depth, Balanced code depth := by
  refine ⟨#[{ op := .format, literal := some (.text "x") }, { op := .arrItem, argCount := 2 }], ?_, ?_⟩
  · exact eq_ok_of_toOption (by decide +kernel)
  · rintro ⟨depth, hb⟩
    have hstart := hb.start
    have hfalls : depth 1 + 0 = depth 0 + 1 := hb.falls (n := 0) rfl rfl
    have henough : 2 ≤ depth 1 := hb.enough (n := 1) rfl
    omega

end QuestScript
