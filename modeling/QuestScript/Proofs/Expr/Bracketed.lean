import QuestScript.Proofs.Expr.Misread
import QuestScript.Proofs.Expr.Outline

/-!
# An expression in the brackets of an index

The tokens of an expression are compiled to the same instructions in the brackets of an index as alone;
then the closing bracket adds the instruction that reads the variable. A comma before that bracket ends
a tuple, or makes one of a single item (`run_item`, `run_items`).

A tuple that waits for its next item is closed by the bracket too, although alone such an expression is
an error. It waits after a comma, and plus signs behind the comma do not change that (`hangs`).
-/

namespace QuestScript

namespace Token

/-- Whether the last token that is no plus sign is a comma. -/
def dangles : List Token → Bool
  | [] => false
  | token :: rest => token == .comma && rest.all (· == .plus) || dangles rest

theorem dangles_of_drop {tokens : List Token} (n : Nat) (h : dangles (tokens.drop n) = true) :
    dangles tokens = true := by
  induction n generalizing tokens with
  | zero => exact h
  | succ n ih =>
    cases tokens with
    | nil => exact h
    | cons token rest =>
      rw [dangles, ih h, Bool.or_true]

theorem markAll_plus {tokens : List Token} (h : tokens.all (· == .plus) = true) (o : List Char × Bool) :
    markAll o tokens = some o := by
  induction tokens with
  | nil => rfl
  | cons token rest ih =>
    rw [List.all_cons, Bool.and_eq_true, beq_iff_eq] at h
    rw [markAll_cons, h.1, mark_of_isPlain rfl]
    exact ih h.2

end Token

namespace Compiler

open Token (Beside markAll dangles)

variable {w r : List Char} {sp sp' : Span} {out : Code} {S B : List Pending} {p : Pending}

/-! ## Tuples that wait for an item -/

/-- Whether a tuple waits for its next item at the end of the tokens. -/
def hangs (ready : Bool) (S : List Pending) (tokens : List Token) : Bool :=
  !ready && decide (top S = .op .tuple) && tokens.all (· == .plus) || dangles tokens

theorem operatorStep_hangs {c c' : Compiler} {token : Token} {flag : Bool} {tokens : List Token}
    (h : operatorStep w token sp c = .ok (flag, c')) (hh : hangs flag c'.stack tokens = true) :
    hangs true c.stack (token :: tokens) = true := by
  have htop := (operatorStep_outline h).2
  simp only [hangs, Bool.or_eq_true, Bool.and_eq_true, Bool.not_eq_true', decide_eq_true_eq] at hh
  rcases hh with ⟨⟨hflag, htuple⟩, hplus⟩ | hd
  · rw [hangs, dangles, htop hflag htuple, hplus]
    rfl
  · rw [hangs, dangles, hd, Bool.or_true, Bool.or_true]

theorem valueStep_hangs {c : Compiler} {token : Token} {tokens : List Token} {step : Step} {b : Bool}
    (h : valueStep w token sp tokens[0]? tokens[1]? c = .ok step)
    (hmark : markAll (outline c.stack) (token :: tokens) = some ([], b))
    (hh : hangs step.operatorNext step.compiler.stack (tokens.drop step.skip) = true) :
    hangs false c.stack (token :: tokens) = true := by
  obtain ⟨hstep, -, htop⟩ := valueStep_outline h
  simp only [hangs, Bool.or_eq_true, Bool.and_eq_true, Bool.not_eq_true', decide_eq_true_eq] at hh
  rcases hh with ⟨⟨hnext, htuple⟩, hplus⟩ | hd
  · rcases htop hnext htuple with ⟨rfl, hc, hskip⟩ | hne
    · rw [hskip, List.drop_zero] at hplus
      rw [hc] at htuple
      simp [hangs, htuple, hplus]
    · -- with nothing but plus signs to come no bracket can be open
      rw [← List.take_append_drop step.skip tokens, ← List.cons_append, Token.markAll_append, hstep,
        Option.bind_some, Token.markAll_plus hplus, Option.some.injEq, outline, Prod.mk.injEq] at hmark
      exact absurd hmark.1 hne
  · rw [hangs, dangles, Token.dangles_of_drop _ hd, Bool.or_true, Bool.or_true]

/-! ## Below the expression -/

/-- What waits below an expression that is a text of its own. -/
def ground : List Pending := [{ kind := .start }]

/-- What waits below the index of a variable. -/
def indexGround (s : String) : List Pending :=
  [{ kind := .openSquare }, { kind := .op .var, literal := some (.text s) }, { kind := .start }]

theorem ground_ground : Ground ground := .inl rfl

theorem indexGround_ground (s : String) : Ground (indexGround s) := .inr rfl

theorem top_append_ground (S : List Pending) : top (S ++ ground) = top S := by
  cases S with
  | nil => rfl
  | cons p S => rfl

theorem top_ne_openSquare (h : brackets (p :: S) = []) : p.kind ≠ .openSquare ∧ p.kind ≠ .openRound := by
  constructor
  all_goals
    intro hk
    simp [brackets, Pending.closer?, hk] at h

/-! ## Words at the end -/

theorem Tracks.of_ne_ok {α β : Type} {R : α → β → Prop} {x : Except SourceError α} {y : Except SourceError β}
    (hx : ∀ a, x ≠ .ok a) (hy : ∀ b, y ≠ .ok b) : Tracks R x y := by
  cases x with
  | ok a => exact absurd rfl (hx a)
  | error e =>
    cases y with
    | ok b => exact absurd rfl (hy b)
    | error e' => exact .error e e'

/-- A token that ends a value: no value starts with it. -/
def isEnd (token : Token) : Prop := token = .closeSquare ∨ token = .comma

/-- An operator that waits for a value gets none at the end, nor in front of a bracket or a comma. -/
theorem run_ne_ok {c : Compiler} {o : Op} (htop : top c.stack = .op o) (ho : o ≠ .tuple)
    {us : List (Token × Span)} (hus : ∀ u ∈ us.head?, isEnd u.1) (code : Code) : run r false c us ≠ .ok code := by
  intro h
  cases us with
  | nil =>
    rw [run] at h
    cases h
  | cons u us =>
    obtain ⟨token, spu⟩ := u
    obtain ⟨step, hstep, -⟩ := run_value h
    rcases hus _ rfl with hu | hu
    · cases hu
      obtain ⟨p, b, S, out', hstack, hp, -⟩ := emptySquare_eq_ok (show emptySquare c spu = .ok step from hstep)
      rw [hstack] at htop
      have heq : Pending.Kind.op o = .op .tuple := htop.symm.trans hp
      cases heq
      exact ho rfl
    · cases hu
      cases hstep

/-- An operator spelled as a word is not the last token of an expression. -/
theorem run_word_ne_ok {c : Compiler} {ready : Bool} {token : Token} (hword : token.needsSpace ready = true)
    {us : List (Token × Span)} (hus : ∀ u ∈ us.head?, isEnd u.1) (code : Code) :
    run r ready c ((token, sp) :: us) ≠ .ok code := by
  intro h
  cases token with
  | name s =>
    cases ready with
    | true =>
      obtain ⟨inc, c₁, flag, c₂, hi, -, ha, h₁⟩ := run_operator_iff.mp h
      rcases incoming_mark hi ([], false) with ⟨-, ht⟩ | ⟨-, ht⟩ | ⟨-, ht⟩ | ⟨op, rfl, hop, -, -⟩
      · cases ht
      · cases ht
      · cases ht
      · obtain ⟨c', hc, h₂⟩ := bind_eq_ok ha
        cases h₂
        obtain ⟨p, hp, hstack⟩ := binary_stack hc
        refine run_ne_ok (o := op) ?_ (ne_tuple_of_binary hop) hus code h₁
        rw [hstack]
        exact hp
    | false =>
      obtain ⟨f, hf, hop⟩ : ∃ f, Function.find? s = some f ∧ f.op.isWordOperator = true := by
        simpa [Token.needsSpace, Option.any_eq_true] using hword
      obtain ⟨step, hstep, h₁⟩ := run_value h
      have hnext : us[0]?.map (·.1) ≠ some .openRound := by
        cases us with
        | nil => simp
        | cons u us =>
          intro hu
          have hu' : u.1 = .openRound := Option.some.inj hu
          rcases hus u rfl with hend | hend
          all_goals
            rw [hu'] at hend
            cases hend
      rcases nameValue_cases hstep with ⟨hnone, -⟩ | ⟨f', hf', h₂⟩ | ⟨hnone, -⟩
      · rw [hf] at hnone
        cases hnone
      · cases hf.symm.trans hf'
        rcases functionCall_eq_ok h₂ with ⟨hn, -⟩ | ⟨-, hmin, -⟩ | ⟨-, -, rfl⟩
        · exact hnext hn
        · rw [Op.minArgs_of_isWordOperator hop] at hmin
          cases hmin
        · have hne : f.op ≠ .tuple := Op.ne_of_isFunction (Op.isFunction_of_isWordOperator hop) rfl
          exact run_ne_ok rfl hne hus code h₁
      · rw [hf] at hnone
        cases hnone
  | _ => cases hword

/-! ## All tokens -/

/-- The tokens after a name mean the same for it where the expression goes on with the end of a value. -/
theorem sameAhead_append {ts ts' tail : List (Token × Span)} (hts : Beside w r ts ts')
    (htail : ∀ u ∈ tail.head?, isEnd u.1) (hone : ts.map (·.1) ≠ [.openSquare]) :
    SameAhead (ts[0]?.map (·.1)) (ts[1]?.map (·.1)) ((ts' ++ tail)[0]?.map (·.1)) ((ts' ++ tail)[1]?.map (·.1)) := by
  have hend : ∀ {x : Token}, ¬ isEnd x → ((none : Option Token) = some x ↔ tail[0]?.map (·.1) = some x) := by
    intro x hx
    refine ⟨nofun, fun h => ?_⟩
    cases tail with
    | nil => cases h
    | cons u us => exact absurd (Option.some.inj h ▸ htail u rfl) hx
  cases hts with
  | nil => exact ⟨hend (by rintro (h | h) <;> cases h), hend (by rintro (h | h) <;> cases h), nofun⟩
  | @cons token sp sp' ts ts' _ hrest =>
    refine ⟨.rfl, .rfl, fun hopen => ?_⟩
    cases hrest with
    | nil =>
      -- a bracket that is opened last is not closed
      have htoken : token = .openSquare := Option.some.inj hopen
      exact absurd (by rw [htoken]; rfl) hone
    | cons _ _ => exact .rfl

variable {b d : Bool}

/-- What is to come closes every bracket, with a comma seen outside brackets if `b`; and only with `d` a
tuple may wait for its next item in the end. -/
structure Awaits (b d ready : Bool) (S : List Pending) (tokens : List Token) : Prop where
  mark : markAll (outline S) tokens = some ([], b)
  hang : hangs ready S tokens = true → d = true

theorem Awaits.outline_eq {ready : Bool} (h : Awaits b d ready S []) : outline S = ([], b) :=
  Option.some.inj h.mark

theorem Awaits.brackets_ne_nil {ready : Bool} {token : Token} {tokens : List Token}
    (h : Awaits b d ready S (token :: tokens)) (hclose : token = .closeSquare) : brackets S ≠ [] := by
  subst hclose
  intro hnil
  have hmark := h.mark
  rw [Token.markAll_cons, outline, hnil] at hmark
  cases hmark

/-- A step in operator position. -/
theorem Awaits.operator {token : Token} {tokens : List Token} (h : Awaits b d true S (token :: tokens))
    {flag : Bool} {out' : Code} {S' : List Pending}
    (hstep : operatorStep w token sp ⟨out, S ++ ground⟩ = .ok (flag, ⟨out', S' ++ ground⟩)) :
    Awaits b d flag S' tokens := by
  refine ⟨?_, fun hh => h.hang ?_⟩
  · have hout := (operatorStep_outline hstep).1
    rw [ground, outline_append_start, outline_append_start] at hout
    have hmark := h.mark
    rw [Token.markAll_cons, hout] at hmark
    exact hmark
  · have hback := operatorStep_hangs hstep (by rwa [hangs, top_append_ground] : hangs flag (S' ++ ground) _ = true)
    rwa [hangs, top_append_ground] at hback

/-- A step in value position, which may use more tokens. -/
theorem Awaits.value {token : Token} {tokens : List Token} (h : Awaits b d false S (token :: tokens))
    {flag : Bool} {skip : Nat} {out' : Code} {S' : List Pending}
    (hstep : valueStep w token sp tokens[0]? tokens[1]? ⟨out, S ++ ground⟩
      = .ok { operatorNext := flag, skip, compiler := ⟨out', S' ++ ground⟩ }) :
    skip ≤ tokens.length ∧ Awaits b d flag S' (tokens.drop skip) := by
  obtain ⟨hout, hle, -⟩ := valueStep_outline hstep
  rw [ground, outline_append_start, outline_append_start] at hout
  refine ⟨hle, ?_, fun hh => h.hang ?_⟩
  · have hmark := h.mark
    rw [← List.take_append_drop skip tokens, ← List.cons_append, Token.markAll_append, hout, Option.bind_some]
      at hmark
    exact hmark
  · have hmark : markAll (outline (S ++ ground)) (token :: tokens) = some ([], b) := by
      rw [ground, outline_append_start]
      exact h.mark
    have hback := valueStep_hangs hstep hmark (by rwa [hangs, top_append_ground])
    rwa [hangs, top_append_ground] at hback

variable {tail : List (Token × Span)} {R : Code → Code → Prop}

/-- **An expression above another ground**: its tokens do the same there, so that it comes to the end in the
same state. -/
theorem run_tracks (hB : Ground B) (hlen : 1 ≤ B.length) (htail : ∀ u ∈ tail.head?, isEnd u.1)
    (hend : ∀ (ready : Bool) (out : Code) (S : List Pending), Awaits b d ready S [] →
      Tracks R (run w ready ⟨out, S ++ ground⟩ []) (run r ready ⟨out, S ++ B⟩ tail))
    {ready : Bool} {out : Code} {S : List Pending} {ts ts' : List (Token × Span)} (hts : Beside w r ts ts')
    (h : Awaits b d ready S (ts.map (·.1))) :
    Tracks R (run w ready ⟨out, S ++ ground⟩ ts) (run r ready ⟨out, S ++ B⟩ (ts' ++ tail)) := by
  match ts, ts', hts with
  | [], [], .nil => exact hend ready out S h
  | (token, sp) :: ts, (_, sp') :: ts', .cons hspacing hrest =>
    rw [List.map_cons] at h
    -- a word at the end is an error, whatever stands behind it
    by_cases hword : ts = [] ∧ token.needsSpace ready = true
    · obtain ⟨rfl, hword⟩ := hword
      cases hrest
      exact .of_ne_ok (run_word_ne_ok hword nofun) (run_word_ne_ok hword htail)
    have hsp : token.needsSpace ready = true → spaced w sp = spaced r sp' := fun hneeds =>
      hspacing fun hnil => hword ⟨hnil, hneeds⟩
    rw [List.cons_append, run, run]
    cases ready with
    | true =>
      refine (operatorStep_tracks ground_ground hB hlen hsp h.brackets_ne_nil).bind fun x y hx hxy => ?_
      obtain ⟨flag, c⟩ := x
      obtain ⟨flag', c'⟩ := y
      obtain ⟨hflag, habove⟩ := hxy
      cases hflag
      obtain ⟨out', S'⟩ := habove
      exact run_tracks hB hlen htail hend hrest (h.operator hx)
    | false =>
      have hone : ts.map (·.1) ≠ [.openSquare] := by
        intro hone
        have hmark := h.mark
        rw [hone, show [token, .openSquare] = [token] ++ [.openSquare] from rfl, Token.markAll_append] at hmark
        obtain ⟨o, -, ho⟩ := Option.bind_eq_some_iff.mp hmark
        cases ho
      refine (valueStep_tracks ground_ground hB hlen hsp (sameAhead_append hrest htail hone)
        h.brackets_ne_nil).bind fun x y hx hxy => ?_
      obtain ⟨flag, skip, c⟩ := x
      obtain ⟨flag', skip', c'⟩ := y
      obtain ⟨hflag, hskip, habove⟩ := hxy
      cases hflag
      cases hskip
      obtain ⟨out', S'⟩ := habove
      rw [← List.getElem?_map, ← List.getElem?_map] at hx
      obtain ⟨hle, hnext⟩ := h.value hx
      have hlength := congrArg List.length hrest.map_fst
      simp only [List.length_map] at hlength hle
      rw [List.drop_append_of_le_length (hlength ▸ hle)]
      exact run_tracks hB hlen htail hend (hrest.drop skip) (by rwa [List.map_drop])
termination_by ts.length
decreasing_by
  all_goals
    simp only [List.length_cons, List.length_drop]
    omega

/-! ## The closing bracket -/

/-- What the closing bracket adds to the instructions of an index: with `single`, the index is the only item
of a tuple. -/
def indexTail (s : String) (single : Bool) : List Instruction :=
  (if single then [{ op := .tuple, argCount := 1 }] else []) ++
    [{ op := .var, literal := some (.text s), argCount := 1 }]

/-- The instructions of the index, and then those that read the variable. -/
def ReadsItem (s : String) (single : Bool) (code code' : Code) : Prop :=
  code'.toList = code.toList ++ indexTail s single

/-- An instruction more is emitted, unless there are too many. -/
theorem emit_more {code : Code} {l : List Instruction} (h : out.toList = code.toList ++ l) (i : Instruction) :
    Tracks (fun a b : Code => b.toList = a.toList ++ (l ++ [i])) (.ok code) (emit out i sp) := by
  cases he : emit out i sp with
  | ok out' => exact .ok (by rw [toList_of_emit he, h, List.append_assoc])
  | error e =>
    refine .limit _ ?_
    unfold emit at he
    split at he
    · cases he
      rfl
    · cases he

variable {s : String}

/-- Once its index is counted, the variable is read. -/
theorem run_var (out : Code) : run r true ⟨out, countIndex (indexGround s).tail⟩ []
    = emit out { op := .var, literal := some (.text s), argCount := 1 } ⟨Text.byteSize r, Text.byteSize r⟩ := by
  rw [run]
  show finish _ _ = _
  unfold finish
  show ((emit out _ _ >>= fun out => pure out) >>= fun out => reduce 0 _ ground out) >>= _ = _
  cases emit out { op := .var, literal := some (.text s), argCount := 1 } ⟨Text.byteSize r, Text.byteSize r⟩ with
  | error e => rfl
  | ok out' => rfl

/-- **An index without a trailing comma**: its instructions, and then the variable is read. -/
theorem run_item {ready : Bool} (hS : brackets S = []) (hhang : hangs ready S [] = false) :
    Tracks (ReadsItem s false) (run w ready ⟨out, S ++ ground⟩ [])
      (run r ready ⟨out, S ++ indexGround s⟩ [(.closeSquare, sp)]) := by
  cases ready with
  | false =>
    refine .of_ne_ok (fun a ha => ?_) fun b hb => ?_
    · rw [run] at ha
      cases ha
    · obtain ⟨step, hstep, -⟩ := run_value hb
      obtain ⟨p, b, S', out', hstack, hp, -⟩ :=
        emptySquare_eq_ok (show emptySquare ⟨out, S ++ indexGround s⟩ sp = .ok step from hstep)
      cases S with
      | nil =>
        cases hstack
        cases hp
      | cons q S =>
        obtain ⟨rfl, -⟩ := List.cons.inj hstack
        rw [hangs, show top (q :: S) = _ from hp] at hhang
        cases hhang
  | true =>
    rw [run, run]
    show Tracks _ (reduce 0 _ (S ++ ground) out >>= fun c => closeTuple c _ >>= fun c => _)
      ((reduce 0 sp (S ++ indexGround s) out >>= fun c => closeTuple c sp >>= fun c => closeSquare c sp >>= fun c =>
        pure (true, c)) >>= fun x => run r x.1 x.2 [])
    simp only [bind_assoc, pure_bind]
    refine (reduce_tracks ground_ground (indexGround_ground s) 0).bind fun c c' hc habove => ?_
    obtain ⟨out₁, S₁⟩ := habove
    refine (closeTuple_tracks ground_ground (indexGround_ground s)).bind fun c c' hc' habove => ?_
    obtain ⟨out₂, S₂⟩ := habove
    have hS₂ : brackets S₂ = [] := by
      have hchain := (closeTuple_brackets hc').trans (reduce_brackets hc)
      rwa [brackets_append, brackets_append, List.append_cancel_right_eq, hS] at hchain
    cases S₂ with
    | nil =>
      show Tracks _ (.ok out₂) (run r true ⟨out₂, countIndex (indexGround s).tail⟩ [])
      rw [run_var]
      exact emit_more (l := []) (List.append_nil _).symm _
    | cons p S₂ =>
      refine .of_ne_ok (fun a ha => ?_) fun b hb => ?_
      · rw [if_pos (by simp [ground])] at ha
        cases ha
      · obtain ⟨c, hclose, -⟩ := bind_eq_ok hb
        obtain ⟨q, S', hstack, hq, -⟩ := closeSquare_eq_ok hclose
        cases hstack
        exact (top_ne_openSquare hS₂).1 hq

/-- Where only a tuple may wait in the brackets of an index, the closing bracket fails on anything else. -/
theorem run_square_ne_ok {c : Compiler} {q : Pending} {rest : List Pending} (hstack : c.stack = p :: q :: rest)
    (hq : q.kind ≠ .openSquare) (code : Code) : run r false c [(.closeSquare, sp)] ≠ .ok code := by
  intro h
  obtain ⟨step, hstep, -⟩ := run_value h
  obtain ⟨p', b, S, out', hstack', -, hb, -⟩ := emptySquare_eq_ok (show emptySquare c sp = .ok step from hstep)
  rw [hstack] at hstack'
  cases hstack'
  exact hq hb

/-- The closing bracket after a comma ends the tuple and reads the variable. -/
theorem run_square (hp : p.kind = .op .tuple) (out : Code) :
    run r false ⟨out, p :: indexGround s⟩ [(.closeSquare, sp)] = (do
      let out ← emit out { op := .tuple, argCount := p.args } sp
      emit out { op := .var, literal := some (.text s), argCount := 1 } ⟨Text.byteSize r, Text.byteSize r⟩) := by
  rw [run]
  show emptySquare ⟨out, p :: indexGround s⟩ sp >>= _ = _
  simp only [emptySquare, ne_eq, if_neg (not_not_intro hp), bind_assoc]
  exact bind_congr fun out' => run_var out'

/-- The end of an expression whose operators are done. -/
def finishTuple (c : Compiler) (span : Span) : Except SourceError Code := do
  let c ← closeTuple c span
  if 1 < c.stack.length then fail .missingBracket span else return c.out

/-- An expression ends with nothing open but one tuple. -/
theorem finishTuple_ne_ok (hone : ¬ (p.kind = .op .tuple ∧ S = [])) (code : Code) :
    finishTuple ⟨out, p :: S ++ ground⟩ sp ≠ .ok code := by
  intro h
  obtain ⟨c, hclose, h₁⟩ := bind_eq_ok h
  rcases closeTuple_cases hclose with ⟨-, rfl⟩ | ⟨q, S', out', hstack, hq, -, -, rfl⟩
  · rw [if_pos (by simp [ground])] at h₁
    cases h₁
  · obtain ⟨rfl, rfl⟩ := List.cons.inj hstack
    obtain ⟨q, S₃, rfl⟩ := List.exists_cons_of_ne_nil fun hnil => hone ⟨hq, hnil⟩
    rw [if_pos (by simp [ground])] at h₁
    cases h₁

/-- A comma and the closing bracket of an index, where the index ends. -/
def commaSquare (r : List Char) (c : Compiler) (sp sp' : Span) : Except SourceError Code := do
  run r false (← tupleComma c sp) [(.closeSquare, sp')]

/-- Nothing but one tuple may be open in front of the closing bracket either. -/
theorem commaSquare_ne_ok (hS : brackets (p :: S) = []) (hone : ¬ (p.kind = .op .tuple ∧ S = [])) (code : Code) :
    commaSquare r ⟨out, p :: S ++ indexGround s⟩ sp sp' ≠ .ok code := by
  intro h
  obtain ⟨c, hcomma, h₁⟩ := bind_eq_ok h
  rcases tupleComma_eq_ok hcomma with ⟨q, S', hstack, hq, rfl⟩ | ⟨-, rfl⟩
  · obtain ⟨rfl, hrest⟩ := List.cons.inj hstack
    obtain ⟨q', S₃, rfl⟩ := List.exists_cons_of_ne_nil fun hnil => hone ⟨hq, hnil⟩
    rw [brackets_cons_of_op hq] at hS
    exact run_square_ne_ok (by rw [← hrest]; rfl) (top_ne_openSquare hS).1 code h₁
  · exact run_square_ne_ok rfl (top_ne_openSquare hS).1 code h₁

/-- The first comma of an index makes a tuple of its only item. -/
theorem commaSquare_first : Tracks (ReadsItem s true) (finishTuple ⟨out, ground⟩ sp)
    (commaSquare r ⟨out, indexGround s⟩ sp sp') := by
  show Tracks _ (.ok out) (run r false ⟨out, { kind := .op .tuple, args := 1 } :: indexGround s⟩ _)
  rw [run_square rfl]
  refine Tracks.bind (f := .ok) (emit_more (l := []) (List.append_nil _).symm _) fun a out₂ _ h => ?_
  exact emit_more h _

/-- Another comma counts the last item, as the end of the expression does. -/
theorem commaSquare_next (hp : p.kind = .op .tuple) {span : Span} :
    Tracks (ReadsItem s false) (finishTuple ⟨out, p :: ground⟩ span)
      (commaSquare r ⟨out, p :: indexGround s⟩ sp sp') := by
  have hcount : tupleComma ⟨out, p :: indexGround s⟩ sp = if maxArgs < p.args + 1 then fail .argumentCount sp
      else .ok ⟨out, { p with args := p.args + 1 } :: indexGround s⟩ := by
    simp only [tupleComma, if_pos (show top (p :: indexGround s) = _ from hp)]
    rfl
  rw [commaSquare, hcount]
  simp only [finishTuple, closeTuple, if_pos hp]
  split
  · exact .error _ _
  · show Tracks _ ((emit out _ _ >>= _) >>= _) (run r false ⟨out, _ :: indexGround s⟩ _)
    rw [run_square (p := { p with args := p.args + 1 }) hp, bind_assoc]
    refine (emit_tracks _).bind fun a out₂ _ h => ?_
    cases h
    exact emit_more (l := []) (List.append_nil _).symm _

/-- The comma that ends an index is not one between the arguments of a function. -/
theorem comma_eq_tupleComma (hS : brackets S = []) :
    comma ⟨out, S ++ indexGround s⟩ sp = tupleComma ⟨out, S ++ indexGround s⟩ sp := by
  refine comma_of_ne fun q f rest o hstack hq => ?_
  cases S with
  | nil =>
    cases hstack
    cases hq
  | cons p S =>
    obtain ⟨rfl, -⟩ := List.cons.inj hstack
    exact absurd hq (top_ne_openSquare hS).2

/-- **An index with a trailing comma**: the instructions of its items, a tuple of one item if there is only
one, and then the variable is read. -/
theorem run_items {ready : Bool} (hS : outline S = ([], b)) :
    Tracks (ReadsItem s (!b)) (run w ready ⟨out, S ++ ground⟩ [])
      (run r ready ⟨out, S ++ indexGround s⟩ [(.comma, sp), (.closeSquare, sp')]) := by
  cases ready with
  | false =>
    refine .of_ne_ok (fun a ha => ?_) fun b hb => ?_
    · rw [run] at ha
      cases ha
    · obtain ⟨step, hstep, -⟩ := run_value hb
      cases hstep
  | true =>
    rw [run, run]
    show Tracks _ (reduce 0 _ (S ++ ground) out >>= fun c => finishTuple c _)
      ((reduce 0 sp (S ++ indexGround s) out >>= fun c => comma c sp >>= fun c => pure (false, c)) >>= fun x =>
        run r x.1 x.2 [(.closeSquare, sp')])
    simp only [bind_assoc, pure_bind]
    refine (reduce_tracks ground_ground (indexGround_ground s) 0).bind fun c c' hc habove => ?_
    obtain ⟨out₁, S₁⟩ := habove
    have hS₁ : outline S₁ = ([], b) := by
      have hreduce := reduce_outline hc
      rwa [ground, outline_append_start, outline_append_start, hS] at hreduce
    obtain ⟨hclosed, hb⟩ := Prod.ext_iff.mp hS₁
    rw [comma_eq_tupleComma hclosed]
    cases S₁ with
    | nil =>
      -- no comma has been seen: the item becomes a tuple
      obtain rfl : false = b := hb
      exact commaSquare_first
    | cons p S₂ =>
      by_cases hone : p.kind = .op .tuple ∧ S₂ = []
      · obtain ⟨hp, rfl⟩ := hone
        obtain rfl : true = b := by rwa [outline_tuple hp] at hb
        exact commaSquare_next hp
      · exact .of_ne_ok (finishTuple_ne_ok hone) (commaSquare_ne_ok hclosed hone)

end Compiler

end QuestScript
