import QuestScript.Proofs.Expr.Brackets
import QuestScript.Proofs.Expr.Piece

/-!
# Compiled expressions mean what their trees mean

If the tokens of a text spell a tree and the text compiles, the code computes the value of the tree.

The compiler reads tokens, not trees, and it emits an operator only when the token after its last
operand is known. So the statement about one spelling (`Compiles`) has two halves:

* the tokens are read, and some operators of the spelling still wait on top of the stack;
* whatever emits these operators afterwards, because its priority is at most the tail of the
  spelling, has then appended a piece that computes the value (`Computes`).

`compiles` goes through the grammar with it. Brackets settle what waits inside them; what fills them
is a list of expressions (`Listed`), which becomes the arguments of a call, the items of a tuple or
the three parts of a choice.
-/

namespace QuestScript

namespace Compiler

variable {source : List Char} {code : Code} {out : List Instruction} {S : List Pending} {sp : Span}
  {rest : List (Token × Span)}

/-! ## Readings -/

/-- The compiler is about to read the tokens `ts` of an expression above the stack `S`. A bracket
after an operator spelled as a word has been read together with the word, and then the operand of
the word is counted when the bracket is closed. -/
inductive Opens : List Pending → List (Token × Span) → List Pending → List (Token × Span) → Prop
  | plain {S : List Pending} {ts : List (Token × Span)} :
      top S ≠ .op .var → (∀ n, ts[0]?.map (·.1) = some (.number n) → top S ≠ .op .neg) →
      (ts[0]?.map (·.1) = some .openRound → (top S).isFunction = false) → Opens S ts S ts
  | word {op : Op} {cast : Option ValueType} {S : List Pending} {ts : List (Token × Span)}
      {sp : Span} : op.isWordOperator = true →
      Opens ({ kind := .op op, args := 1, cast } :: S) ((.openRound, sp) :: ts)
        ({ kind := .openRound } :: { kind := .op op, cast } :: S) ts

/-- The compiler has read an expression above the stack `S`: whatever emits its operators that still
wait has appended a piece to `out` that computes its value. -/
def Reads (c : Calls) (source : List Char) (code : Code) (e : Expr) (tail : Nat)
    (out : List Instruction) (S : List Pending) (rest : List (Token × Span)) : Prop :=
  ∃ out' P, run source true ⟨out', P ++ S⟩ rest = .ok code ∧
    ∀ {r : Nat} {sp : Span} {c' : Compiler}, r ≤ tail → reduce r sp (P ++ S) out' = .ok c' →
      ∃ piece, Machine.Computes c out.length piece (e.eval c) ∧
        reduce r sp S (out ++ piece).toArray = .ok c'

/-- The compiler reads a spelling wherever it stands. -/
def Compiles (c : Calls) (source : List Char) (code : Code) (e : Expr) (head tail : Nat)
    (t : List (Token × Span)) : Prop :=
  ∀ {out : List Instruction} {S S₁ : List Pending} {rest ts : List (Token × Span)},
    Opens S (t ++ rest) S₁ ts → Admits S head → Follows rest →
    run source false ⟨out.toArray, S₁⟩ ts = .ok code → Reads c source code e tail out S rest

variable {c : Calls} {e : Expr} {head tail : Nat} {t : List (Token × Span)}

theorem opens_of_isBarrier (h : isBarrier (top S) = true) (ts : List (Token × Span)) :
    Opens S ts S ts := by
  refine .plain ?_ ?_ ?_
  · intro hS
    rw [hS] at h
    cases h
  · intro n _ hS
    rw [hS] at h
    cases h
  · intro _
    cases hS : top S with
    | op op =>
      rw [hS] at h
      have hop : op = .tuple := by simpa [isBarrier] using h
      rw [hop]
      rfl
    | _ => rfl

theorem Opens.eq_of_ne {S₁ : List Pending} {token : Token} {ts : List (Token × Span)}
    (h : Opens S ((token, sp) :: rest) S₁ ts) (hne : token ≠ .openRound) :
    S₁ = S ∧ ts = (token, sp) :: rest := by
  cases h with
  | plain => exact ⟨rfl, rfl⟩
  | word => exact absurd rfl hne

/-- Nothing of the expression waits. -/
theorem Reads.of_piece {piece : List Instruction}
    (hx : Machine.Computes c out.length piece (e.eval c))
    (h : run source true ⟨(out ++ piece).toArray, S⟩ rest = .ok code) :
    Reads c source code e tail out S rest :=
  ⟨_, [], h, fun _ hr => ⟨piece, hx, hr⟩⟩

/-- The end of an item emits all that waits. -/
theorem Reads.settle (h : Reads c source code e tail out S rest) (hrest : Ends rest) :
    ∃ piece, Machine.Computes c out.length piece (e.eval c) ∧
      run source true ⟨(out ++ piece).toArray, S⟩ rest = .ok code := by
  obtain ⟨out', P, hrun, hpiece⟩ := h
  obtain ⟨sp, c₁, hr, hall⟩ := hrest.run hrun
  obtain ⟨piece, hx, hr'⟩ := hpiece (Nat.zero_le _) hr
  exact ⟨piece, hx, hall _ hr'⟩

/-! ## Literals and variables -/

/-- A literal is one instruction. -/
theorem Reads.of_value {i : Instruction} {step : Step}
    (hx : Machine.Computes c out.length [i] (e.eval c))
    (hv : value ⟨out.toArray, S⟩ i sp = .ok step)
    (h : run source step.operatorNext step.compiler (rest.drop step.skip) = .ok code) :
    Reads c source code e tail out S rest := by
  rw [value_eq_ok hv] at h
  exact .of_piece hx h

theorem numberValue_of_ne {code : Code} {n : Number} (hS : top S ≠ .op .neg) :
    numberValue ⟨code, S⟩ n sp
      = value ⟨code, S⟩ { op := .push, literal := some (.number n) } sp := by
  cases S with
  | nil => rfl
  | cons p S => exact if_neg hS

theorem compiles_number (n : Number) (sp : Span) :
    Compiles c source code (.number n) head tail [(.number n, sp)] := by
  intro out S S₁ rest ts ho ha hf h
  cases ho with
  | plain _ hn _ =>
    obtain ⟨step, hstep, h₁⟩ := run_value h
    replace hstep : numberValue ⟨out.toArray, S⟩ n sp = .ok step := hstep
    rw [numberValue_of_ne (hn n rfl)] at hstep
    exact .of_value (Machine.computes_push _) hstep h₁

/-- An empty text has no expressions in it. -/
theorem formatText_empty (c : Calls) : Machine.formatText c "" = pure "" := by
  have hparts : Text.parts [] = [.plain []] := by
    rw [Text.parts]
    rfl
  unfold Machine.formatText
  rw [String.toList_empty, hparts]
  rfl

theorem compiles_text (hc : c.Obey frame) (s : String) (sp : Span) :
    Compiles c source code (.text s) head tail [(.text s, sp)] := by
  intro out S S₁ rest ts ho ha hf h
  obtain ⟨rfl, rfl⟩ := ho.eq_of_ne nofun
  obtain ⟨step, hstep, h₁⟩ := run_value h
  refine .of_value ?_ hstep h₁
  rw [Expr.eval]
  cases hs : s.isEmpty with
  | false => exact Machine.computes_format hc s
  | true =>
    have hs' : s = "" := by simpa using hs
    rw [hs', formatText_empty]
    exact Machine.computes_push _

theorem compiles_code (s : String) (sp : Span) :
    Compiles c source code (.code s) head tail [(.code s, sp)] := by
  intro out S S₁ rest ts ho ha hf h
  obtain ⟨rfl, rfl⟩ := ho.eq_of_ne nofun
  obtain ⟨step, hstep, h₁⟩ := run_value h
  exact .of_value (Machine.computes_push _) hstep h₁

theorem compiles_var {s : String} (hs : s.toList.head? ≠ some '@') (hf : Function.find? s = none)
    (sp : Span) : Compiles c source code (.var s) head tail [(.name s, sp)] := by
  intro out S S₁ rest ts ho ha hfollows h
  rw [List.singleton_append] at ho
  obtain ⟨rfl, rfl⟩ := ho.eq_of_ne nofun
  obtain ⟨step, hstep, h₁⟩ := run_value h
  replace hstep : nameValue _ source s _ _ sp = .ok step := hstep
  rw [nameValue_of_ne hs, hf] at hstep
  simp only [variableRead] at hstep
  rw [if_neg hfollows.2] at hstep
  exact .of_value (Machine.computes_var s) hstep h₁

/-! ## Lists of expressions -/

/-- The compiler reads each item of a list. -/
inductive Listed (c : Calls) (source : List Char) (code : Code) :
    List Expr → List (Token × Span) → Prop
  | nil : Listed c source code [] []
  | one {e : Expr} {head tail : Nat} {t : List (Token × Span)} :
      Compiles c source code e head tail t → Listed c source code [e] t
  | more {e e' : Expr} {es : List Expr} {head tail : Nat} {t t' : List (Token × Span)} (sp : Span) :
      Compiles c source code e head tail t → Listed c source code (e' :: es) t' →
      Listed c source code (e :: e' :: es) (t ++ (.comma, sp) :: t')

/-- An item above a barrier becomes a piece. -/
theorem Compiles.item (h : Compiles c source code e head tail t) (hS : isBarrier (top S) = true)
    (hrest : Ends rest) (hrun : run source false ⟨out.toArray, S⟩ (t ++ rest) = .ok code) :
    ∃ piece, Machine.Computes c out.length piece (e.eval c) ∧
      run source true ⟨(out ++ piece).toArray, S⟩ rest = .ok code :=
  (h (opens_of_isBarrier hS _) (admits_of_isBarrier hS) hrest.follows hrun).settle hrest

/-- The comma of a tuple counts the item before it. -/
theorem run_comma_tuple {p : Pending} (hp : p.kind = .op .tuple)
    (h : run source true ⟨out.toArray, p :: S⟩ ((.comma, sp) :: rest) = .ok code) :
    run source false ⟨out.toArray, { p with args := p.args + 1 } :: S⟩ rest = .ok code := by
  have hbarrier : isBarrier (top (p :: S)) = true := by
    show isBarrier p.kind = true
    rw [hp]
    rfl
  obtain ⟨c', hc, h₁⟩ := run_comma hbarrier h
  rcases comma_eq_ok hc with ⟨b, f, S', op, hstack, hb, -⟩ | ht
  · cases hstack
    rw [hp] at hb
    cases hb
  · rcases tupleComma_eq_ok ht with ⟨q, S', hstack, -, rfl⟩ | ⟨hne, -⟩
    · cases hstack
      exact h₁
    · exact absurd hp hne

/-- The items of a tuple, which waits on top. -/
theorem Listed.tuple {es : List Expr} {p : Pending} (h : Listed c source code (e :: es) t)
    (hp : p.kind = .op .tuple) (hS : isBarrier (top S) = true) (hS' : top S ≠ .op .tuple)
    (hrest : Closes rest) (hrun : run source false ⟨out.toArray, p :: S⟩ (t ++ rest) = .ok code) :
    ∃ piece, Machine.ComputesAll c out.length piece (es.length + 1) (Expr.evalAll c (e :: es)) ∧
      run source true
        ⟨(out ++ (piece ++ [({ op := .tuple, argCount := p.args + (es.length + 1) } : Instruction)])).toArray,
          S⟩ rest = .ok code := by
  have hbarrier : ∀ {p : Pending}, p.kind = .op .tuple → isBarrier (top (p :: S)) = true := by
    intro p hp
    show isBarrier p.kind = true
    rw [hp]
    rfl
  induction es generalizing e t p out with
  | nil =>
    cases h with
    | one he =>
      obtain ⟨piece, hx, h₁⟩ := he.item (hbarrier hp) (.close hrest) hrun
      refine ⟨piece, ?_, ?_⟩
      · simpa [Expr.evalAll] using Machine.ComputesAll.cons hx .nil
      · rw [← List.append_assoc]
        exact hrest.run_tuple hp hS hS' h₁
  | cons e' es ih =>
    cases h with
    | more sp he hes =>
      rw [List.append_assoc] at hrun
      obtain ⟨piece, hx, h₁⟩ := he.item (hbarrier hp) (.comma sp _) hrun
      obtain ⟨pieces, hxs, h₂⟩ :=
        ih (p := { p with args := p.args + 1 }) hes hp (run_comma_tuple hp h₁)
      refine ⟨piece ++ pieces, ?_, ?_⟩
      · rw [List.length_append] at hxs
        simpa [Expr.evalAll] using Machine.ComputesAll.cons hx hxs
      · simpa [Nat.add_assoc, Nat.add_comm, Nat.add_left_comm] using h₂

/-- The comma of a call counts the argument before it. -/
theorem run_comma_call {f : Pending} {op : Op} (hf : f.kind = .op op) (ho : op.isFunction = true)
    (hiif : op ≠ .iif)
    (h : run source true ⟨out.toArray, { kind := .openRound } :: f :: S⟩ ((.comma, sp) :: rest)
      = .ok code) :
    run source false ⟨out.toArray, { kind := .openRound } :: { f with args := f.args + 1 } :: S⟩ rest
      = .ok code := by
  obtain ⟨kind, args, literal, patch, cast⟩ := f
  cases hf
  obtain ⟨c', hc, h₁⟩ := run_comma rfl h
  simp only [comma, ho, if_true, functionComma, if_neg hiif] at hc
  split at hc
  · cases hc
  · cases hc
    exact h₁

/-- The end of a call counts the last argument, and then there must be enough and not too many. -/
theorem run_close_call {f : Pending} {op : Op} (hf : f.kind = .op op) (ho : op.isFunction = true)
    (h : run source true ⟨out.toArray, { kind := .openRound } :: f :: S⟩ ((.closeRound, sp) :: rest)
      = .ok code) :
    f.args + 1 ≤ op.info.maxArgs ∧
      run source true ⟨out.toArray, { f with args := f.args + 1 } :: S⟩ rest = .ok code := by
  obtain ⟨c₂, hc, h₁⟩ := run_closeRound (by exact nofun) rfl h
  obtain ⟨b, S', hstack, -, ⟨hfun, -⟩ | ⟨f', S₁, op', rfl, hf', -, -, hmax, rfl⟩⟩ := closeRound_eq_ok hc
  · cases hstack
    replace hfun : f.kind.isFunction = false := hfun
    rw [hf] at hfun
    cases ho.symm.trans hfun
  · cases hstack
    cases hf.symm.trans hf'
    exact ⟨hmax, h₁⟩

/-- The arguments of a call. -/
theorem Listed.call {es : List Expr} {f : Pending} {op : Op} (h : Listed c source code (e :: es) t)
    (hf : f.kind = .op op) (ho : op.isFunction = true) (hiif : op ≠ .iif)
    (hrun : run source false ⟨out.toArray, { kind := .openRound } :: f :: S⟩
      (t ++ (.closeRound, sp) :: rest) = .ok code) :
    f.args + (es.length + 1) ≤ op.info.maxArgs ∧
    ∃ piece, Machine.ComputesAll c out.length piece (es.length + 1) (Expr.evalAll c (e :: es)) ∧
      run source true
        ⟨(out ++ piece).toArray, { f with args := f.args + (es.length + 1) } :: S⟩ rest = .ok code := by
  induction es generalizing e t f out with
  | nil =>
    cases h with
    | one he =>
      obtain ⟨piece, hx, h₁⟩ := he.item rfl (.close (.round sp rest)) hrun
      obtain ⟨hmax, h₂⟩ := run_close_call hf ho h₁
      refine ⟨hmax, piece, ?_, h₂⟩
      simpa [Expr.evalAll] using Machine.ComputesAll.cons hx .nil
  | cons e' es ih =>
    cases h with
    | more sp' he hes =>
      rw [List.append_assoc] at hrun
      obtain ⟨piece, hx, h₁⟩ := he.item rfl (.comma sp' _) hrun
      obtain ⟨hmax, pieces, hxs, h₂⟩ :=
        ih (f := { f with args := f.args + 1 }) hes hf (run_comma_call hf ho hiif h₁)
      refine ⟨?_, piece ++ pieces, ?_, ?_⟩
      · replace hmax : f.args + 1 + (es.length + 1) ≤ op.info.maxArgs := hmax
        rw [List.length_cons]
        omega
      · rw [List.length_append] at hxs
        simpa [Expr.evalAll] using Machine.ComputesAll.cons hx hxs
      · simpa [Nat.add_assoc, Nat.add_comm, Nat.add_left_comm] using h₂

/-! ## Brackets -/

/-- The stack is one above which an expression may be a tuple without brackets of its own. -/
inductive Fills : List Pending → Prop
  | start : Fills [{ kind := .start }]
  | round {S : List Pending} : (top S).isFunction = false → Fills ({ kind := .openRound } :: S)
  | square {S : List Pending} : Fills ({ kind := .openSquare } :: S)

theorem Fills.isBarrier (h : Fills S) : isBarrier (top S) = true := by
  cases h <;> rfl

theorem Fills.top_ne (h : Fills S) : top S ≠ .op .tuple := by
  cases h <;> exact nofun

/-- The first comma of a tuple without brackets of its own opens it. -/
theorem Fills.run_comma (hS : Fills S)
    (h : run source true ⟨out.toArray, S⟩ ((.comma, sp) :: rest) = .ok code) :
    run source false ⟨out.toArray, { kind := .op .tuple, args := 1 } :: S⟩ rest = .ok code := by
  obtain ⟨c', hc, h₁⟩ := Compiler.run_comma hS.isBarrier h
  rcases comma_eq_ok hc with ⟨b, f, S', op, hstack, hb, hf, ho, -⟩ | ht
  · cases hS with
    | start => cases hstack
    | square =>
      cases hstack
      cases hb
    | round hfun =>
      cases hstack
      replace hfun : f.kind.isFunction = false := hfun
      rw [hf] at hfun
      cases ho.symm.trans hfun
  · rcases tupleComma_eq_ok ht with ⟨p, S', hstack, hp, -⟩ | ⟨-, rfl⟩
    · replace hstack : S = p :: S' := hstack
      refine absurd ?_ hS.top_ne
      rw [hstack]
      exact hp
    · exact h₁

/-- What fills a bracket: one expression, or the items of a tuple. -/
def Whole (c : Calls) (source : List Char) (code : Code) (e : Expr) (t : List (Token × Span)) : Prop :=
  Listed c source code [e] t ∨
    ∃ e₁ e₂ es, Listed c source code (e₁ :: e₂ :: es) t ∧ e = .tuple (e₁ :: e₂ :: es)

theorem Whole.fill (hc : c.Obey frame) (h : Whole c source code e t) (hS : Fills S)
    (hrest : Closes rest) (hrun : run source false ⟨out.toArray, S⟩ (t ++ rest) = .ok code) :
    ∃ piece, Machine.Computes c out.length piece (e.eval c) ∧
      run source true ⟨(out ++ piece).toArray, S⟩ rest = .ok code := by
  rcases h with h | ⟨e₁, e₂, es, h, rfl⟩
  · cases h with
    | one he => exact he.item hS.isBarrier (.close hrest) hrun
  · cases h with
    | more sp he hes =>
      rw [List.append_assoc] at hrun
      obtain ⟨piece, hx, h₁⟩ := he.item hS.isBarrier (.comma sp _) hrun
      obtain ⟨pieces, hxs, h₂⟩ := hes.tuple rfl hS.isBarrier hS.top_ne hrest (hS.run_comma h₁)
      rw [List.length_append] at hxs
      have hall := (Machine.ComputesAll.cons hx hxs).operate hc
        (i := { op := .tuple, argCount := 1 + (es.length + 1) }) rfl (Nat.add_comm 1 _)
      rw [← Expr.evalAll] at hall
      refine ⟨_, by rw [Expr.eval]; exact hall, ?_⟩
      simpa using h₂

theorem compiles_group (hc : c.Obey frame) (h : Whole c source code e t) (sp sp' : Span) :
    Compiles c source code e head tail ((.openRound, sp) :: (t ++ [(.closeRound, sp')])) := by
  intro out S S₁ rest ts ho ha hf hrun
  rw [List.cons_append, List.append_assoc, List.singleton_append] at ho
  cases ho with
  | plain hvar hn hround =>
    obtain ⟨step, hstep, h₁⟩ := run_value hrun
    replace hstep : opening ⟨out.toArray, S⟩ { kind := .openRound } sp = .ok step := hstep
    rw [opening_eq_ok hstep] at h₁
    obtain ⟨piece, hx, h₂⟩ := h.fill hc (.round (hround rfl)) (.round sp' rest) h₁
    obtain ⟨c', hclose, h₃⟩ := run_closeRound (by exact nofun) rfl h₂
    obtain ⟨b, S', hstack, -, ⟨-, rfl⟩ | ⟨f, S₁, op, rfl, hf, ho, -⟩⟩ := closeRound_eq_ok hclose
    · cases hstack
      exact .of_piece hx h₃
    · cases hstack
      have hfun : f.kind.isFunction = false := hround rfl
      rw [hf] at hfun
      cases ho.symm.trans hfun
  | @word op cast S ts sp hw =>
    have hfun := Op.isFunction_of_isWordOperator hw
    rcases h with h | ⟨e₁, e₂, es, h, rfl⟩
    · cases h with
      | one he =>
        obtain ⟨piece, hx, h₁⟩ := he.item rfl (.close (.round sp' rest)) hrun
        exact .of_piece hx (run_close_call rfl hfun h₁).2
    · -- a word takes one operand, not the items of a tuple
      have hiif : op ≠ .iif := by
        rintro rfl
        cases hw
      have hmax := (h.call rfl hfun hiif hrun).1
      rw [Op.maxArgs_of_isWordOperator hw, List.length_cons] at hmax
      omega

theorem compiles_list {es : List Expr} (hc : c.Obey frame) (h : Listed c source code (e :: es) t)
    (sp sp' : Span) :
    Compiles c source code (.tuple (e :: es)) head tail
      ((.openSquare, sp) :: (t ++ [(.closeSquare, sp')])) := by
  intro out S S₁ rest ts ho ha hf hrun
  rw [List.cons_append, List.append_assoc, List.singleton_append] at ho
  cases ho with
  | plain hvar hn hround =>
    obtain ⟨step, hstep, h₁⟩ := run_value hrun
    obtain ⟨c₁, hpush, h₂⟩ := bind_eq_ok hstep
    cases push_eq_ok hpush
    rw [opening_eq_ok h₂] at h₁
    obtain ⟨piece, hxs, h₃⟩ := h.tuple rfl rfl (by exact nofun) (.square sp' rest) h₁
    obtain ⟨c', hclose, h₄⟩ := run_closeSquare (by exact nofun) rfl h₃
    have hcount : countIndex S = S := by
      cases S with
      | nil => rfl
      | cons p S => exact if_neg hvar
    simp only [closeSquare, ne_eq, not_true_eq_false, if_false, hcount] at hclose
    cases hclose
    refine .of_piece ?_ h₄
    rw [Expr.eval]
    exact hxs.operate hc rfl (Nat.zero_add _)

/-! ## Operations that wait -/

/-- An operation that waits with all its operands read. -/
theorem Reads.of_waiting {p : Pending} {op : Op} {out' : Code} (hk : p.kind = .op op)
    (hp : op.priority ≠ Op.barrier) (ht : tail ≤ op.priority)
    (h : run source true ⟨out', p :: S⟩ rest = .ok code)
    (hemit : ∀ {sp : Span} {out'' : Code}, emitPending out' p sp = .ok out'' →
      ∃ piece, Machine.Computes c out.length piece (e.eval c) ∧ out'' = (out ++ piece).toArray) :
    Reads c source code e tail out S rest := by
  have hprio : p.priority = op.priority := by
    unfold Pending.priority
    rw [hk]
  refine ⟨out', [p], h, fun hr h₁ => ?_⟩
  obtain ⟨out'', h₂, h₃⟩ := reduce_cons (hprio ▸ hp) (hprio ▸ Nat.le_trans hr ht) h₁
  obtain ⟨piece, hx, rfl⟩ := hemit h₂
  exact ⟨piece, hx, h₃⟩

/-- An operation whose last operand has just been read. -/
theorem Reads.operand {e' : Expr} {tail' : Nat} {p : Pending} {op : Op} {out₁ : List Instruction}
    (h : Reads c source code e tail out₁ (p :: S) rest) (hk : p.kind = .op op)
    (hp : op.priority ≠ Op.barrier) (ht : tail' ≤ op.priority) (ht' : tail' ≤ tail)
    (hemit : ∀ {sp : Span} {piece : List Instruction} {out'' : Code},
      Machine.Computes c out₁.length piece (e.eval c) →
      emitPending (out₁ ++ piece).toArray p sp = .ok out'' →
      ∃ piece', Machine.Computes c out.length piece' (e'.eval c) ∧
        out'' = (out ++ piece').toArray) :
    Reads c source code e' tail' out S rest := by
  have hprio : p.priority = op.priority := by
    unfold Pending.priority
    rw [hk]
  obtain ⟨out', P, hrun, hpiece⟩ := h
  refine ⟨out', P ++ [p], by rwa [List.append_assoc], fun {r sp c'} hr h₁ => ?_⟩
  rw [List.append_assoc] at h₁
  obtain ⟨piece, hx, h₂⟩ := hpiece (Nat.le_trans hr ht') h₁
  obtain ⟨out'', h₃, h₄⟩ := reduce_cons (hprio ▸ hp) (hprio ▸ Nat.le_trans hr ht) h₂
  obtain ⟨piece', hx', rfl⟩ := hemit hx h₃
  exact ⟨piece', hx', h₄⟩

/-- Emitting an operation that is neither `AND` nor `OR` nor a choice. -/
theorem emitPending_op {p : Pending} {op : Op} {out'' : Code} (hk : p.kind = .op op)
    (hop : op ≠ .and ∧ op ≠ .or ∧ op ≠ .iif) (h : emitPending out.toArray p sp = .ok out'') :
    out'' = (out ++ [(⟨op, p.literal, p.args⟩ : Instruction)] ++ castPiece p.cast).toArray := by
  obtain ⟨op', out₁, hk', h₁, h₂⟩ := emitPending_eq_ok h
  rw [hk] at hk'
  cases hk'
  exact h₂ (emitOp_eq_ok h₁ hop)

theorem computes_cast {base : Nat} {piece : List Instruction} {x : Run Value}
    (hx : Machine.Computes c base piece x) (cast : Option ValueType) :
    Machine.Computes c base (piece ++ castPiece cast) (x >>= fun v => Expr.convert v cast) := by
  cases cast with
  | some ty => exact hx.convert ty
  | none =>
    show Machine.Computes c base (piece ++ []) (x >>= pure)
    rw [List.append_nil, bind_pure]
    exact hx

theorem computesAll_one {base : Nat} {piece : List Instruction}
    (hx : Machine.Computes c base piece (e.eval c)) :
    Machine.ComputesAll c base piece 1 (Expr.evalAll c [e]) := by
  have h := Machine.ComputesAll.cons hx .nil
  rw [List.append_nil] at h
  exact h

/-! ## Indices and calls -/

theorem compiles_item {s : String} (hc : c.Obey frame) (hs : s.toList.head? ≠ some '@')
    (hf : Function.find? s = none) (h : Whole c source code e t)
    (ht : t[0]?.map (·.1) ≠ some .closeSquare) (hne : t ≠ []) (sp sp₁ sp₂ : Span) :
    Compiles c source code (.item s e) head Op.var.priority
      ((.name s, sp) :: (.openSquare, sp₁) :: (t ++ [(.closeSquare, sp₂)])) := by
  intro out S S₁ rest ts ho ha hfollows hrun
  rw [List.cons_append, List.cons_append, List.append_assoc, List.singleton_append] at ho
  obtain ⟨rfl, rfl⟩ := ho.eq_of_ne nofun
  obtain ⟨step, hstep, h₁⟩ := run_value hrun
  replace hstep : nameValue _ source s (some .openSquare) _ sp = .ok step := hstep
  rw [nameValue_of_ne hs, hf] at hstep
  simp only [variableRead, if_true] at hstep
  rw [if_neg] at hstep
  · obtain ⟨c₁, hpush₁, h₂⟩ := bind_eq_ok hstep
    obtain ⟨c₂, hpush₂, h₃⟩ := bind_eq_ok h₂
    cases h₃
    cases push_eq_ok hpush₂
    cases push_eq_ok hpush₁
    obtain ⟨piece, hx, h₄⟩ := h.fill hc .square (.square sp₂ rest) h₁
    obtain ⟨c', hclose, h₅⟩ := run_closeSquare (by exact nofun) rfl h₄
    cases hclose
    refine .of_waiting rfl (by decide) (Nat.le_refl _) h₅ fun hemit => ?_
    refine ⟨piece ++ [{ op := .var, literal := some (.text s), argCount := 1 }], ?_, ?_⟩
    · rw [Expr.eval]
      exact hx.item s
    · rw [emitPending_op rfl (by decide) hemit]
      simp [castPiece]
  · cases t with
    | nil => exact absurd rfl hne
    | cons a t => exact ht

/-- The arguments of a call, the call, and its conversion. -/
theorem computes_call {f : Function} {args : List Expr} {base : Nat} {piece : List Instruction}
    (hc : c.Obey frame) (hfun : f.op.isFunction = true)
    (hxs : Machine.ComputesAll c base piece args.length (Expr.evalAll c args)) :
    Machine.Computes c base (piece ++ [⟨f.op, none, args.length⟩] ++ castPiece f.cast)
      (Expr.eval c (.call f args)) := by
  have hx := hxs.operate hc (i := ⟨f.op, none, args.length⟩) (Machine.operates_of_isFunction hfun) rfl
  have hcast := computes_cast hx f.cast
  rw [bind_assoc] at hcast
  rw [Expr.eval]
  exact hcast

/-- A call whose arguments have been read. -/
theorem Reads.of_call {f : Function} {args : List Expr} {piece : List Instruction}
    (hc : c.Obey frame) (hfun : f.op.isFunction = true) (hiif : f.op ≠ .iif)
    (hxs : Machine.ComputesAll c out.length piece args.length (Expr.evalAll c args))
    (h : run source true ⟨(out ++ piece).toArray,
      { kind := .op f.op, args := args.length, cast := f.cast } :: S⟩ rest = .ok code) :
    Reads c source code (.call f args) f.op.priority out S rest := by
  have hop : f.op ≠ .and ∧ f.op ≠ .or ∧ f.op ≠ .iif :=
    ⟨Op.ne_of_isFunction hfun rfl, Op.ne_of_isFunction hfun rfl, hiif⟩
  refine .of_waiting rfl (Op.priority_ne_barrier_of_isFunction hfun) (Nat.le_refl _) h fun hemit => ?_
  refine ⟨_, computes_call hc hfun hxs, (emitPending_op rfl hop hemit).trans ?_⟩
  simp

/-- A function name and its bracket are read together. -/
theorem run_name_bracket {s : String} {f : Function} {sp₁ : Span} (hf : Function.find? s = some f)
    (h : run source false ⟨out.toArray, S⟩ ((.name s, sp) :: (.openRound, sp₁) :: rest) = .ok code) :
    run source false
      ⟨out.toArray, { kind := .openRound } :: { kind := .op f.op, cast := f.cast } :: S⟩ rest
        = .ok code := by
  obtain ⟨step, hstep, h₁⟩ := run_value h
  replace hstep : nameValue _ source s (some .openRound) _ sp = .ok step := hstep
  rw [nameValue_of_ne (Function.head?_of_find? hf), hf] at hstep
  rcases functionCall_eq_ok hstep with ⟨-, rfl⟩ | ⟨hn, -⟩ | ⟨hn, -⟩
  · exact h₁
  · exact absurd rfl hn
  · exact absurd rfl hn

theorem compiles_call {s : String} {f : Function} {args : List Expr} (hc : c.Obey frame)
    (hf : Function.find? s = some f) (hiif : f.op ≠ .iif) (h : Listed c source code args t)
    (sp sp₁ sp₂ : Span) :
    Compiles c source code (.call f args) head f.op.priority
      ((.name s, sp) :: (.openRound, sp₁) :: (t ++ [(.closeRound, sp₂)])) := by
  intro out S S₁ rest ts ho ha hfollows hrun
  have hfun := Function.isFunction_of_find? hf
  rw [List.cons_append, List.cons_append, List.append_assoc, List.singleton_append] at ho
  obtain ⟨rfl, rfl⟩ := ho.eq_of_ne nofun
  replace hrun := run_name_bracket hf hrun
  cases args with
  | nil =>
    cases h with
    | nil =>
      obtain ⟨step, hstep, h₁⟩ := run_value hrun
      replace hstep : emptyRound ⟨out.toArray,
        { kind := .openRound } :: { kind := .op f.op, cast := f.cast } :: S₁⟩ sp₂ = .ok step := hstep
      obtain ⟨b, S', hstack, -, ⟨hnot, -⟩ | ⟨f', S₂, op, rfl, -, -, -, rfl⟩⟩ := emptyRound_eq_ok hstep
      · cases hstack
        cases hfun.symm.trans hnot
      · cases hstack
        have hnil : Machine.ComputesAll c out.length [] ([] : List Expr).length
            (Expr.evalAll c []) := .nil
        refine Reads.of_call hc hfun hiif hnil ?_
        rw [List.append_nil]
        exact h₁
  | cons e es =>
    obtain ⟨-, piece, hxs, h₁⟩ := h.call rfl hfun hiif hrun
    refine Reads.of_call hc hfun hiif hxs ?_
    simpa using h₁

/-! ## The choice -/

/-- The comma behind a condition leaves the jump to the second value. -/
theorem run_comma_test {f : Pending} (hf : f.kind = .op .iif) (hargs : f.args = 0)
    (h : run source true ⟨out.toArray, { kind := .openRound } :: f :: S⟩ ((.comma, sp) :: rest)
      = .ok code) :
    run source false ⟨(out ++ [({ op := .jumpUnless 0 } : Instruction)]).toArray,
      { kind := .openRound } :: { f with args := 1, patch := some out.length } :: S⟩ rest
        = .ok code := by
  obtain ⟨kind, args, literal, patch, cast⟩ := f
  cases hf
  cases hargs
  obtain ⟨c', hc, h₁⟩ := run_comma rfl h
  obtain ⟨out', hemit, h₂⟩ := bind_eq_ok hc
  cases h₂
  rw [emit_eq_ok hemit] at h₁
  exact h₁

/-- The comma behind the first value leaves the jump over the second one, and gives the jump behind
the condition its target. -/
theorem run_comma_value {f : Pending} {before after first : List Instruction}
    (hf : f.kind = .op .iif) (hargs : f.args = 1) (hpatch : f.patch = some before.length)
    (hfirst : first = before ++ { op := .jumpUnless (before.length + 1 + after.length + 1) } :: after)
    (h : run source true
      ⟨(before ++ ({ op := .jumpUnless 0 } : Instruction) :: after).toArray,
        { kind := .openRound } :: f :: S⟩
      ((.comma, sp) :: rest) = .ok code) :
    run source false
      ⟨(first ++ [({ op := .jump 0 } : Instruction)]).toArray,
        { kind := .openRound } :: { f with args := 2, patch := some first.length } :: S⟩ rest
        = .ok code := by
  obtain ⟨kind, args, literal, patch, cast⟩ := f
  cases hf
  cases hargs
  cases hpatch
  obtain ⟨c', hc, h₁⟩ := run_comma rfl h
  obtain ⟨out', hemit, h₂⟩ := bind_eq_ok hc
  cases h₂
  rw [emit_eq_ok hemit, List.append_assoc, List.cons_append, patch_some] at h₁
  rw [hfirst]
  simpa [retarget, Nat.add_assoc, Nat.add_comm, Nat.add_left_comm] using h₁

/-- Emitting a choice gives the jump behind the first value its target. -/
theorem emitPending_iif {p : Pending} {before after : List Instruction} {out'' : Code}
    (hk : p.kind = .op .iif) (hpatch : p.patch = some before.length)
    (h : emitPending (before ++ ({ op := .jump 0 } : Instruction) :: after).toArray p sp = .ok out'') :
    out'' = (before ++ ({ op := .jump (before.length + 1 + after.length) } : Instruction) :: after
      ++ castPiece p.cast).toArray := by
  obtain ⟨op', out₁, hk', h₁, h₂⟩ := emitPending_eq_ok h
  rw [hk] at hk'
  cases hk'
  cases h₁
  refine h₂ ?_
  rw [hpatch, patch_some]
  rfl

theorem compiles_iif {s : String} {f : Function} {test yes no : Expr}
    (hf : Function.find? s = some f) (hop : f.op = .iif)
    (h : Listed c source code [test, yes, no] t) (sp sp₁ sp₂ : Span) :
    Compiles c source code (.iif f.cast test yes no) head Op.iif.priority
      ((.name s, sp) :: (.openRound, sp₁) :: (t ++ [(.closeRound, sp₂)])) := by
  intro out S S₁ rest ts ho ha hfollows hrun
  rw [List.cons_append, List.cons_append, List.append_assoc, List.singleton_append] at ho
  obtain ⟨rfl, rfl⟩ := ho.eq_of_ne nofun
  replace hrun := run_name_bracket hf hrun
  rw [hop] at hrun
  cases h with
  | more sp₃ htest h =>
    cases h with
    | more sp₄ hyes h =>
      cases h with
      | one hno =>
        simp only [List.append_assoc, List.cons_append] at hrun
        obtain ⟨p₁, hx, h₁⟩ := htest.item rfl (.comma sp₃ _) hrun
        obtain ⟨p₂, hy, h₂⟩ := hyes.item rfl (.comma sp₄ _) (run_comma_test rfl rfl h₁)
        rw [List.append_assoc (out ++ p₁), List.singleton_append] at h₂
        obtain ⟨p₃, hz, h₃⟩ :=
          hno.item rfl (.close (.round sp₂ rest)) (run_comma_value rfl rfl rfl rfl h₂)
        obtain ⟨-, h₄⟩ := run_close_call rfl rfl h₃
        rw [List.append_assoc (_ ++ _ :: p₂), List.singleton_append] at h₄
        refine .of_waiting rfl (by decide) (Nat.le_refl _) h₄ fun hemit => ?_
        -- the numbers of the first instructions of the two values
        simp only [List.length_append, List.length_cons, List.length_nil, Nat.zero_add,
          ← Nat.add_assoc] at hy hz
        rw [Nat.add_right_comm _ p₂.length 1] at hz
        have hchoice := computes_cast (hx.iif hy hz rfl rfl) f.cast
        rw [← Expr.eval_iif] at hchoice
        refine ⟨_, hchoice, (emitPending_iif rfl rfl hemit).trans ?_⟩
        have hend : ∀ i : Instruction, (out ++ p₁ ++ i :: p₂).length + 1 + p₃.length
            = out.length + p₁.length + 1 + p₂.length + 1 + p₃.length := by
          intro i
          simp only [List.length_append, List.length_cons]
          omega
        rw [hend, List.length_append]
        simp

/-! ## Operators before their operand -/

/-- A minus sign before a number is part of it. -/
theorem computes_negative {base : Nat} (n : Number) :
    Machine.Computes c base [{ op := .push, literal := some (.number (-n)) }]
      (Expr.eval c (.neg (.number n))) := by
  have heval : Expr.eval c (.neg (.number n)) = pure (.number (-n)) := by
    rw [Expr.eval, Expr.eval]
    rfl
  rw [heval]
  exact Machine.computes_push _

theorem compiles_neg {head' tail' : Nat} (hc : c.Obey frame)
    (h : Compiles c source code e head' tail' t) (hs : Spells (.expr e head' tail') t)
    (hh : Op.neg.priority < head') (sp : Span) :
    Compiles c source code (.neg e) head (min Op.neg.priority tail') ((.minus, sp) :: t) := by
  intro out S S₁ rest ts ho ha hfollows hrun
  rw [List.cons_append] at ho
  obtain ⟨rfl, rfl⟩ := ho.eq_of_ne nofun
  obtain ⟨step, hstep, h₁⟩ := run_value hrun
  rw [opening_eq_ok hstep] at h₁
  obtain ⟨token, sp', t', rfl, -⟩ := hs.begins nofun
  by_cases hn : ∃ n, token = .number n
  · obtain ⟨n, rfl⟩ := hn
    obtain ⟨rfl, rfl⟩ := hs.eq_number hh
    obtain ⟨step', hstep', h₂⟩ := run_value h₁
    replace hstep' : value ⟨out.toArray, S₁⟩ { op := .push, literal := some (.number (-n)) } sp'
      = .ok step' := hstep'
    exact .of_value (computes_negative n) hstep' h₂
  · have hopens : Opens ({ kind := .op .neg, args := 1 } :: S₁) ((token, sp') :: t' ++ rest)
        ({ kind := .op .neg, args := 1 } :: S₁) ((token, sp') :: t' ++ rest) := by
      refine .plain nofun ?_ fun _ => rfl
      rintro n ⟨⟩
      exact absurd ⟨n, rfl⟩ hn
    have hadmits : Admits ({ kind := .op .neg, args := 1 } :: S₁) head' := by
      rintro p ⟨⟩
      exact .inr hh
    refine (h hopens hadmits hfollows h₁).operand rfl (by decide) (Nat.min_le_left _ _)
      (Nat.min_le_right _ _) fun {sp piece out''} hx hemit => ?_
    refine ⟨piece ++ [{ op := .neg, argCount := 1 }], ?_, ?_⟩
    · have hop := (computesAll_one hx).operate hc (i := { op := .neg, argCount := 1 }) rfl rfl
      rw [Expr.eval]
      simpa [Expr.evalAll] using hop
    · rw [emitPending_op rfl (by decide) hemit]
      simp [castPiece]

theorem compiles_word {s : String} {f : Function} {head' tail' : Nat} (hc : c.Obey frame)
    (hf : Function.find? s = some f) (hw : f.op.isWordOperator = true)
    (h : Compiles c source code e head' tail' t) (hs : Spells (.expr e head' tail') t)
    (hh : f.op.priority < head') (sp : Span) :
    Compiles c source code (.call f [e]) head (min f.op.priority tail') ((.name s, sp) :: t) := by
  intro out S S₁ rest ts ho ha hfollows hrun
  have hfun := Op.isFunction_of_isWordOperator hw
  rw [List.cons_append] at ho
  obtain ⟨rfl, rfl⟩ := ho.eq_of_ne nofun
  have hadmits : Admits ({ kind := .op f.op, args := 1, cast := f.cast } :: S₁) head' := by
    rintro p ⟨⟩
    exact .inr hh
  have hreads : Reads c source code e tail' out
      ({ kind := .op f.op, args := 1, cast := f.cast } :: S₁) rest := by
    obtain ⟨token, sp', t', rfl, -⟩ := hs.begins nofun
    by_cases hround : token = .openRound
    · subst hround
      exact h (.word hw) hadmits hfollows (run_name_bracket hf hrun)
    · obtain ⟨step, hstep, h₁⟩ := run_value hrun
      replace hstep : nameValue ⟨out.toArray, S₁⟩ source s (some token) _ sp = .ok step := hstep
      rw [nameValue_of_ne (Function.head?_of_find? hf), hf] at hstep
      rcases functionCall_eq_ok hstep with ⟨hn, -⟩ | ⟨-, hmin, -⟩ | ⟨-, -, rfl⟩
      · exact absurd (Option.some.inj hn) hround
      · exact absurd hmin (by rw [Op.minArgs_of_isWordOperator hw]; decide)
      · refine h (.plain ?_ ?_ ?_) hadmits hfollows h₁
        · exact fun hk => Op.ne_of_isFunction hfun rfl (Pending.Kind.op.inj hk)
        · exact fun n _ hk => Op.ne_of_isFunction hfun rfl (Pending.Kind.op.inj hk)
        · exact fun hk => absurd (Option.some.inj hk) hround
  have hop : f.op ≠ .and ∧ f.op ≠ .or ∧ f.op ≠ .iif := by
    refine ⟨Op.ne_of_isFunction hfun rfl, Op.ne_of_isFunction hfun rfl, ?_⟩
    intro hiif
    rw [hiif] at hw
    cases hw
  refine hreads.operand rfl (Op.priority_ne_barrier_of_isFunction hfun) (Nat.min_le_left _ _)
    (Nat.min_le_right _ _) fun hx hemit => ?_
  refine ⟨_, computes_call hc hfun (computesAll_one hx), (emitPending_op rfl hop hemit).trans ?_⟩
  simp

/-! ## Operators between their operands -/

/-- The operators of the left operand are emitted when the operator is read. -/
theorem Reads.binary {token : Token} {op : Op}
    (h : Reads c source code e tail out S ((token, sp) :: rest))
    (hop : token.operator? = some op) (ht : op.priority ≤ tail) (hS : Admits S op.priority) :
    ∃ piece c', Machine.Computes c out.length piece (e.eval c) ∧
      Compiler.binary ⟨(out ++ piece).toArray, S⟩ op sp = .ok c' ∧
      run source false c' rest = .ok code := by
  obtain ⟨out', P, hrun, hpiece⟩ := h
  obtain ⟨c₁, c₂, hr, hb, h₁⟩ := run_binary hop hrun
  obtain ⟨piece, hx, hr'⟩ := hpiece ht hr
  rw [reduce_of_admits hS] at hr'
  cases hr'
  exact ⟨piece, c₂, hx, hb, h₁⟩

/-- The right operand is read above its operator. -/
theorem Compiles.right {p : Pending} {op : Op} (h : Compiles c source code e head tail t)
    (hk : p.kind = .op op) (hop : op ∈ Op.binaries) (hh : op.priority < head) (hfollows : Follows rest)
    (hrun : run source false ⟨out.toArray, p :: S⟩ (t ++ rest) = .ok code) :
    Reads c source code e tail out (p :: S) rest := by
  have hall : ∀ op ∈ Op.binaries, op ≠ .var ∧ op ≠ .neg ∧ op.isFunction = false := by decide
  obtain ⟨hvar, hneg, hfun⟩ := hall op hop
  have htop : top (p :: S) = .op op := hk
  refine h (.plain ?_ ?_ ?_) ?_ hfollows hrun
  · exact fun hk' => hvar (Pending.Kind.op.inj (htop.symm.trans hk'))
  · exact fun n _ hk' => hneg (Pending.Kind.op.inj (htop.symm.trans hk'))
  · intro _
    rw [htop]
    exact hfun
  · rintro q ⟨⟩
    refine .inr ?_
    unfold Pending.priority
    rw [hk]
    exact hh

/-- Emitting `AND` or `OR` gives its jump the target. -/
theorem emitPending_logic {p : Pending} {op : Op} {jump : Nat → Op} {before after : List Instruction}
    {out'' : Code} (hl : Logic op jump) (hk : p.kind = .op op) (hpatch : p.patch = some before.length)
    (hcast : p.cast = none)
    (h : emitPending (before ++ ({ op := jump 0 } : Instruction) :: after).toArray p sp = .ok out'') :
    out'' = (before ++ ({ op := jump (before.length + 1 + (after.length + 1)) } : Instruction) ::
      (after ++ [{ op := .truth, argCount := 1 }])).toArray := by
  obtain ⟨op', out₁, hk', h₁, h₂⟩ := emitPending_eq_ok h
  rw [hk] at hk'
  cases hk'
  rw [h₂ (l := before ++ _ :: _) (Eq.trans (emitOp_logic h₁ ?_) ?_), hcast, castPiece, List.append_nil]
  · cases hl with
    | and => exact .inl rfl
    | or => exact .inr rfl
  · rw [hpatch, List.append_assoc, List.cons_append, patch_some, List.length_append]
    cases hl <;> rfl

/-- `AND` and `OR` with their operands. -/
theorem Machine.Computes.logic {l r : Expr} {op : Op} {jump : Nat → Op} {base target : Nat}
    {left right : List Instruction} (hl : Logic op jump)
    (hx : Machine.Computes c base left (l.eval c))
    (hy : Machine.Computes c (base + left.length + 1) right (r.eval c))
    (ht : target = base + left.length + 1 + (right.length + 1)) :
    Machine.Computes c base
      (left ++ { op := jump target } :: (right ++ [{ op := .truth, argCount := 1 }]))
      (Expr.eval c (.binary op l r)) := by
  cases hl with
  | and => rw [Expr.eval]; exact hx.and hy ht
  | or => rw [Expr.eval]; exact hx.or hy ht

theorem compiles_binary {l r : Expr} {op : Op} {token : Token} {head tail head' tail' : Nat}
    {t t' : List (Token × Span)} (hc : c.Obey frame) (hop : token.operator? = some op)
    (h : Compiles c source code l head tail t) (hhead : tail ≤ head) (ht : op.priority ≤ tail)
    (h' : Compiles c source code r head' tail' t') (hh : op.priority < head') (sp : Span) :
    Compiles c source code (.binary op l r) op.priority (min op.priority tail')
      (t ++ (token, sp) :: t') := by
  have hmem := Token.operator?_mem hop
  have hprio : op.priority ≠ Op.barrier := by
    have hall : ∀ op ∈ Op.binaries, op.priority ≠ Op.barrier := by decide
    exact hall op hmem
  intro out S S₁ rest ts ho ha hfollows hrun
  rw [List.append_assoc, List.cons_append] at ho
  have hleft := h ho (ha.mono (Nat.le_trans ht hhead)) (follows_of_operator? hop) hrun
  obtain ⟨p₁, c₂, hx, hb, h₁⟩ := hleft.binary hop ht ha
  rcases binary_cases hb with ⟨jump, hl, rfl⟩ | ⟨hand, hor, rfl⟩
  · have hright := h'.right rfl hmem hh hfollows h₁
    refine hright.operand rfl hprio (Nat.min_le_left _ _) (Nat.min_le_right _ _)
      fun {sp p₂ out''} hy hemit => ?_
    rw [List.append_assoc (out ++ p₁), List.singleton_append] at hemit
    rw [List.length_append, List.length_append, List.length_singleton] at hy
    refine ⟨_, Machine.Computes.logic hl hx hy rfl, (emitPending_logic hl rfl rfl rfl hemit).trans ?_⟩
    rw [List.length_append, List.append_assoc]
  · have hall : ∀ op ∈ Op.binaries, op ≠ .iif ∧ op.info.minArgs = 2 ∧ Machine.operates op = true := by
      decide
    obtain ⟨hiif, hmin, hoperates⟩ := hall op hmem
    have hright := h'.right rfl hmem hh hfollows h₁
    refine hright.operand rfl hprio (Nat.min_le_left _ _) (Nat.min_le_right _ _)
      fun {sp p₂ out''} hy hemit => ?_
    rw [List.length_append] at hy
    have hall := (Machine.ComputesAll.cons hx (computesAll_one hy)).operate hc
      (i := ⟨op, none, op.info.minArgs⟩) hoperates hmin
    refine ⟨p₁ ++ p₂ ++ [⟨op, none, op.info.minArgs⟩], ?_, ?_⟩
    · rw [Expr.eval]
      · simpa [Expr.evalAll] using hall
      · exact hand
      · exact hor
    · rw [emitPending_op rfl ⟨hand, hor, hiif⟩ hemit]
      simp [castPiece]

/-! ## All spellings -/

/-- The compiler reads a phrase. -/
def CompilesPhrase (c : Calls) (source : List Char) (code : Code) : Phrase → List (Token × Span) → Prop
  | .expr e head tail, t => Compiles c source code e head tail t
  | .items es, t => Listed c source code es t
  | .whole e, t => Whole c source code e t

/-- Every spelling is read as what it spells. -/
theorem compiles {ph : Phrase} (hc : c.Obey frame) (h : Spells ph t) :
    CompilesPhrase c source code ph t := by
  induction h with
  | number n sp => exact compiles_number n sp
  | text s sp => exact compiles_text hc s sp
  | code s sp => exact compiles_code s sp
  | var sp hs hf => exact compiles_var hs hf sp
  | item sp sp₁ sp₂ hs hf h ih =>
    obtain ⟨token, sp', t', rfl, hb⟩ := h.begins nofun
    refine compiles_item hc hs hf ih ?_ nofun sp sp₁ sp₂
    rintro ⟨⟩
    cases hb
  | neg sp h hh ih => exact compiles_neg hc ih h hh sp
  | word sp hf hw h hh ih => exact compiles_word hc hf hw ih h hh sp
  | binary sp hop h ht h' hh ih ih' => exact compiles_binary hc hop ih h.tail_le_head ht ih' hh sp
  | call sp sp₁ sp₂ hf hiif h hmin hmax ih => exact compiles_call hc hf hiif ih sp sp₁ sp₂
  | iif sp sp₁ sp₂ hf hop h ih => exact compiles_iif hf hop ih sp sp₁ sp₂
  | group sp sp₁ h ih => exact compiles_group hc ih sp sp₁
  | list sp sp₁ h ih => exact compiles_list hc ih sp sp₁
  | none => exact .nil
  | one h ih => exact .one ih
  | more sp h h' ih ih' => exact .more sp ih ih'
  | whole h ih => exact .inl (.one ih)
  | @bare es t h hlen ih =>
    match es, hlen with
    | e₁ :: e₂ :: es, _ => exact .inr ⟨e₁, e₂, es, ih, rfl⟩

end Compiler

/-- **Compiled expressions mean what their trees mean.** If the tokens of a text spell a tree and
the text compiles, then running the code ends, in every machine, with the same value or error and in
the same machine as the value of the tree does. -/
theorem evaluate_compile (n : Nat) {source : List Char} {tokens : List (Token × Span)} {e : Expr}
    {code : Code} (ht : Token.tokenize source = .ok tokens) (hs : Spells (.whole e) tokens)
    (hc : compile source = .ok code) :
    Machine.evaluate (Calls.ofFuel n) code = e.eval (Calls.ofFuel n) := by
  unfold compile at hc
  rw [ht] at hc
  replace hc : Compiler.run source false ⟨([] : List Instruction).toArray, [{ kind := .start }]⟩
      (tokens ++ []) = .ok code := by
    rw [List.append_nil]
    exact hc
  have hwhole : Compiler.Whole (Calls.ofFuel n) source code e tokens :=
    Compiler.compiles (Calls.ofFuel_frame n) hs
  obtain ⟨piece, hx, hrun⟩ := hwhole.fill (Calls.ofFuel_frame n) .start .finish hc
  -- nothing waits any more, so the piece is the whole code
  have hcode : piece.toArray = code := by
    obtain ⟨c₁, c₂, hr, hclose, -, rfl⟩ := Compiler.run_nil_iff.mp hrun
    cases hr
    cases hclose
    rfl
  rw [← hcode]
  funext m
  have hm := hx.run [] [] (Nat.le_refl 0) (Eq.refl m.moves)
  rw [List.append_nil] at hm
  exact hm.trans (congrFun (bind_pure (e.eval (Calls.ofFuel n))) m)

/-- A text with a sign, a bracket, two priorities and an operator spelled as a word. -/
theorem evaluate_compile_sample :
    ∃ code, compile "-2 * (x + 3) AND NO y = 4".toList = .ok code ∧
      Machine.evaluate (Calls.ofFuel 0) code
        = Expr.eval (Calls.ofFuel 0)
          (.binary .and
            (.binary .mul (.neg (.number 2)) (.binary .add (.var "x") (.number 3)))
            (.call ⟨"NO", .not, none⟩ [.binary .eq (.var "y") (.number 4)])) := by
  obtain ⟨code, hcode⟩ : ∃ code, (compile "-2 * (x + 3) AND NO y = 4".toList).toOption = some code :=
    Option.isSome_iff_exists.mp (by decide +kernel)
  have hc := eq_ok_of_toOption hcode
  have hvar : ∀ s ∈ ["x", "y"], s.toList.head? ≠ some '@' ∧ Function.find? s = none := by
    decide +kernel
  have hx := hvar "x" (by decide)
  have hy := hvar "y" (by decide)
  have hsum := Spells.binary ⟨8, 9⟩ (show Token.plus.operator? = some .add from rfl)
    (.var ⟨6, 7⟩ hx.1 hx.2) (by decide) (.number 3 ⟨10, 11⟩) (by decide)
  have hproduct := Spells.binary ⟨3, 4⟩ (show Token.star.operator? = some .mul from rfl)
    (.neg ⟨0, 1⟩ (.number 2 ⟨1, 2⟩) (by decide)) (by decide)
    (.group ⟨5, 6⟩ ⟨11, 12⟩ (.whole hsum)) (by decide)
  have hequal := Spells.binary ⟨22, 23⟩ (show Token.equal.operator? = some .eq from rfl)
    (.var ⟨20, 21⟩ hy.1 hy.2) (by decide) (.number 4 ⟨24, 25⟩) (by decide)
  have hno := Spells.word ⟨17, 19⟩
    (show Function.find? "NO" = some ⟨"NO", .not, none⟩ by decide +kernel)
    rfl hequal (by decide)
  have hand := Spells.binary ⟨13, 16⟩ (show (Token.name "AND").operator? = some .and by decide +kernel)
    hproduct (by decide) hno (by decide)
  exact ⟨code, hc, evaluate_compile 0 (eq_ok_of_toOption (by decide +kernel)) (.whole hand) hc⟩

end QuestScript
