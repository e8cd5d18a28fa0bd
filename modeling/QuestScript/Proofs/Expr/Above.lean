import QuestScript.Proofs.Expr.Scan

/-!
# Compiling above different grounds

The tokens of an expression are compiled in the same way whether the expression is a text of its own or
stands in the brackets of an index. Only what waits below is different, and no step looks below what
the expression itself has put on the stack, as long as no bracket is closed that it has not opened.

`Tracks` compares two computations: both go on with related results, or both fail. The second one has
more below it, so it may also fail alone, at one of the limits. `operatorStep_tracks` and
`valueStep_tracks` say so for one token.
-/

namespace QuestScript

/-- Whether a text has been rejected because its expression is too large. -/
def SourceError.isLimit (e : SourceError) : Bool :=
  e.error.kind == .stackOverflow || e.error.kind == .tooManyItems

/-- The bracket that closes what waits, if that is an open bracket. -/
def Pending.closer? (p : Pending) : Option Char :=
  match p.kind with
  | .openRound => some ')'
  | .openSquare => some ']'
  | _ => none

/-- Whether a token is an operator spelled as a word, which needs a separator after it; `ready` says that
it stands between two values and not in front of one. -/
def Token.needsSpace (ready : Bool) : Token → Bool
  | .name s => if ready then (Function.wordOperator? s).isSome else (Function.find? s).any (·.op.isWordOperator)
  | _ => false

namespace Compiler

/-! ## Computations that go together -/

/-- The second computation succeeds where the first one does, unless it runs into a limit, and fails
where the first one does. -/
inductive Tracks {α β : Type} (R : α → β → Prop) : Except SourceError α → Except SourceError β → Prop
  | ok {a : α} {b : β} (h : R a b) : Tracks R (.ok a) (.ok b)
  | error (e e' : SourceError) : Tracks R (.error e) (.error e')
  | limit (x : Except SourceError α) {e : SourceError} (h : e.isLimit = true) : Tracks R x (.error e)

section

variable {α β γ δ : Type} {R : α → β → Prop} {Q : γ → δ → Prop}

/-- What goes on from related results has to go together only for those that the first computation can
have. -/
theorem Tracks.bind {x : Except SourceError α} {y : Except SourceError β} {f : α → Except SourceError γ}
    {g : β → Except SourceError δ} (h : Tracks R x y) (hf : ∀ a b, x = .ok a → R a b → Tracks Q (f a) (g b)) :
    Tracks Q (x >>= f) (y >>= g) := by
  cases h with
  | ok h => exact hf _ _ rfl h
  | error e e' => exact .error e e'
  | limit x h => exact .limit _ h

/-- Where the first computation fails, so does the second one. -/
theorem Tracks.of_error {e : SourceError} {y : Except SourceError β} (h : Tracks R (.error e) y) :
    ∃ e', y = .error e' := by
  cases h with
  | error e e' => exact ⟨e', rfl⟩
  | limit x h => exact ⟨_, rfl⟩

/-- Where the first computation succeeds, so does the second one, if it does not run into a limit. -/
theorem Tracks.of_ok {a : α} {y : Except SourceError β} (h : Tracks R (.ok a) y)
    (hy : ∀ e, y = .error e → e.isLimit = false) : ∃ b, y = .ok b ∧ R a b := by
  cases h with
  | ok h => exact ⟨_, rfl, h⟩
  | limit x h =>
    rw [hy _ rfl] at h
    cases h

end

variable {sp sp' : Span} {out : Code} {S : List Pending} {p : Pending}

/-! ## Instructions -/

/-- What is emitted depends on the code so far; the span is only for the error. -/
theorem emit_tracks (i : Instruction) : Tracks Eq (emit out i sp) (emit out i sp') := by
  unfold emit
  split
  · exact .error _ _
  · exact .ok rfl

theorem emitOp_tracks (op : Op) : Tracks Eq (emitOp out p op sp) (emitOp out p op sp') := by
  unfold emitOp
  split
  · exact (emit_tracks _).bind fun _ _ _ h => .ok (by rw [h])
  · exact (emit_tracks _).bind fun _ _ _ h => .ok (by rw [h])
  · exact .ok rfl
  · exact emit_tracks _

theorem emitPending_tracks : Tracks Eq (emitPending out p sp) (emitPending out p sp') := by
  unfold emitPending
  split
  · refine (emitOp_tracks _).bind fun out₁ out₂ _ h => ?_
    cases h
    split
    · exact emit_tracks _
    · exact .ok rfl
  · exact .error _ _

/-! ## Open brackets -/

/-- The brackets that are still to be closed, the innermost first. -/
def brackets (S : List Pending) : List Char := S.filterMap Pending.closer?

theorem brackets_append (S A : List Pending) : brackets (S ++ A) = brackets S ++ brackets A :=
  List.filterMap_append

/-- An operator leaves the brackets as they are. -/
theorem brackets_cons_of_op {o : Op} (h : p.kind = .op o) : brackets (p :: S) = brackets S := by
  simp [brackets, Pending.closer?, h]

/-- Operators that are emitted are no brackets. -/
theorem reduce_brackets {r : Nat} {c : Compiler} (h : reduce r sp S out = .ok c) :
    brackets c.stack = brackets S := by
  induction S generalizing out with
  | nil =>
    cases h
    rfl
  | cons p S ih =>
    rw [reduce] at h
    split at h
    · cases h
      rfl
    · obtain ⟨out₁, he, h₁⟩ := bind_eq_ok h
      obtain ⟨o, -, hk, -⟩ := emitPending_eq_ok he
      rw [ih h₁, brackets_cons_of_op hk]

/-- A tuple that ends takes its operator off the stack and no bracket. -/
theorem closeTuple_brackets {c c' : Compiler} (h : closeTuple c sp = .ok c') :
    brackets c'.stack = brackets c.stack := by
  obtain ⟨out, S⟩ := c
  cases S with
  | nil =>
    cases h
    rfl
  | cons p S =>
    simp only [closeTuple] at h
    split at h
    · next hp =>
      split at h
      · cases h
      · obtain ⟨out₁, -, h₁⟩ := bind_eq_ok h
        cases h₁
        exact (brackets_cons_of_op hp).symm
    · cases h
      rfl

/-! ## Grounds -/

/-- What waits below an expression: the start, or the bracket of an index. -/
def Ground (A : List Pending) : Prop := top A = .start ∨ top A = .openSquare

/-- The same expression above one ground and above another one. -/
inductive Above (A B : List Pending) : Compiler → Compiler → Prop
  | mk (out : Code) (S : List Pending) : Above A B ⟨out, S ++ A⟩ ⟨out, S ++ B⟩

/-- The same, after a step in value position. -/
structure AboveStep (A B : List Pending) (s s' : Step) : Prop where
  operatorNext : s.operatorNext = s'.operatorNext
  skip : s.skip = s'.skip
  compiler : Above A B s.compiler s'.compiler

variable {A B : List Pending}

/-- A step that looks at the ground finds no operator there, so it does not go on with one. -/
theorem Ground.top_ne_op (h : Ground A) (o : Op) : top A ≠ .op o := by
  rcases h with h | h
  all_goals
    rw [h]
    exact nofun

theorem Ground.top_ne_openRound (h : Ground A) : top A ≠ .openRound := by
  rcases h with h | h
  all_goals
    rw [h]
    exact nofun

/-- The ground admits every operator above it. -/
theorem Ground.priority_eq (h : Ground (p :: A)) : p.priority = Op.barrier := by
  replace h : p.kind = .start ∨ p.kind = .openSquare := h
  unfold Pending.priority
  rcases h with h | h
  all_goals rw [h]

/-- Something new waits above both grounds. The larger stack may be full before the other one. -/
theorem push_tracks (hle : A.length ≤ B.length) :
    Tracks (Above A B) (push ⟨out, S ++ A⟩ p sp) (push ⟨out, S ++ B⟩ p sp') := by
  unfold push
  by_cases hB : maxPending ≤ (S ++ B).length
  · rw [if_pos hB]
    exact .limit _ rfl
  · have hA : ¬ maxPending ≤ (S ++ A).length := by
      simp only [List.length_append] at hB ⊢
      omega
    rw [if_neg hA, if_neg hB]
    exact .ok (.mk out (p :: S))

/-- The same operators are emitted, since both reductions stop at the ground if nothing stops them before. -/
theorem reduce_tracks (hA : Ground A) (hB : Ground B) (r : Nat) :
    Tracks (Above A B) (reduce r sp (S ++ A) out) (reduce r sp' (S ++ B) out) := by
  have hstop : ∀ {C : List Pending} {sp : Span} {out : Code}, Ground C →
      reduce r sp C out = .ok ⟨out, C⟩ := by
    intro C sp out hC
    exact reduce_of_admits fun p hp => by
      cases C with
      | nil => cases hp
      | cons q C =>
        cases hp
        exact .inl hC.priority_eq
  induction S generalizing out with
  | nil =>
    rw [List.nil_append, List.nil_append, hstop hA, hstop hB]
    exact .ok (.mk out [])
  | cons p S ih =>
    rw [List.cons_append, List.cons_append, reduce, reduce]
    split
    · exact .ok (.mk out (p :: S))
    · refine emitPending_tracks.bind fun out₁ out₂ _ h => ?_
      cases h
      exact ih

/-! ## Brackets and commas -/

theorem closeTuple_tracks (hA : Ground A) (hB : Ground B) :
    Tracks (Above A B) (closeTuple ⟨out, S ++ A⟩ sp) (closeTuple ⟨out, S ++ B⟩ sp') := by
  have hstop : ∀ {C : List Pending} {sp : Span}, Ground C → closeTuple ⟨out, C⟩ sp = .ok ⟨out, C⟩ := by
    intro C sp hC
    cases C with
    | nil => rfl
    | cons q C => exact if_neg (hC.top_ne_op _)
  cases S with
  | nil =>
    rw [List.nil_append, List.nil_append, hstop hA, hstop hB]
    exact .ok (.mk out [])
  | cons p S =>
    simp only [closeTuple, List.cons_append]
    split
    · split
      · exact .error _ _
      · refine (emit_tracks _).bind fun out₁ out₂ _ h => ?_
        cases h
        exact .ok (.mk out₁ S)
    · exact .ok (.mk out (p :: S))

/-- Without its opening one on top a round bracket closes nothing. -/
theorem closeRound_of_ne {C : List Pending} (h : top C ≠ .openRound) :
    closeRound ⟨out, C⟩ sp = fail .missingBracket sp := by
  cases C with
  | nil => rfl
  | cons q C => exact if_pos h

/-- To close a bracket is to look at what waits below it as well, which may already be the ground. So the
cases are how many entries the expression itself has there. -/
theorem closeRound_tracks (hA : Ground A) (hB : Ground B) :
    Tracks (Above A B) (closeRound ⟨out, S ++ A⟩ sp) (closeRound ⟨out, S ++ B⟩ sp') := by
  match S with
  | [] =>
    rw [List.nil_append, List.nil_append, closeRound_of_ne hA.top_ne_openRound,
      closeRound_of_ne hB.top_ne_openRound]
    exact .error _ _
  | [b] =>
    have hstop : ∀ {C : List Pending} {sp : Span}, Ground C →
        closeRound ⟨out, b :: C⟩ sp = if b.kind ≠ .openRound then fail .missingBracket sp else .ok ⟨out, C⟩ := by
      intro C sp hC
      cases C with
      | nil => rfl
      | cons q C =>
        simp only [closeRound]
        split
        · rfl
        · split
          · next o ho => exact absurd ho (hC.top_ne_op o)
          · rfl
    rw [List.singleton_append, List.singleton_append, hstop hA, hstop hB]
    split
    · exact .error _ _
    · exact .ok (.mk out [])
  | b :: f :: S =>
    simp only [closeRound, List.cons_append]
    split
    · exact .error _ _
    split
    · split
      · split
        · exact .error _ _
        · exact .ok (.mk out (_ :: S))
      · exact .ok (.mk out (f :: S))
    · exact .ok (.mk out (f :: S))

/-- An index is counted for a variable of the expression, and the ground is no variable. -/
theorem countIndex_append (S : List Pending) (hA : Ground A) : countIndex (S ++ A) = countIndex S ++ A := by
  cases S with
  | cons q S =>
    simp only [countIndex, List.cons_append]
    split
    · rfl
    · rfl
  | nil =>
    cases A with
    | nil => rfl
    | cons q A => exact if_neg (hA.top_ne_op _)

/-- A closing square bracket is that of one that the expression has opened. -/
theorem closeSquare_tracks (hA : Ground A) (hB : Ground B) (hS : S ≠ []) :
    Tracks (Above A B) (closeSquare ⟨out, S ++ A⟩ sp) (closeSquare ⟨out, S ++ B⟩ sp') := by
  cases S with
  | nil => exact absurd rfl hS
  | cons b S =>
    simp only [closeSquare, List.cons_append, countIndex_append S hA, countIndex_append S hB]
    split
    · exact .error _ _
    · exact .ok (.mk out (countIndex S))

/-- A comma below a bracket that is no bracket of a call belongs to a tuple. -/
theorem comma_of_ne {C : List Pending} (h : ∀ b f rest o, C = b :: f :: rest → b.kind = .openRound → f.kind ≠ .op o) :
    comma ⟨out, C⟩ sp = tupleComma ⟨out, C⟩ sp := by
  match C with
  | [] => rfl
  | [b] => rfl
  | b :: f :: rest =>
    simp only [comma]
    split
    · next o hb hf => exact absurd hf (h b f rest o rfl hb)
    · rfl

/-- The first comma of a tuple opens it. -/
theorem tupleComma_of_ne {C : List Pending} (h : top C ≠ .op .tuple) :
    tupleComma ⟨out, C⟩ sp = push ⟨out, C⟩ { kind := .op .tuple, args := 1 } sp := by
  simp only [tupleComma, if_neg h, push]
  split
  · rfl
  · rfl

/-- A comma goes on with the tuple on top, and above the ground alone it opens one. -/
theorem tupleComma_tracks (hA : Ground A) (hB : Ground B) (hle : A.length ≤ B.length) :
    Tracks (Above A B) (tupleComma ⟨out, S ++ A⟩ sp) (tupleComma ⟨out, S ++ B⟩ sp') := by
  cases S with
  | nil =>
    rw [List.nil_append, List.nil_append, tupleComma_of_ne (hA.top_ne_op _), tupleComma_of_ne (hB.top_ne_op _)]
    exact push_tracks (S := []) hle
  | cons q S =>
    by_cases hq : q.kind = .op .tuple
    · have hcount : ∀ {C : List Pending} {sp : Span}, tupleComma ⟨out, q :: C⟩ sp
          = if maxArgs < q.args + 1 then fail .argumentCount sp
            else .ok ⟨out, { q with args := q.args + 1 } :: C⟩ := by
        intro C sp
        simp only [tupleComma, if_pos (show top (q :: C) = _ from hq)]
        rfl
      rw [List.cons_append, List.cons_append, hcount, hcount]
      split
      · exact .error _ _
      · exact .ok (.mk out (_ :: S))
    · rw [tupleComma_of_ne (C := q :: S ++ A) hq, tupleComma_of_ne (C := q :: S ++ B) hq]
      exact push_tracks hle

/-- A comma in a call concerns its bracket and its function, and both are above the ground. -/
theorem functionComma_tracks {b f : Pending} {o : Op} :
    Tracks (Above A B) (functionComma out b f o (S ++ A) sp) (functionComma out b f o (S ++ B) sp') := by
  unfold functionComma
  dsimp only
  split
  · exact .error _ _
  split
  · split
    all_goals
      refine (emit_tracks _).bind fun out₁ out₂ _ h => ?_
      cases h
      exact .ok (.mk _ (b :: _ :: S))
  · exact .ok (.mk out (b :: _ :: S))

/-- The bracket of a call and the function below it are looked at together, so there is a case for each of
them that is missing. -/
theorem comma_tracks (hA : Ground A) (hB : Ground B) (hle : A.length ≤ B.length) :
    Tracks (Above A B) (comma ⟨out, S ++ A⟩ sp) (comma ⟨out, S ++ B⟩ sp') := by
  match S with
  | [] =>
    have hstop : ∀ {C : List Pending} {sp : Span}, Ground C → comma ⟨out, C⟩ sp = tupleComma ⟨out, C⟩ sp := by
      intro C sp hC
      refine comma_of_ne ?_
      rintro b f rest o rfl hb
      exact absurd hb hC.top_ne_openRound
    rw [List.nil_append, List.nil_append, hstop hA, hstop hB]
    exact tupleComma_tracks (S := []) hA hB hle
  | [b] =>
    have hstop : ∀ {C : List Pending} {sp : Span}, Ground C →
        comma ⟨out, b :: C⟩ sp = tupleComma ⟨out, b :: C⟩ sp := by
      intro C sp hC
      refine comma_of_ne ?_
      rintro b' f rest o heq -
      cases heq
      exact hC.top_ne_op o
    rw [List.singleton_append, List.singleton_append, hstop hA, hstop hB]
    exact tupleComma_tracks (S := [b]) hA hB hle
  | b :: f :: S =>
    simp only [comma, List.cons_append]
    split
    · split
      · exact functionComma_tracks
      · exact tupleComma_tracks (S := b :: f :: S) hA hB hle
    · exact tupleComma_tracks (S := b :: f :: S) hA hB hle

theorem binary_tracks (hle : A.length ≤ B.length) (o : Op) :
    Tracks (Above A B) (binary ⟨out, S ++ A⟩ o sp) (binary ⟨out, S ++ B⟩ o sp') := by
  unfold binary
  dsimp only
  split
  · refine (emit_tracks _).bind fun out₁ out₂ _ h => ?_
    cases h
    exact push_tracks hle
  · refine (emit_tracks _).bind fun out₁ out₂ _ h => ?_
    cases h
    exact push_tracks hle
  · exact push_tracks hle

/-! ## Value position -/

theorem value_tracks (i : Instruction) :
    Tracks (AboveStep A B) (value ⟨out, S ++ A⟩ i sp) (value ⟨out, S ++ B⟩ i sp') := by
  refine (emit_tracks _).bind fun out₁ out₂ _ h => ?_
  cases h
  exact .ok ⟨rfl, rfl, .mk out₁ S⟩

theorem opening_tracks (hle : A.length ≤ B.length) :
    Tracks (AboveStep A B) (opening ⟨out, S ++ A⟩ p sp) (opening ⟨out, S ++ B⟩ p sp') :=
  (push_tracks hle).bind fun _ _ _ h => .ok ⟨rfl, rfl, h⟩

/-- A number takes the minus on top into itself, and the ground is no minus. -/
theorem numberValue_tracks (hA : Ground A) (hB : Ground B) (n : Number) :
    Tracks (AboveStep A B) (numberValue ⟨out, S ++ A⟩ n sp) (numberValue ⟨out, S ++ B⟩ n sp') := by
  have hstop : ∀ {C : List Pending} {sp : Span}, Ground C →
      numberValue ⟨out, C⟩ n sp = value ⟨out, C⟩ { op := .push, literal := some (.number n) } sp := by
    intro C sp hC
    cases C with
    | nil => rfl
    | cons q C => exact if_neg (hC.top_ne_op _)
  cases S with
  | nil =>
    rw [List.nil_append, List.nil_append, hstop hA, hstop hB]
    exact value_tracks (S := []) _
  | cons q S =>
    simp only [numberValue, List.cons_append]
    split
    · exact value_tracks _
    · exact value_tracks (S := q :: S) _

theorem missingValue_tracks {α β : Type} {R : α → β → Prop} {c d : Compiler} :
    Tracks R (missingValue c sp) (missingValue d sp') := .error _ _

/-- As for a bracket that closes something: the function of a call waits below the bracket. -/
theorem emptyRound_tracks (hA : Ground A) (hB : Ground B) :
    Tracks (AboveStep A B) (emptyRound ⟨out, S ++ A⟩ sp) (emptyRound ⟨out, S ++ B⟩ sp') := by
  match S with
  | [] =>
    have hstop : ∀ {C : List Pending} {sp : Span}, Ground C →
        emptyRound ⟨out, C⟩ sp = missingValue ⟨out, C⟩ sp := by
      intro C sp hC
      cases C with
      | nil => rfl
      | cons q C => exact if_pos hC.top_ne_openRound
    rw [List.nil_append, List.nil_append, hstop hA, hstop hB]
    exact missingValue_tracks
  | [b] =>
    have hstop : ∀ {C : List Pending} {sp : Span}, Ground C →
        emptyRound ⟨out, b :: C⟩ sp
          = if b.kind ≠ .openRound then missingValue ⟨out, b :: C⟩ sp else value ⟨out, C⟩ { op := .tuple } sp := by
      intro C sp hC
      cases C with
      | nil => rfl
      | cons q C =>
        simp only [emptyRound]
        split
        · rfl
        · split
          · next o ho => exact absurd ho (hC.top_ne_op o)
          · rfl
    rw [List.singleton_append, List.singleton_append, hstop hA, hstop hB]
    split
    · exact missingValue_tracks
    · exact value_tracks (S := []) _
  | b :: f :: S =>
    simp only [emptyRound, List.cons_append]
    split
    · exact missingValue_tracks
    split
    · split
      · split
        · exact .error _ _
        · exact .ok ⟨rfl, rfl, .mk out (f :: S)⟩
      · exact value_tracks (S := f :: S) _
    · exact value_tracks (S := f :: S) _

/-- A closing square bracket in value position is that of one that the expression has opened. -/
theorem emptySquare_tracks (hA : Ground A) (hB : Ground B) (hS : brackets S ≠ []) :
    Tracks (AboveStep A B) (emptySquare ⟨out, S ++ A⟩ sp) (emptySquare ⟨out, S ++ B⟩ sp') := by
  match S with
  | [] => exact absurd rfl hS
  | [p] =>
    have hp : p.kind ≠ .op .tuple := by
      intro hp
      refine hS ?_
      simp [brackets, Pending.closer?, hp]
    simp only [emptySquare, List.singleton_append, if_pos hp]
    exact .error _ _
  | p :: b :: S =>
    simp only [emptySquare, List.cons_append, countIndex_append S hA, countIndex_append S hB]
    split
    · exact .error _ _
    · refine (emit_tracks _).bind fun out₁ out₂ _ h => ?_
      cases h
      split
      · exact .error _ _
      · exact .ok ⟨rfl, rfl, .mk out₁ (countIndex S)⟩

/-! ## Words and names -/

/-- Whether a separator stands where a span ends. -/
def spaced (source : List Char) (sp : Span) : Bool := (Text.charAt? source sp.stop).any separates

/-- All that is read of the text is the character where the word ends. -/
theorem checkSpacing_eq (source : List Char) (sp : Span) :
    checkSpacing source sp = if spaced source sp then .ok () else fail .badSyntax sp := by
  unfold checkSpacing spaced
  cases Text.charAt? source sp.stop with
  | none => rfl
  | some c => rfl

variable {w r : List Char} {token : Token} {next after next' after' : Option Token}

theorem checkSpacing_tracks (h : spaced w sp = spaced r sp') :
    Tracks Eq (checkSpacing w sp) (checkSpacing r sp') := by
  rw [checkSpacing_eq, checkSpacing_eq, h]
  split
  · exact .ok rfl
  · exact .error _ _

/-- An operator is known by its token, and one that is a word needs its separator. -/
theorem incoming_tracks (hsp : token.needsSpace true = true → spaced w sp = spaced r sp') :
    Tracks Eq (incoming w sp token) (incoming r sp' token) := by
  cases token with
  | name s =>
    simp only [incoming]
    split
    · next op hop =>
      have hword : (Token.name s).needsSpace true = true := by simp [Token.needsSpace, hop]
      exact (checkSpacing_tracks (hsp hword)).bind fun _ _ _ _ => .ok rfl
    · exact .error _ _
  | number | text | code | openRound | openSquare | colon => exact .error _ _
  | _ => exact .ok rfl

/-- The tokens after a name mean the same for it: whether a bracket follows, and whether an index is
empty. -/
structure SameAhead (next after next' after' : Option Token) : Prop where
  round : next = some .openRound ↔ next' = some .openRound
  square : next = some .openSquare ↔ next' = some .openSquare
  empty : next = some .openSquare → (after = some .closeSquare ↔ after' = some .closeSquare)

theorem call_tracks (hle : A.length ≤ B.length) :
    Tracks (AboveStep A B) (call ⟨out, S ++ A⟩ p sp) (call ⟨out, S ++ B⟩ p sp') := by
  refine (push_tracks hle).bind fun c d _ h => ?_
  cases h
  refine (push_tracks hle).bind fun c d _ h => ?_
  exact .ok ⟨rfl, rfl, h⟩

/-- A call of a location depends on whether a round bracket comes next. -/
theorem locationCall_tracks (hle : A.length ≤ B.length) (location : List Char)
    (ha : SameAhead next after next' after') :
    Tracks (AboveStep A B) (locationCall ⟨out, S ++ A⟩ location next sp)
      (locationCall ⟨out, S ++ B⟩ location next' sp') := by
  unfold locationCall
  split
  · exact .error _ _
  · refine (emit_tracks _).bind fun out₁ out₂ _ h => ?_
    cases h
    dsimp only
    by_cases hn : next = some .openRound
    · rw [if_pos hn, if_pos (ha.round.mp hn)]
      exact call_tracks hle
    · rw [if_neg hn, if_neg fun hn' => hn (ha.round.mpr hn')]
      exact (push_tracks hle).bind fun _ _ _ h => .ok ⟨rfl, rfl, h⟩

/-- A function name, once the separator after it has been checked. -/
def functionOpen (c : Compiler) (s : String) (f : Function) (next : Option Token) (span : Span) :
    Except SourceError Step :=
  let p : Pending := { kind := .op f.op, cast := f.cast }
  if next = some .openRound then call c p span
  else
    match f.op.info.minArgs with
    | 0 => do return { operatorNext := true, compiler := ← c.push p span }
    | 1 => opening c { p with args := 1 } span
    | _ => failAt .missingBrackets s span

/-- The separator is checked before anything else is done for a function. -/
theorem functionCall_eq (c : Compiler) (source : List Char) (s : String) (f : Function) (next : Option Token)
    (sp : Span) :
    functionCall c source s f next sp
      = (if f.op.isWordOperator then checkSpacing source sp else .ok ()) >>= fun _ => functionOpen c s f next sp := by
  unfold functionCall
  cases f.op.isWordOperator with
  | true => rfl
  | false => rfl

/-- Without a bracket the arity decides: no argument, one that follows, or an error. -/
theorem functionOpen_tracks (hle : A.length ≤ B.length) (s : String) (f : Function)
    (ha : SameAhead next after next' after') :
    Tracks (AboveStep A B) (functionOpen ⟨out, S ++ A⟩ s f next sp) (functionOpen ⟨out, S ++ B⟩ s f next' sp') := by
  unfold functionOpen
  by_cases hn : next = some .openRound
  · rw [if_pos hn, if_pos (ha.round.mp hn)]
    exact call_tracks hle
  · rw [if_neg hn, if_neg fun hn' => hn (ha.round.mpr hn')]
    split
    · exact (push_tracks hle).bind fun _ _ _ h => .ok ⟨rfl, rfl, h⟩
    · exact opening_tracks hle
    · exact .error _ _

theorem functionCall_tracks (hle : A.length ≤ B.length) (s : String) {f : Function}
    (hsp : f.op.isWordOperator = true → spaced w sp = spaced r sp') (ha : SameAhead next after next' after') :
    Tracks (AboveStep A B) (functionCall ⟨out, S ++ A⟩ w s f next sp)
      (functionCall ⟨out, S ++ B⟩ r s f next' sp') := by
  rw [functionCall_eq, functionCall_eq]
  refine Tracks.bind (R := Eq) ?_ fun _ _ _ _ => functionOpen_tracks hle s f ha
  split
  · next hword => exact checkSpacing_tracks (hsp hword)
  · exact .ok rfl

/-- The next token says whether there is an index, and the one after it whether that index is empty. -/
theorem variableRead_tracks (hle : A.length ≤ B.length) (s : String) (ha : SameAhead next after next' after') :
    Tracks (AboveStep A B) (variableRead ⟨out, S ++ A⟩ s next after sp)
      (variableRead ⟨out, S ++ B⟩ s next' after' sp') := by
  unfold variableRead
  dsimp only
  by_cases hn : next = some .openSquare
  · rw [if_pos hn, if_pos (ha.square.mp hn)]
    by_cases hafter : after = some .closeSquare
    · rw [if_pos hafter, if_pos ((ha.empty hn).mp hafter)]
      exact (value_tracks _).bind fun _ _ _ h => .ok ⟨h.operatorNext, rfl, h.compiler⟩
    · rw [if_neg hafter, if_neg fun h => hafter ((ha.empty hn).mpr h)]
      refine (push_tracks hle).bind fun c d _ h => ?_
      cases h
      exact (push_tracks hle).bind fun c d _ h => .ok ⟨rfl, rfl, h⟩
  · rw [if_neg hn, if_neg fun hn' => hn (ha.square.mpr hn')]
    exact value_tracks _

/-- A name is read as a location, then as a function, then as a variable. -/
theorem nameValue_tracks (hle : A.length ≤ B.length) (s : String)
    (hsp : (Token.name s).needsSpace false = true → spaced w sp = spaced r sp') (ha : SameAhead next after next' after') :
    Tracks (AboveStep A B) (nameValue ⟨out, S ++ A⟩ w s next after sp)
      (nameValue ⟨out, S ++ B⟩ r s next' after' sp') := by
  unfold nameValue
  split
  · exact locationCall_tracks hle _ ha
  · split
    · next f hf =>
      refine functionCall_tracks hle s (fun hword => hsp ?_) ha
      simp [Token.needsSpace, hf, hword]
    · exact variableRead_tracks hle s ha

/-! ## One token -/

/-- No other token closes an index. -/
theorem incoming_eq_closeSquare (h : incoming w sp token = .ok .closeSquare) : token = .closeSquare := by
  cases token with
  | closeSquare => rfl
  | name s =>
    simp only [incoming] at h
    split at h
    · obtain ⟨_, -, h₁⟩ := bind_eq_ok h
      cases h₁
    · cases h
  | _ => cases h

/-- **A token in operator position does the same above both grounds**, if it is no square bracket that
closes one below. -/
theorem operatorStep_tracks (hA : Ground A) (hB : Ground B) (hle : A.length ≤ B.length)
    (hsp : token.needsSpace true = true → spaced w sp = spaced r sp') (hS : token = .closeSquare → brackets S ≠ []) :
    Tracks (fun x y => x.1 = y.1 ∧ Above A B x.2 y.2) (operatorStep w token sp ⟨out, S ++ A⟩)
      (operatorStep r token sp' ⟨out, S ++ B⟩) := by
  refine (incoming_tracks hsp).bind fun inc inc' hinc heq => ?_
  cases heq
  refine (reduce_tracks hA hB _).bind fun c d hreduce h => ?_
  obtain ⟨out, S'⟩ := h
  have hS' : brackets S' = brackets S := by
    have := reduce_brackets hreduce
    rwa [brackets_append, brackets_append, List.append_cancel_right_eq] at this
  cases inc with
  | closeRound =>
    refine (closeTuple_tracks hA hB).bind fun c d _ h => ?_
    cases h
    exact (closeRound_tracks hA hB).bind fun _ _ _ h => .ok ⟨rfl, h⟩
  | closeSquare =>
    refine (closeTuple_tracks hA hB).bind fun c d hclose h => ?_
    obtain ⟨out, S₂⟩ := h
    -- the bracket that is closed is still on the part of the stack that both have
    have hS₂ : S₂ ≠ [] := by
      rintro rfl
      have hnil := closeTuple_brackets hclose
      rw [brackets_append, brackets_append, hS', List.append_cancel_right_eq] at hnil
      exact hS (incoming_eq_closeSquare hinc) hnil.symm
    exact (closeSquare_tracks hA hB hS₂).bind fun _ _ _ h => .ok ⟨rfl, h⟩
  | comma => exact (comma_tracks hA hB hle).bind fun _ _ _ h => .ok ⟨rfl, h⟩
  | binary o => exact (binary_tracks hle o).bind fun _ _ _ h => .ok ⟨rfl, h⟩

/-- **A token in value position does the same above both grounds**, if it is no square bracket that
closes one below. -/
theorem valueStep_tracks (hA : Ground A) (hB : Ground B) (hle : A.length ≤ B.length)
    (hsp : token.needsSpace false = true → spaced w sp = spaced r sp') (ha : SameAhead next after next' after')
    (hS : token = .closeSquare → brackets S ≠ []) :
    Tracks (AboveStep A B) (valueStep w token sp next after ⟨out, S ++ A⟩)
      (valueStep r token sp' next' after' ⟨out, S ++ B⟩) := by
  cases token with
  | number n => exact numberValue_tracks hA hB n
  | text s => exact value_tracks _
  | code s => exact value_tracks _
  | minus => exact opening_tracks hle
  | plus => exact .ok ⟨rfl, rfl, .mk out S⟩
  | openRound => exact opening_tracks hle
  | closeRound => exact emptyRound_tracks hA hB
  | openSquare =>
    refine (push_tracks hle).bind fun c d _ h => ?_
    cases h
    exact opening_tracks hle
  | closeSquare => exact emptySquare_tracks hA hB (hS rfl)
  | name s => exact nameValue_tracks hle s hsp ha
  | _ => exact .error _ _

end Compiler

end QuestScript
