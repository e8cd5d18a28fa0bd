import QuestScript.Proofs.Case.Token

/-!
# Compiling in upper case

A text and the same text in upper case are compiled step by step alike. The code differs in its literals only:
the names of variables are in upper case (`Op.readsVariable`), and so are the names of the locations that are
called by name. Such a name is put on the stack like any other text, so its instructions cannot be told from
the code; `Marked` keeps their places while the tokens are read.
-/

namespace QuestScript

open Text (uppercased)

/-! ## Code in upper case -/

/-- A text in upper case; other values stay as they are. -/
def Value.raised : Value → Value
  | .text s => .text (uppercased s)
  | v => v

/-- Whether the literal of an instruction is the name of a variable. -/
def Op.readsVariable : Op → Bool
  | .var | .lastVar => true
  | _ => false

/-- An instruction whose literal is in upper case, if it is the name of a variable or marked as a name. -/
def Instruction.raised (marked : Bool) (i : Instruction) : Instruction :=
  { i with literal := if marked || i.op.readsVariable then i.literal.map Value.raised else i.literal }

/-- The code with the names of variables in upper case, and the literals of the marked instructions. -/
def Code.raised (marks : List Nat) (code : Code) : Code :=
  code.mapIdx fun n i => i.raised (marks.contains n)

/-- An instruction that is neither marked nor reads a variable has nothing that is a name. -/
theorem Instruction.raised_of_not_readsVariable {i : Instruction} (h : i.op.readsVariable = false) :
    i.raised false = i := by
  simp [raised, h]

/-- Whether what waits has the name of a variable. -/
def Pending.Kind.readsVariable : Pending.Kind → Bool
  | .op o => o.readsVariable
  | _ => false

/-- What waits, with the name of its variable in upper case. -/
def Pending.raised (p : Pending) : Pending :=
  { p with literal := if p.kind.readsVariable then p.literal.map Value.raised else p.literal }

theorem Pending.raised_of_literal_eq_none {p : Pending} (h : p.literal = none) : p.raised = p := by
  obtain ⟨kind, args, literal, patch, cast⟩ := p
  cases h
  simp [raised]

namespace Code

/-- Code and the same code in upper case, with its marked instructions. -/
structure Raised (marks : List Nat) (code code' : Code) : Prop where
  below : ∀ n ∈ marks, n < code.size
  eq : code' = code.raised marks

variable {marks : List Nat} {code code' : Code}

/-- Both codes have an instruction at the same places. -/
theorem Raised.size_eq (h : Raised marks code code') : code'.size = code.size := by
  rw [h.eq, raised, Array.size_mapIdx]

/-- An instruction more, which is marked or not. -/
theorem Raised.push (h : Raised marks code code') (i : Instruction) (marked : Bool) :
    Raised (if marked then code.size :: marks else marks) (code.push i) (code'.push (i.raised marked)) := by
  have hnew : code.size ∉ marks := fun hmem => Nat.lt_irrefl _ (h.below _ hmem)
  constructor
  · intro n hn
    rw [Array.size_push]
    cases marked with
    | false => exact Nat.lt_succ_of_lt (h.below n hn)
    | true =>
      rcases List.mem_cons.mp hn with rfl | hn
      · exact Nat.lt_succ_self _
      · exact Nat.lt_succ_of_lt (h.below n hn)
  · rw [h.eq]
    refine Array.ext_getElem? fun n => ?_
    simp only [raised, Array.getElem?_push, Array.getElem?_mapIdx, Array.size_mapIdx]
    by_cases hn : n = code.size
    · subst hn
      cases marked with
      | false => simp [hnew]
      | true => simp
    · cases marked with
      | false => simp [hn]
      | true => simp [hn]

/-- Giving a jump its target changes no literal. -/
theorem Raised.patch (h : Raised marks code code') (index : Option Nat) :
    Raised marks (Compiler.patch code index) (Compiler.patch code' index) := by
  cases index with
  | none => exact h
  | some index =>
    constructor
    · intro n hn
      simpa [Compiler.patch] using h.below n hn
    · rw [h.eq]
      refine Array.ext_getElem? fun n => ?_
      have hop (target : Nat) (o : Op) :
          (Compiler.retarget target o).readsVariable = o.readsVariable := by cases o <;> rfl
      simp only [Compiler.patch, raised, Array.getElem?_modify, Array.getElem?_mapIdx, Array.size_mapIdx]
      split
      · cases code[n]? with
        | none => rfl
        | some i => simp [Instruction.raised, hop]
      · rfl

end Code

namespace Compiler

variable {marks : List Nat} {out out' : Code} {S : List Pending} {p : Pending} {sp sp' : Span} {o : Op}

/-! ## States of the compiler -/

/-- A state and the same state in upper case. -/
inductive Raised (marks : List Nat) : Compiler → Compiler → Prop
  | mk {out out' : Code} (h : Code.Raised marks out out') (S : List Pending) :
      Raised marks ⟨out, S⟩ ⟨out', S.map Pending.raised⟩

/-- The same, after a step in value position. -/
structure RaisedStep (marks : List Nat) (s s' : Step) : Prop where
  operatorNext : s'.operatorNext = s.operatorNext
  skip : s'.skip = s.skip
  compiler : Raised marks s.compiler s'.compiler

/-- What waits on top is of the same kind, since only literals are raised. -/
theorem top_raised (S : List Pending) : top (S.map Pending.raised) = top S := by
  cases S with
  | nil => rfl
  | cons p S => rfl

theorem countIndex_raised (S : List Pending) :
    countIndex (S.map Pending.raised) = (countIndex S).map Pending.raised := by
  cases S with
  | nil => rfl
  | cons p S =>
    by_cases hp : p.kind = .op .var
    · rw [List.map_cons, countIndex, countIndex, if_pos hp, if_pos (show p.raised.kind = _ from hp)]
      rfl
    · rw [List.map_cons, countIndex, countIndex, if_neg hp, if_neg (show ¬ p.raised.kind = _ from hp)]
      rfl

/-! ## Instructions -/

/-- An instruction that is marked has its place written down, which is the end of the code so far. -/
theorem emit_tied (h : Code.Raised marks out out') (i : Instruction) (marked : Bool) :
    Tied (Code.Raised (if marked then out.size :: marks else marks)) (emit out i sp)
      (emit out' (i.raised marked) sp') := by
  unfold emit
  rw [h.size_eq]
  by_cases hfull : maxInstructions ≤ out.size
  · rw [if_pos hfull, if_pos hfull]
    exact .error rfl
  · rw [if_neg hfull, if_neg hfull]
    exact .ok (h.push i marked)

/-- An instruction that names nothing. -/
theorem emit_tied_same (h : Code.Raised marks out out') {i : Instruction} (hi : i.raised false = i) :
    Tied (Code.Raised marks) (emit out i sp) (emit out' i sp') := by
  have htied : Tied (Code.Raised marks) (emit out i sp) (emit out' (i.raised false) sp') := emit_tied h i false
  rwa [hi] at htied

/-- What waits is emitted with its literal, so that the name of a variable is raised when it comes out. -/
theorem emitOp_tied (h : Code.Raised marks out out') (hk : p.kind = .op o) :
    Tied (Code.Raised marks) (emitOp out p o sp) (emitOp out' p.raised o sp') := by
  unfold emitOp
  split
  · exact (emit_tied_same h rfl).bind fun _ _ _ h => .ok (h.patch p.patch)
  · exact (emit_tied_same h rfl).bind fun _ _ _ h => .ok (h.patch p.patch)
  · exact .ok (h.patch p.patch)
  · have hi : ({ op := o, literal := p.raised.literal, argCount := p.raised.args } : Instruction)
        = ({ op := o, literal := p.literal, argCount := p.args } : Instruction).raised false := by
      simp [Instruction.raised, Pending.raised, Pending.Kind.readsVariable, hk]
    rw [hi]
    exact emit_tied h _ false

theorem emitPending_tied (h : Code.Raised marks out out') :
    Tied (Code.Raised marks) (emitPending out p sp) (emitPending out' p.raised sp') := by
  unfold emitPending
  rw [show p.raised.kind = p.kind from rfl, show p.raised.cast = p.cast from rfl]
  split
  · next o hk =>
    refine (emitOp_tied h hk).bind fun _ _ _ h => ?_
    split
    · exact emit_tied_same h rfl
    · exact .ok h
  · exact .error rfl

/-! ## The stack -/

theorem push_tied (h : Code.Raised marks out out') :
    Tied (Raised marks) (push ⟨out, S⟩ p sp) (push ⟨out', S.map Pending.raised⟩ p.raised sp') := by
  unfold push
  rw [List.length_map]
  split
  · exact .error rfl
  · exact .ok (.mk h (p :: S))

/-- What waits without a literal. -/
theorem push_tied_same (h : Code.Raised marks out out') (hp : p.literal = none) :
    Tied (Raised marks) (push ⟨out, S⟩ p sp) (push ⟨out', S.map Pending.raised⟩ p sp') := by
  have htied : Tied (Raised marks) (push ⟨out, S⟩ p sp) (push ⟨out', S.map Pending.raised⟩ p.raised sp') :=
    push_tied h
  rwa [Pending.raised_of_literal_eq_none hp] at htied

/-- The priorities are the same on both stacks, so the reduction stops at the same place. -/
theorem reduce_tied (h : Code.Raised marks out out') (r : Nat) :
    Tied (Raised marks) (reduce r sp S out) (reduce r sp' (S.map Pending.raised) out') := by
  induction S generalizing out out' with
  | nil => exact .ok (.mk h [])
  | cons p S ih =>
    rw [List.map_cons, reduce, reduce, show p.raised.priority = p.priority from rfl]
    split
    · exact .ok (.mk h (p :: S))
    · exact (emitPending_tied h).bind fun _ _ _ h => ih h

theorem closeTuple_tied (h : Code.Raised marks out out') :
    Tied (Raised marks) (closeTuple ⟨out, S⟩ sp) (closeTuple ⟨out', S.map Pending.raised⟩ sp') := by
  cases S with
  | nil => exact .ok (.mk h [])
  | cons p S =>
    simp only [closeTuple, List.map_cons, show p.raised.kind = p.kind from rfl, show p.raised.args = p.args from rfl]
    split
    · split
      · exact .error rfl
      · exact (emit_tied_same h rfl).bind fun _ _ _ h => .ok (.mk h S)
    · exact .ok (.mk h (p :: S))

/-! ## Operator position -/

theorem closeRound_tied (h : Code.Raised marks out out') :
    Tied (Raised marks) (closeRound ⟨out, S⟩ sp) (closeRound ⟨out', S.map Pending.raised⟩ sp') := by
  match S with
  | [] => exact .error rfl
  | [b] =>
    simp only [closeRound, List.map_cons, List.map_nil, show b.raised.kind = b.kind from rfl]
    split
    · exact .error rfl
    · exact .ok (.mk h [])
  | b :: f :: S =>
    simp only [closeRound, List.map_cons, show b.raised.kind = b.kind from rfl,
      show f.raised.kind = f.kind from rfl, show f.raised.args = f.args from rfl]
    split
    · exact .error rfl
    split
    · split
      · split
        · exact .error rfl
        · exact .ok (.mk h (_ :: S))
      · exact .ok (.mk h (f :: S))
    · exact .ok (.mk h (f :: S))

/-- The count of an index does not touch the name of its variable. -/
theorem closeSquare_tied (h : Code.Raised marks out out') :
    Tied (Raised marks) (closeSquare ⟨out, S⟩ sp) (closeSquare ⟨out', S.map Pending.raised⟩ sp') := by
  cases S with
  | nil => exact .error rfl
  | cons b S =>
    simp only [closeSquare, List.map_cons, show b.raised.kind = b.kind from rfl, countIndex_raised]
    split
    · exact .error rfl
    · exact .ok (.mk h (countIndex S))

theorem functionComma_tied {b f : Pending} (h : Code.Raised marks out out') :
    Tied (Raised marks) (functionComma out b f o S sp)
      (functionComma out' b.raised f.raised o (S.map Pending.raised) sp') := by
  unfold functionComma
  simp only [show f.raised.args = f.args from rfl, show f.raised.patch = f.patch from rfl, h.size_eq]
  split
  · exact .error rfl
  split
  · split
    · exact (emit_tied_same h rfl).bind fun _ _ _ h => .ok (.mk h (b :: _ :: S))
    · exact (emit_tied_same h rfl).bind fun _ _ _ h => .ok (.mk (h.patch f.patch) (b :: _ :: S))
  · exact .ok (.mk h (b :: _ :: S))

/-- A tuple that is opened has no literal. -/
theorem tupleComma_tied (h : Code.Raised marks out out') :
    Tied (Raised marks) (tupleComma ⟨out, S⟩ sp) (tupleComma ⟨out', S.map Pending.raised⟩ sp') := by
  by_cases ht : top S = .op .tuple
  · cases S with
    | nil => cases ht
    | cons p S =>
      have hcount {q : Pending} {out : Code} {S : List Pending} {sp : Span} (hq : q.kind = .op .tuple) :
          tupleComma ⟨out, q :: S⟩ sp
            = if maxArgs < q.args + 1 then fail .argumentCount sp
              else .ok ⟨out, { q with args := q.args + 1 } :: S⟩ := by
        simp only [tupleComma, if_pos (show top (q :: S) = _ from hq)]
        rfl
      rw [List.map_cons, hcount ht, hcount (show p.raised.kind = _ from ht), show p.raised.args = p.args from rfl]
      split
      · exact .error rfl
      · exact .ok (.mk h (_ :: S))
  · rw [tupleComma_of_ne ht, tupleComma_of_ne (by rwa [top_raised])]
    exact push_tied_same h rfl

/-- Whether the comma is one of a call shows in the kinds of what waits. -/
theorem comma_tied (h : Code.Raised marks out out') :
    Tied (Raised marks) (comma ⟨out, S⟩ sp) (comma ⟨out', S.map Pending.raised⟩ sp') := by
  match S with
  | [] => exact tupleComma_tied (S := []) h
  | [b] => exact tupleComma_tied (S := [b]) h
  | b :: f :: S =>
    simp only [comma, List.map_cons, show b.raised.kind = b.kind from rfl, show f.raised.kind = f.kind from rfl]
    split
    · split
      · exact functionComma_tied h
      · exact tupleComma_tied (S := b :: f :: S) h
    · exact tupleComma_tied (S := b :: f :: S) h

theorem binary_tied (h : Code.Raised marks out out') :
    Tied (Raised marks) (binary ⟨out, S⟩ o sp) (binary ⟨out', S.map Pending.raised⟩ o sp') := by
  unfold binary
  simp only [h.size_eq]
  split
  · exact (emit_tied_same h rfl).bind fun _ _ _ h => push_tied_same h rfl
  · exact (emit_tied_same h rfl).bind fun _ _ _ h => push_tied_same h rfl
  · exact push_tied_same h rfl

variable {w r : List Char} {token : Token} {next after : Option Token}

theorem checkSpacing_tied (h : spaced w sp = spaced r sp') :
    Tied Eq (checkSpacing w sp) (checkSpacing r sp') := by
  rw [checkSpacing_eq, checkSpacing_eq, h]
  split
  · exact .ok rfl
  · exact .error rfl

/-- A token that is an operator has no name in it, apart from a word, which is looked up in upper case
anyway. -/
theorem incoming_tied (h : spaced w sp = spaced r sp') :
    Tied Eq (incoming w sp token) (incoming r sp' token.raised) := by
  cases token with
  | name s =>
    simp only [Token.raised_name, incoming, Function.wordOperator?_uppercased]
    split
    · exact (checkSpacing_tied h).bind fun _ _ _ _ => .ok rfl
    · exact .error rfl
  | number | text | code | openRound | openSquare | colon => exact .error rfl
  | _ => exact .ok rfl

/-- A step in operator position does the same to both, since what comes in has no name in it. -/
theorem operatorStep_tied {c d : Compiler} (h : Raised marks c d) (hsp : spaced w sp = spaced r sp') :
    Tied (fun x y => y.1 = x.1 ∧ Raised marks x.2 y.2) (operatorStep w token sp c)
      (operatorStep r token.raised sp' d) := by
  obtain ⟨h, S⟩ := h
  refine (incoming_tied hsp).bind fun inc _ _ heq => ?_
  cases heq
  refine (reduce_tied h _).bind fun _ _ _ h => ?_
  obtain ⟨h, S⟩ := h
  cases inc with
  | closeRound =>
    refine (closeTuple_tied h).bind fun _ _ _ h => ?_
    obtain ⟨h, S⟩ := h
    exact (closeRound_tied h).bind fun _ _ _ h => .ok ⟨rfl, h⟩
  | closeSquare =>
    refine (closeTuple_tied h).bind fun _ _ _ h => ?_
    obtain ⟨h, S⟩ := h
    exact (closeSquare_tied h).bind fun _ _ _ h => .ok ⟨rfl, h⟩
  | comma => exact (comma_tied h).bind fun _ _ _ h => .ok ⟨rfl, h⟩
  | binary op => exact (binary_tied h).bind fun _ _ _ h => .ok ⟨rfl, h⟩

/-- At the end only the start may wait on the stack, on either side. -/
theorem finish_tied {c d : Compiler} (h : Raised marks c d) :
    Tied (Code.Raised marks) (finish c sp) (finish d sp') := by
  obtain ⟨h, S⟩ := h
  refine (reduce_tied h 0).bind fun _ _ _ h => ?_
  obtain ⟨h, S⟩ := h
  refine (closeTuple_tied h).bind fun _ _ _ h => ?_
  obtain ⟨h, S⟩ := h
  simp only [List.length_map]
  split
  · exact .error rfl
  · exact .ok h

/-! ## Value position -/

/-- A value is one instruction, and it is a name or it is none. -/
theorem value_tied (h : Code.Raised marks out out') (i : Instruction) (marked : Bool) :
    Tied (RaisedStep (if marked then out.size :: marks else marks)) (value ⟨out, S⟩ i sp)
      (value ⟨out', S.map Pending.raised⟩ (i.raised marked) sp') :=
  (emit_tied h i marked).bind fun _ _ _ h => .ok ⟨rfl, rfl, .mk h S⟩

/-- A value that names nothing. -/
theorem value_tied_same (h : Code.Raised marks out out') {i : Instruction} (hi : i.raised false = i) :
    Tied (RaisedStep marks) (value ⟨out, S⟩ i sp) (value ⟨out', S.map Pending.raised⟩ i sp') := by
  have htied : Tied (RaisedStep marks) (value ⟨out, S⟩ i sp)
      (value ⟨out', S.map Pending.raised⟩ (i.raised false) sp') := value_tied h i false
  rwa [hi] at htied

theorem opening_tied (h : Code.Raised marks out out') (hp : p.literal = none) :
    Tied (RaisedStep marks) (opening ⟨out, S⟩ p sp) (opening ⟨out', S.map Pending.raised⟩ p sp') :=
  (push_tied_same h hp).bind fun _ _ _ h => .ok ⟨rfl, rfl, h⟩

/-- A number has no name in it, with or without its minus. -/
theorem numberValue_tied (h : Code.Raised marks out out') (n : Number) :
    Tied (RaisedStep marks) (numberValue ⟨out, S⟩ n sp) (numberValue ⟨out', S.map Pending.raised⟩ n sp') := by
  cases S with
  | nil => exact value_tied_same (S := []) h rfl
  | cons p S =>
    simp only [numberValue, List.map_cons, show p.raised.kind = p.kind from rfl]
    split
    · exact value_tied_same h rfl
    · exact value_tied_same (S := p :: S) h rfl

theorem missingValue_tied {α β : Type} {R : α → β → Prop} :
    Tied R (missingValue ⟨out, S⟩ sp) (missingValue ⟨out', S.map Pending.raised⟩ sp') := by
  unfold missingValue
  dsimp only
  rw [top_raised]
  exact .error rfl

/-- An empty pair of brackets: the function that waits below it is the same. -/
theorem emptyRound_tied (h : Code.Raised marks out out') :
    Tied (RaisedStep marks) (emptyRound ⟨out, S⟩ sp) (emptyRound ⟨out', S.map Pending.raised⟩ sp') := by
  match S with
  | [] => exact missingValue_tied (S := [])
  | [b] =>
    simp only [emptyRound, List.map_cons, List.map_nil, show b.raised.kind = b.kind from rfl]
    split
    · exact missingValue_tied (S := [b])
    · exact value_tied_same (S := []) h rfl
  | b :: f :: S =>
    simp only [emptyRound, List.map_cons, show b.raised.kind = b.kind from rfl,
      show f.raised.kind = f.kind from rfl, show f.raised.args = f.args from rfl]
    split
    · exact missingValue_tied (S := b :: f :: S)
    split
    · split
      · split
        · exact .error rfl
        · exact .ok ⟨rfl, rfl, .mk h (f :: S)⟩
      · exact value_tied_same (S := f :: S) h rfl
    · exact value_tied_same (S := f :: S) h rfl

theorem emptySquare_tied (h : Code.Raised marks out out') :
    Tied (RaisedStep marks) (emptySquare ⟨out, S⟩ sp) (emptySquare ⟨out', S.map Pending.raised⟩ sp') := by
  match S with
  | [] => exact .error rfl
  | [p] =>
    simp only [emptySquare, List.map_cons, List.map_nil, show p.raised.kind = p.kind from rfl,
      show p.raised.args = p.args from rfl]
    split
    · exact .error rfl
    · exact (emit_tied_same h rfl).bind fun _ _ _ _ => .error rfl
  | p :: b :: S =>
    simp only [emptySquare, List.map_cons, show p.raised.kind = p.kind from rfl,
      show p.raised.args = p.args from rfl, show b.raised.kind = b.kind from rfl, countIndex_raised]
    split
    · exact .error rfl
    · refine (emit_tied_same h rfl).bind fun _ _ _ h => ?_
      split
      · exact .error rfl
      · exact .ok ⟨rfl, rfl, .mk h (countIndex S)⟩

/-! ## Names -/

theorem call_tied (h : Code.Raised marks out out') (hp : p.literal = none) :
    Tied (RaisedStep marks) (call ⟨out, S⟩ p sp) (call ⟨out', S.map Pending.raised⟩ p sp') := by
  refine (push_tied_same h hp).bind fun _ _ _ h => ?_
  obtain ⟨h, S⟩ := h
  exact (push_tied_same h rfl).bind fun _ _ _ h => .ok ⟨rfl, rfl, h⟩

/-- Brackets are not changed by upper case, and come from nothing else. -/
theorem raised_eq_iff {t : Token} (ht : ∀ s, t ≠ .name s) :
    next.map Token.raised = some t ↔ next = some t := by
  cases next with
  | none => exact Iff.rfl
  | some token =>
    rw [Option.map_some, Option.some.injEq, Option.some.injEq]
    cases token with
    | name s => exact ⟨fun h => absurd h.symm (ht _), fun h => absurd h.symm (ht _)⟩
    | _ => exact Iff.rfl

/-- The name of the location is the literal that is emitted here, so its place is marked. -/
theorem locationCall_tied (h : Code.Raised marks out out') (location : List Char) :
    Tied (RaisedStep (out.size :: marks)) (locationCall ⟨out, S⟩ location next sp)
      (locationCall ⟨out', S.map Pending.raised⟩ (Text.upper location) (next.map Token.raised) sp') := by
  unfold locationCall
  rw [Text.isEmpty_upper]
  split
  · exact .error rfl
  · have hi : ({ op := .push, literal := some (.text (String.ofList (Text.upper location))) } : Instruction)
        = ({ op := .push, literal := some (.text (String.ofList location)) } : Instruction).raised true := by
      simp [Instruction.raised, Value.raised, uppercased]
    rw [hi]
    refine (emit_tied h _ true).bind fun _ _ _ h => ?_
    simp only [raised_eq_iff (t := .openRound) (by simp)]
    split
    · exact call_tied h rfl
    · exact (push_tied_same h rfl).bind fun _ _ _ h => .ok ⟨rfl, rfl, h⟩

/-- How a function takes its arguments depends on its arity and on the bracket that follows. -/
theorem functionOpen_tied (h : Code.Raised marks out out') (s s' : String) (f : Function) :
    Tied (RaisedStep marks) (functionOpen ⟨out, S⟩ s f next sp)
      (functionOpen ⟨out', S.map Pending.raised⟩ s' f (next.map Token.raised) sp') := by
  unfold functionOpen
  simp only [raised_eq_iff (t := .openRound) (by simp)]
  split
  · exact call_tied h rfl
  · split
    · exact (push_tied_same h rfl).bind fun _ _ _ h => .ok ⟨rfl, rfl, h⟩
    · exact opening_tied h rfl
    · exact .error rfl

theorem functionCall_tied (h : Code.Raised marks out out') (hsp : spaced w sp = spaced r sp') (s s' : String)
    (f : Function) :
    Tied (RaisedStep marks) (functionCall ⟨out, S⟩ w s f next sp)
      (functionCall ⟨out', S.map Pending.raised⟩ r s' f (next.map Token.raised) sp') := by
  rw [functionCall_eq, functionCall_eq]
  refine Tied.bind (R := Eq) ?_ fun _ _ _ _ => functionOpen_tied h s s' f
  split
  · exact checkSpacing_tied hsp
  · exact .ok rfl

/-- The name of a variable waits until its index is read, or it is emitted at once. -/
theorem variableRead_tied (h : Code.Raised marks out out') (s : String) :
    Tied (RaisedStep marks) (variableRead ⟨out, S⟩ s next after sp)
      (variableRead ⟨out', S.map Pending.raised⟩ (uppercased s) (next.map Token.raised)
        (after.map Token.raised) sp') := by
  unfold variableRead
  simp only [raised_eq_iff (t := .openSquare) (by simp), raised_eq_iff (t := .closeSquare) (by simp)]
  split
  · split
    · exact (value_tied h { op := .lastVar, literal := some (.text s) } false).bind fun _ _ _ hstep =>
        .ok ⟨hstep.operatorNext, rfl, hstep.compiler⟩
    · refine (push_tied (p := { kind := .op .var, literal := some (.text s) }) h).bind fun _ _ _ h => ?_
      obtain ⟨h, S⟩ := h
      exact (push_tied_same h rfl).bind fun _ _ _ h => .ok ⟨rfl, rfl, h⟩
  · exact value_tied h { op := .var, literal := some (.text s) } false

end Compiler

/-- Whether a token in value position calls a location by its name. -/
def Token.callsLocation : Token → Bool
  | .name s => s.toList.head? == some '@'
  | _ => false

namespace Compiler

variable {marks : List Nat} {out out' : Code} {S : List Pending} {sp sp' : Span} {w r : List Char}
  {token : Token} {next after : Option Token}

/-- The marked instructions after a token in value position: the name of a location is the next one. -/
def marked (token : Token) (code : Code) (marks : List Nat) : List Nat :=
  if token.callsLocation then code.size :: marks else marks

/-- A name is a location, a function or a variable in both cases of its letters. -/
theorem nameValue_tied (h : Code.Raised marks out out') (hsp : spaced w sp = spaced r sp') (s : String) :
    Tied (RaisedStep (marked (.name s) out marks)) (nameValue ⟨out, S⟩ w s next after sp)
      (nameValue ⟨out', S.map Pending.raised⟩ r (uppercased s) (next.map Token.raised)
        (after.map Token.raised) sp') := by
  have hupper {rest : List Char} :
      (uppercased s).toList = '@' :: rest ↔ ∃ tail, s.toList = '@' :: tail ∧ Text.upper tail = rest := by
    rw [uppercased, String.toList_ofList]
    exact Text.upper_eq_cons_iff (by decide)
  by_cases hs : s.toList.head? = some '@'
  · obtain ⟨location, hlocation⟩ := List.head?_eq_some_iff.mp hs
    have hlocation' := hupper.mpr ⟨location, hlocation, rfl⟩
    have hmarked : marked (.name s) out marks = out.size :: marks := if_pos (by simpa [Token.callsLocation] using hs)
    rw [hmarked]
    unfold nameValue
    rw [hlocation, hlocation']
    exact locationCall_tied h location
  · have hs' : (uppercased s).toList.head? ≠ some '@' := by
      intro hhead
      obtain ⟨rest, hrest⟩ := List.head?_eq_some_iff.mp hhead
      obtain ⟨tail, htail, -⟩ := hupper.mp hrest
      exact hs (List.head?_eq_some_iff.mpr ⟨tail, htail⟩)
    have hmarked : marked (.name s) out marks = marks := if_neg (by simpa [Token.callsLocation] using hs)
    rw [hmarked, nameValue_of_ne hs, nameValue_of_ne hs', Function.find?_uppercased]
    split
    · exact functionCall_tied h hsp s _ _
    · exact variableRead_tied h s

/-- A step in value position. Only the name of a location makes a mark. -/
theorem valueStep_tied {c d : Compiler} (h : Raised marks c d) (hsp : spaced w sp = spaced r sp') :
    Tied (RaisedStep (marked token c.out marks)) (valueStep w token sp next after c)
      (valueStep r token.raised sp' (next.map Token.raised) (after.map Token.raised) d) := by
  obtain ⟨h, S⟩ := h
  cases token with
  | name s => exact nameValue_tied h hsp s
  | number n => exact numberValue_tied h n
  | text s =>
    refine value_tied_same h (Instruction.raised_of_not_readsVariable ?_)
    dsimp only
    split
    · rfl
    · rfl
  | code s => exact value_tied_same h rfl
  | minus => exact opening_tied h rfl
  | plus => exact .ok ⟨rfl, rfl, .mk h S⟩
  | openRound => exact opening_tied h rfl
  | closeRound => exact emptyRound_tied h
  | openSquare =>
    refine (push_tied_same h rfl).bind fun _ _ _ h => ?_
    obtain ⟨h, S⟩ := h
    exact opening_tied h rfl
  | closeSquare => exact emptySquare_tied h
  | _ => exact .error rfl

/-! ## Whole expressions -/

/-- The tokens are compiled to the code, and `marks'` are its marked instructions, `marks` those that were
there before. -/
inductive Marked (source : List Char) :
    Bool → Compiler → List (Token × Span) → List Nat → Code → List Nat → Prop
  | stop {c : Compiler} {code : Code} (h : run source true c [] = .ok code) (marks : List Nat) :
    Marked source true c [] marks code marks
  | operator {c c' : Compiler} {token : Token} {sp : Span} {ts : List (Token × Span)} {flag : Bool}
    {code : Code} {marks marks' : List Nat} (h : operatorStep source token sp c = .ok (flag, c'))
    (rest : Marked source flag c' ts marks code marks') :
    Marked source true c ((token, sp) :: ts) marks code marks'
  | value {c : Compiler} {token : Token} {sp : Span} {ts : List (Token × Span)} {step : Step}
    {code : Code} {marks marks' : List Nat}
    (h : valueStep source token sp (ts[0]?.map (·.1)) (ts[1]?.map (·.1)) c = .ok step)
    (rest : Marked source step.operatorNext step.compiler (ts.drop step.skip) (marked token c.out marks)
      code marks') :
    Marked source false c ((token, sp) :: ts) marks code marks'

/-- Tokens that are the same but for case stay so when some of them are dropped. -/
theorem drop_raised {ts ts' : List (Token × Span)} (h : Token.Raised w r ts ts') (n : Nat) :
    Token.Raised w r (ts.drop n) (ts'.drop n) := by
  induction h generalizing n with
  | nil =>
    rw [List.drop_nil]
    exact .nil
  | cons spacing rest ih =>
    cases n with
    | zero => exact .cons spacing rest
    | succ n => exact ih n

/-- The same for the token at a place. -/
theorem getElem?_raised {ts ts' : List (Token × Span)} (h : Token.Raised w r ts ts') (n : Nat) :
    ts'[n]?.map (·.1) = (ts[n]?.map (·.1)).map Token.raised := by
  induction h generalizing n with
  | nil => rfl
  | cons spacing rest ih =>
    cases n with
    | zero => rfl
    | succ n => exact ih n

/-- **An expression in upper case** is compiled to the code in upper case, or fails for the same reason. -/
theorem run_tied {ready : Bool} {c d : Compiler} {ts ts' : List (Token × Span)} {marks : List Nat}
    (h : Raised marks c d) (hts : Token.Raised w r ts ts') :
    Tied (fun code code' => ∃ marks', Marked w ready c ts marks code marks' ∧ Code.Raised marks' code code')
      (run w ready c ts) (run r ready d ts') := by
  cases hts with
  | nil =>
    cases ready with
    | false =>
      obtain ⟨h, S⟩ := h
      rw [run, run]
      exact missingValue_tied
    | true =>
      have hrun (source : List Char) (c : Compiler) :
          run source true c [] = finish c ⟨Text.byteSize source, Text.byteSize source⟩ := by
        rw [run]
        rfl
      rw [hrun, hrun]
      refine (finish_tied h).imp fun code code' hcode hraised => ?_
      exact ⟨marks, .stop ((hrun w c).trans hcode) marks, hraised⟩
  | @cons token sp sp' rest rest' spacing hrest =>
    cases ready with
    | true =>
      rw [run, run]
      refine (operatorStep_tied h spacing).bind fun x y hx hxy => ?_
      obtain ⟨flag, c'⟩ := x
      obtain ⟨flag', d'⟩ := y
      obtain ⟨rfl, h⟩ := hxy
      refine (run_tied h hrest).imp fun code code' _ hcode => ?_
      obtain ⟨marks', hmarked, hraised⟩ := hcode
      exact ⟨marks', .operator hx hmarked, hraised⟩
    | false =>
      rw [run, run, getElem?_raised hrest, getElem?_raised hrest]
      refine (valueStep_tied h spacing).bind fun step step' hstep hs => ?_
      rw [hs.operatorNext, hs.skip]
      refine (run_tied hs.compiler (drop_raised hrest step.skip)).imp fun code code' _ hcode => ?_
      obtain ⟨marks', hmarked, hraised⟩ := hcode
      exact ⟨marks', .value hstep hmarked, hraised⟩
termination_by ts.length
decreasing_by
  all_goals
    simp only [List.length_cons, List.length_drop]
    omega

end Compiler

/-- The code of an expression and of the same expression in upper case: `marks` are the names of locations. -/
theorem compile_prepare {source : List Char} (hout : (Text.Standing.after {} source).isOutside = true) :
    Tied (fun code code' => ∃ tokens marks, Token.tokenize source = .ok tokens ∧
        Compiler.Marked source false { stack := [{ kind := .start }] } tokens [] code marks ∧
        code' = code.raised marks)
      (compile source) (compile (Source.prepare source)) := by
  refine (Token.tokenize_prepare hout).bind fun ts ts' hts hraised => ?_
  have hstart : Compiler.Raised [] { stack := [{ kind := .start }] } { stack := [{ kind := .start }] } :=
    .mk ⟨by simp, rfl⟩ [{ kind := .start }]
  refine (Compiler.run_tied hstart hraised).imp fun code code' _ hcode => ?_
  obtain ⟨marks, hmarked, hcode⟩ := hcode
  exact ⟨ts, marks, hts, hmarked, hcode.eq⟩

end QuestScript
