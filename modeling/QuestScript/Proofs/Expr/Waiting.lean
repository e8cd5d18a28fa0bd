import QuestScript.Proofs.Expr.Heights

/-!
# What waits holds values

The stack of the compiler says how many values there should be at the next instruction (`height`):
each operator that waits holds the operands it has counted, less the one that is still to come. It
also says how many there should be at each jump that waits for its target (`waits`).

Operators count their operands in two ways. A sign, a function without brackets and an operator
between two operands have all of them counted from the start. A tuple, an index and a call in
brackets count an operand when it has been read (`defers`). Which way it is depends on what stands
above them, and this is what makes a bracket right above a function dangerous: it turns one way into
the other.
-/

namespace QuestScript

namespace Compiler

/-! ## Counting -/

/-- How many values an operator that has counted `args` operands has left on the stack. The jumps
take the left side of `AND` and `OR`, and the condition and the first value of a choice. -/
def held (o : Op) (args : Nat) : Nat :=
  match o with
  | .and | .or => args - 1
  | .iif => args - 2
  | _ => args

/-- Whether an operator under `above` counts an operand only when it has been read. -/
def defers (above : Pending.Kind) (o : Op) : Bool :=
  match o with
  | .tuple => true
  | .var => above == .openSquare
  | o => o.isFunction && above == .openRound

/-- The values that an operator or bracket under `above` holds. -/
def weight (above : Pending.Kind) (p : Pending) : Int :=
  match p.kind with
  | .op o => held o p.args - if defers above o then 0 else 1
  | _ => 0

/-- The values that all that waits under `above` holds. -/
def base (above : Pending.Kind) : List Pending → Int
  | [] => 0
  | p :: S => weight above p + base p.kind S

/-- The values there should be, one more if one has just been read. -/
def height (ready : Bool) (S : List Pending) : Int := base .start S + if ready then 1 else 0

/-- The jumps that wait for their target, each with the values there should be at it. -/
def waits : List Pending → List (Nat × Int)
  | [] => []
  | p :: S =>
    match p.patch with
    | some j => (j, base p.kind S + 1) :: waits S
    | none => waits S

variable {above above' : Pending.Kind} {p : Pending} {S : List Pending} {o : Op}
  {out out' : List Instruction}

theorem defers_openRound (ho : o.isFunction = true) : defers .openRound o = true := by
  cases o <;> first | rfl | cases ho

theorem defers_start (ho : o ≠ .tuple) : defers .start o = false := by
  cases o <;> first | rfl | exact absurd rfl ho

theorem weight_op (hk : p.kind = .op o) :
    weight above p = held o p.args - if defers above o then 0 else 1 := by
  rw [weight, hk]

theorem waits_cons_none (hp : p.patch = none) : waits (p :: S) = waits S := by
  rw [waits, hp]

theorem waits_cons_some {j : Nat} (hp : p.patch = some j) :
    waits (p :: S) = (j, base p.kind S + 1) :: waits S := by
  rw [waits, hp]

/-- Nothing depends on which of the two stands above. -/
def Same (above above' : Pending.Kind) (S : List Pending) : Prop :=
  ∀ p ∈ S.head?, ∀ o, p.kind = .op o → defers above o = defers above' o

theorem same_op (o : Op) (S : List Pending) : Same (.op o) .start S := by
  intro p _ o' _
  cases o' <;> rfl

theorem same_openRound (h : (top S).isFunction = false) : Same .openRound .start S := by
  intro p hp o hk
  cases S with
  | nil => cases hp
  | cons q S =>
    cases hp
    replace h : p.kind.isFunction = false := h
    rw [hk] at h
    cases o <;> first | rfl | cases h

theorem same_openSquare (h : top S ≠ .op .var) : Same .openSquare .start S := by
  intro p hp o hk
  cases S with
  | nil => cases hp
  | cons q S =>
    cases hp
    replace h : p.kind ≠ .op .var := h
    rw [hk] at h
    cases o <;> first | rfl | exact absurd rfl h

theorem Same.base_eq (h : Same above above' S) : base above S = base above' S := by
  cases S with
  | nil => rfl
  | cons p S =>
    have hweight : weight above p = weight above' p := by
      unfold weight
      split
      · next o hk => rw [h p rfl o hk]
      · rfl
    rw [base, base, hweight]

/-! ## Stacks in order -/

/-- An operator whose operands are not all there has one still to come: it counts it later, or it
has counted it in advance. The only operand of a variable is counted later. -/
def Rests (above : Pending.Kind) (p : Pending) : Prop :=
  ∀ o, p.kind = .op o →
    defers above o = true ∧ (o = .var → p.args = 0) ∨ o ≠ .var ∧ 1 ≤ held o p.args

theorem rests_deferred (hk : p.kind = .op o) (hd : defers above o = true)
    (hvar : o = .var → p.args = 0) : Rests above p := by
  intro o' ho'
  cases hk.symm.trans ho'
  exact .inl ⟨hd, hvar⟩

theorem rests_counted (hk : p.kind = .op o) (hvar : o ≠ .var) (hone : 1 ≤ held o p.args) :
    Rests above p := by
  intro o' ho'
  cases hk.symm.trans ho'
  exact .inr ⟨hvar, hone⟩

/-- A stack on which everything has an operand still to come, down to the start. -/
inductive Stacked : Pending.Kind → List Pending → Prop
  | bottom {above : Pending.Kind} {p : Pending} (hk : p.kind = .start) : Stacked above [p]
  | cons {above : Pending.Kind} {p : Pending} {S : List Pending} (hk : p.kind ≠ .start)
    (hp : Rests above p) (hS : Stacked p.kind S) : Stacked above (p :: S)

/-- An operator on top that has all its operands: an item of a variable, or a call without
arguments. -/
def Complete (p : Pending) : Prop :=
  ∃ o, p.kind = .op o ∧
    (o = .var ∧ p.args = 1 ∨ o.isFunction = true ∧ o.info.minArgs = 0 ∧ p.args = 0)

/-- Only after a value may an operator have all its operands. -/
def Topped (ready : Bool) (S : List Pending) : Prop :=
  Stacked .start S ∨ ready = true ∧ ∃ p S', S = p :: S' ∧ Complete p ∧ Stacked p.kind S'

theorem Stacked.tail (h : Stacked above (p :: S)) (hk : p.kind ≠ .start) : Stacked p.kind S := by
  cases h with
  | bottom hk' => exact absurd hk' hk
  | cons _ _ hS => exact hS

theorem Stacked.rests (h : Stacked above (p :: S)) : Rests above p := by
  cases h with
  | bottom hk =>
    intro o ho
    rw [hk] at ho
    cases ho
  | cons _ hp _ => exact hp

theorem Stacked.congr (h : Stacked above S) (hs : Same above above' S) : Stacked above' S := by
  cases h with
  | bottom hk => exact .bottom hk
  | @cons _ p S hk hp hS =>
    refine .cons hk ?_ hS
    intro o ho
    rw [← hs p rfl o ho]
    exact hp o ho

theorem Same.symm (h : Same above above' S) : Same above' above S :=
  fun p hp o ho => (h p hp o ho).symm

theorem stacked_op_iff : Stacked (.op o) S ↔ Stacked .start S :=
  ⟨fun h => h.congr (same_op o S), fun h => h.congr (same_op o S).symm⟩

theorem base_op (o : Op) (S : List Pending) : base (.op o) S = base .start S := (same_op o S).base_eq

/-- An operator with an operand still to come holds no less than nothing. -/
theorem Rests.weight_nonneg (h : Rests above p) : 0 ≤ weight above p := by
  unfold weight
  split
  · next o ho =>
    rcases h o ho with ⟨hd, -⟩ | ⟨-, hheld⟩
    · rw [if_pos hd]
      omega
    · split
      · omega
      · omega
  · exact Int.le_refl 0

theorem Stacked.base_nonneg (h : Stacked above S) : 0 ≤ base above S := by
  induction h with
  | bottom hk => simp [base, weight, hk]
  | @cons above p S hk hp hS ih =>
    have := hp.weight_nonneg
    rw [base]
    omega

/-- Before a value no item of a variable is on top. -/
theorem Stacked.top_ne_var (h : Stacked .start S) : top S ≠ .op .var := by
  cases S with
  | nil => exact nofun
  | cons p S =>
    intro hk
    rcases h.rests .var hk with ⟨hd, -⟩ | ⟨hne, -⟩
    · cases hd
    · exact hne rfl

/-! ## Operators and their jumps -/

/-- The operations that become one instruction, which takes the operands they have counted. -/
def isPlain : Op → Bool
  | .and | .or | .iif | .push | .format | .lastVar | .jump _ | .jumpUnless _ | .andJump _ | .orJump _
  | .truth | .cast _ => false
  | _ => true

theorem isPlain_of_isFunction (h : o.isFunction = true) (hne : o ≠ .iif) : isPlain o = true := by
  cases o <;> first | rfl | exact absurd rfl hne | cases h

/-- A plain operation takes what it has counted, and leaves one value. -/
theorem pops_of_isPlain (h : isPlain o = true) (literal : Option Value) {args : Nat}
    (hv : o = .var → args ≤ 1) : (⟨o, literal, args⟩ : Instruction).pops = args := by
  cases o with
  | var => exact Nat.min_eq_left (hv rfl)
  | _ => first | rfl | cases h

theorem falls_of_isPlain (h : isPlain o = true) (literal : Option Value) (args : Nat) :
    (⟨o, literal, args⟩ : Instruction).falls = some 1 := by
  cases o <;> first | rfl | cases h

theorem jumps_of_isPlain (h : isPlain o = true) (literal : Option Value) (args : Nat) :
    (⟨o, literal, args⟩ : Instruction).jumps = none := by
  cases o <;> first | rfl | cases h

theorem held_of_isPlain (h : isPlain o = true) (args : Nat) : held o args = args := by
  cases o <;> first | rfl | cases h

/-- The jump of a waiting operator leads from one value more than there were below it to `landing`
more. -/
def Leads (out : List Instruction) (p : Pending) (landing : Nat) : Prop :=
  ∃ j i k, p.patch = some j ∧ out[j]? = some i ∧ i.jumps.map (·.2) = some k ∧ landing + i.pops = 1 + k

/-- An operator has left the jump its operands so far call for. -/
def Formed (out : List Instruction) (p : Pending) : Prop :=
  match p.kind with
  | .op .and | .op .or => p.args = 2 ∧ Leads out p 1
  | .op .iif =>
    p.args = 0 ∧ p.patch = none ∨ p.args = 1 ∧ Leads out p 0 ∨
      (p.args = 2 ∨ p.args = 3) ∧ Leads out p 1
  | .op .neg => p.args = 1 ∧ p.patch = none
  | .op o => isPlain o = true ∧ p.patch = none
  | _ => p.patch = none

theorem formed_of_isPlain (hk : p.kind = .op o) (ho : isPlain o = true) (hp : p.patch = none)
    (hneg : o = .neg → p.args = 1) : Formed out p := by
  unfold Formed
  rw [hk]
  cases o <;> first | exact ⟨rfl, hp⟩ | exact ⟨hneg rfl, hp⟩ | cases ho

theorem formed_iif_iff (hk : p.kind = .op .iif) :
    Formed out p ↔ p.args = 0 ∧ p.patch = none ∨ p.args = 1 ∧ Leads out p 0 ∨
      (p.args = 2 ∨ p.args = 3) ∧ Leads out p 1 := by
  unfold Formed
  rw [hk]

theorem formed_logic_iff (hk : p.kind = .op o) (ho : o = .and ∨ o = .or) :
    Formed out p ↔ p.args = 2 ∧ Leads out p 1 := by
  unfold Formed
  rcases ho with rfl | rfl
  all_goals rw [hk]

theorem Formed.patch_eq_none (h : Formed out p) (hk : p.kind = .op o) (ho : isPlain o = true) :
    p.patch = none := by
  unfold Formed at h
  rw [hk] at h
  cases o <;> first | exact h.2 | cases ho

theorem Formed.patch_eq_none_of_bracket (h : Formed out p) (hk : ∀ o, p.kind ≠ .op o) :
    p.patch = none := by
  unfold Formed at h
  split at h
  case h_6 => exact h
  all_goals next ho => exact absurd ho (hk _)

/-- The last argument of a call in brackets is counted if there is one. A choice is closed behind
its third value, or behind the comma after it. -/
theorem Formed.closed {ready : Bool} {args : Nat} (h : Formed out p) (hk : p.kind = .op o)
    (ho : o.isFunction = true) (hargs : args = p.args + if ready then 1 else 0)
    (hmin : o.info.minArgs ≤ args) (hmax : ready = true → args ≤ o.info.maxArgs) :
    Formed out { p with args } ∧ (held o args = held o p.args + if ready then 1 else 0) ∧
      (1 ≤ held o args ∨ o.info.minArgs = 0 ∧ args = 0) := by
  by_cases hi : o = .iif
  · subst hi
    have hmin' : 3 ≤ args := hmin
    rw [formed_iif_iff hk] at h
    have hargs' : p.args ≤ args ∧ args ≤ p.args + 1 := by
      cases ready
      all_goals simp at hargs; omega
    have hmax' : args ≤ 3 := by
      cases ready with
      | true => exact hmax rfl
      | false =>
        replace hargs : args = p.args := hargs
        omega
    have hlead : Leads out p 1 := by
      rcases h with ⟨h0, -⟩ | ⟨h1, -⟩ | ⟨-, hl⟩
      · omega
      · omega
      · exact hl
    refine ⟨?_, ?_, .inl (Nat.sub_le_sub_right hmin' 2)⟩
    · rw [formed_iif_iff (p := { p with args }) hk]
      exact .inr (.inr ⟨.inr (Nat.le_antisymm hmax' hmin'), hlead⟩)
    · show args - 2 = p.args - 2 + _
      cases ready with
      | true =>
        replace hargs : args = p.args + 1 := hargs
        simp only [if_true]
        omega
      | false =>
        rw [hargs]
        rfl
  · have hplain := isPlain_of_isFunction ho hi
    rw [held_of_isPlain hplain, held_of_isPlain hplain]
    refine ⟨?_, hargs, by omega⟩
    refine formed_of_isPlain (p := { p with args }) hk hplain (h.patch_eq_none hk hplain) ?_
    rintro rfl
    cases ho

/-- Later code has the same jumps in the same places, with their targets or without. -/
def Extends (out out' : List Instruction) : Prop :=
  ∀ {j : Nat} {i : Instruction}, out[j]? = some i →
    ∃ i', out'[j]? = some i' ∧ i'.jumps.map (·.2) = i.jumps.map (·.2) ∧ i'.pops = i.pops

theorem extends_append (out l : List Instruction) : Extends out (out ++ l) := by
  intro j i h
  refine ⟨i, ?_, rfl, rfl⟩
  rw [List.getElem?_append_left (List.getElem?_eq_some_iff.mp h).1, h]

theorem extends_patched (out : List Instruction) (index : Nat) : Extends out (patched out index) := by
  intro j i h
  by_cases hj : j = index
  · subst hj
    refine ⟨_, getElem?_patched_self h, ?_, pops_retargeted _ _⟩
    rw [jumps_retargeted, Option.map_map]
    rfl
  · exact ⟨i, by rw [getElem?_patched_of_ne hj, h], rfl, rfl⟩

theorem Leads.extend {landing : Nat} (h : Leads out p landing) (he : Extends out out') :
    Leads out' p landing := by
  obtain ⟨j, i, k, hp, hi, hk, hl⟩ := h
  obtain ⟨i', hi', hj', hp'⟩ := he hi
  exact ⟨j, i', k, hp, hi', hj'.trans hk, by rw [hp']; exact hl⟩

theorem Formed.extend (h : Formed out p) (he : Extends out out') : Formed out' p := by
  unfold Formed at h ⊢
  split at h
  · exact ⟨h.1, h.2.extend he⟩
  · exact ⟨h.1, h.2.extend he⟩
  · rcases h with h | ⟨ha, hl⟩ | ⟨ha, hl⟩
    · exact .inl h
    · exact .inr (.inl ⟨ha, hl.extend he⟩)
    · exact .inr (.inr ⟨ha, hl.extend he⟩)
  · exact h
  · exact h
  · exact h

/-- The brackets. -/
def isBracket : Pending.Kind → Bool
  | .openRound | .openSquare => true
  | _ => false

theorem ne_op_of_isBracket (hk : isBracket p.kind = true) (o : Op) : p.kind ≠ .op o := by
  intro ho
  rw [ho] at hk
  cases hk

theorem rests_of_isBracket (hk : isBracket p.kind = true) : Rests above p :=
  fun o ho => absurd ho (ne_op_of_isBracket hk o)

theorem ne_start_of_isBracket (hk : isBracket p.kind = true) : p.kind ≠ .start := by
  intro ho
  rw [ho] at hk
  cases hk

theorem weight_of_isBracket (hk : isBracket p.kind = true) : weight above p = 0 := by
  unfold weight
  split
  · next o ho => exact absurd ho (ne_op_of_isBracket hk o)
  · rfl

theorem formed_of_isBracket (hk : isBracket p.kind = true) (hp : p.patch = none) : Formed out p := by
  unfold Formed
  split
  case h_6 => exact hp
  all_goals next ho => exact absurd ho (ne_op_of_isBracket hk _)

/-- Under its bracket a choice has an operand still to come, whatever it has counted. -/
theorem Stacked.choice {b f f' : Pending} (hS : Stacked above (b :: f :: S)) (hb : b.kind = .openRound)
    (hf : f.kind = .op .iif) (hf' : f'.kind = .op .iif) : Stacked above (b :: f' :: S) := by
  have hb' : isBracket b.kind = true := by rw [hb]; rfl
  have hkind : f'.kind = f.kind := hf'.trans hf.symm
  have hfk : f.kind ≠ .start := by rw [hf]; exact nofun
  refine .cons (ne_start_of_isBracket hb') hS.rests (.cons ?_ ?_ ?_)
  · rw [hkind]
    exact hfk
  · refine rests_deferred hf' ?_ nofun
    rw [hb]
    rfl
  · rw [hkind]
    exact (hS.tail (ne_start_of_isBracket hb')).tail hfk

/-! ## States -/

/-- A state of the compiler; the flag says that a value has just been read. -/
structure State where
  ready : Bool
  out : List Instruction
  stack : List Pending

namespace State

def tally (s : State) : Tally := ⟨s.out, waits s.stack, height s.ready s.stack⟩

structure Sound (s : State) : Prop where
  topped : Topped s.ready s.stack
  formed : ∀ p ∈ s.stack, Formed s.out p
  proper : s.tally.Proper

/-- A step to a sound state that is kept in the books. -/
structure Moves (s s' : State) : Prop where
  sound : s'.Sound
  keeps : s.tally.Keeps s'.tally

variable {s s' s'' : State} {ready : Bool}

theorem Moves.refl (h : s.Sound) : Moves s s := ⟨h, .refl h.proper⟩

theorem Moves.trans (h₁ : Moves s s') (h₂ : Moves s' s'') : Moves s s'' :=
  ⟨h₂.sound, h₁.keeps.trans h₂.keeps⟩

/-- A step that emits nothing and changes no count of values. -/
theorem Sound.same (h : s.Sound) (ht : s'.tally = s.tally) (htop : Topped s'.ready s'.stack)
    (hform : ∀ p ∈ s'.stack, Formed s'.out p) : Moves s s' := by
  refine ⟨⟨htop, hform, ?_⟩, ?_⟩
  · rw [ht]
    exact h.proper
  · rw [ht]
    exact .refl h.proper

/-- Where a value is expected, everything has an operand still to come. -/
theorem Sound.stacked (h : Sound ⟨false, out, S⟩) : Stacked .start S := by
  rcases h.topped with hS | ⟨hr, -⟩
  · exact hS
  · cases hr

/-- Below a bracket, too. -/
theorem Sound.stacked_of_isBracket (h : Sound ⟨ready, out, p :: S⟩) (hk : isBracket p.kind = true) :
    Stacked .start (p :: S) := by
  rcases h.topped with hS | ⟨-, q, S', heq, ⟨o, ho, -⟩, -⟩
  · exact hS
  · cases heq
    exact absurd ho (ne_op_of_isBracket hk o)

theorem Sound.tail_formed (h : Sound ⟨ready, out, p :: S⟩) : ∀ q ∈ S, Formed out q :=
  (List.forall_mem_cons.mp h.formed).2

theorem Sound.head_formed (h : Sound ⟨ready, out, p :: S⟩) : Formed out p :=
  (List.forall_mem_cons.mp h.formed).1

/-- An instruction that takes values and leaves one. -/
theorem Sound.emit {i : Instruction} {S' : List Pending} (h : Sound ⟨ready, out, S⟩)
    (hf : i.falls = some 1) (hj : i.jumps = none) (hw : waits S' = waits S)
    (hh : height true S' + i.pops = height ready S + 1) (hS' : Stacked .start S')
    (hform : ∀ p ∈ S', Formed out p) : Moves ⟨ready, out, S⟩ ⟨true, out ++ [i], S'⟩ := by
  -- a value is left afterwards, so all that the instruction takes must have been there
  have hone : 1 ≤ height true S' := by
    have := hS'.base_nonneg
    simp only [height, if_true]
    omega
  have hk := Tally.keeps_append h.proper (.inl ⟨hj, rfl⟩) hf (show i.pops ≤ height ready S by omega)
  have heq : tally ⟨true, out ++ [i], S'⟩
      = ⟨out ++ [i], waits S, height ready S - i.pops + (1 : Nat)⟩ := by
    rw [tally, hw]
    refine congrArg _ ?_
    show height true S' = _
    omega
  refine ⟨⟨.inl hS', ?_, ?_⟩, ?_⟩
  · intro p hp
    exact (hform p hp).extend (extends_append out [i])
  · rw [heq]
    exact hk.proper
  · rw [heq]
    exact hk

/-! ### Brackets -/

/-- A bracket is opened below which nothing counts in another way. -/
theorem Sound.open_bracket (h : Sound ⟨ready, out, S⟩) (hS : Stacked .start S)
    (hp : p.patch = none) (hk : isBracket p.kind = true) (hsame : Same p.kind .start S) :
    Moves ⟨ready, out, S⟩ ⟨ready, out, p :: S⟩ := by
  refine h.same ?_ (.inl (.cons (ne_start_of_isBracket hk) ?_ (hS.congr hsame.symm))) ?_
  · rw [tally, tally, waits_cons_none hp, height, height, base, weight_of_isBracket hk,
      hsame.base_eq]
    simp
  · exact rests_of_isBracket hk
  · exact List.forall_mem_cons.mpr ⟨formed_of_isBracket hk hp, h.formed⟩

/-- And it is closed. -/
theorem Sound.close_bracket (h : Sound ⟨ready, out, p :: S⟩) (hk : isBracket p.kind = true)
    (hsame : Same p.kind .start S) : Moves ⟨ready, out, p :: S⟩ ⟨ready, out, S⟩ := by
  have hp : p.patch = none := h.head_formed.patch_eq_none_of_bracket (ne_op_of_isBracket hk)
  have hS := (h.stacked_of_isBracket hk).tail (ne_start_of_isBracket hk)
  refine h.same ?_ (.inl (hS.congr hsame)) h.tail_formed
  rw [tally, tally, waits_cons_none hp, height, height, base, weight_of_isBracket hk, hsame.base_eq]
  simp

/-! ### Operators -/

/-- An operator comes to wait; it may have taken the value just read. -/
theorem Sound.push {ready' : Bool} (h : Sound ⟨ready, out, S⟩) (hS : Stacked .start S)
    (hk : p.kind = .op o) (hp : p.patch = none) (hform : Formed out p)
    (htop : Rests .start p ∨ ready' = true ∧ Complete p)
    (hcount : (held o p.args + if ready' then 1 else 0)
      = (if ready then 1 else 0) + if defers .start o then 0 else 1) :
    Moves ⟨ready, out, S⟩ ⟨ready', out, p :: S⟩ := by
  have hS' : Stacked p.kind S := by
    rw [hk]
    exact stacked_op_iff.mpr hS
  refine h.same ?_ ?_ (List.forall_mem_cons.mpr ⟨hform, h.formed⟩)
  · rw [tally, tally, waits_cons_none hp, height, height, base, weight_op hk, hk, base_op]
    congr 1
    cases ready <;> cases ready' <;> cases hd : defers .start o
    all_goals
      simp only [hd, if_true, Bool.false_eq_true, if_false] at hcount ⊢
      omega
  · rcases htop with hr | ⟨hready, hc⟩
    · exact .inl (.cons (by rw [hk]; exact nofun) hr hS')
    · exact .inr ⟨hready, p, S, rfl, hc, hS'⟩

/-- A call or an index is opened; it may have taken the value just read. -/
theorem Sound.push_bracketed {b f : Pending} (h : Sound ⟨ready, out, S⟩) (hS : Stacked .start S)
    (hb : isBracket b.kind = true) (hbp : b.patch = none) (hf : f.kind = .op o) (hfp : f.patch = none)
    (hform : Formed out f) (hd : defers b.kind o = true) (hvar : o = .var → f.args = 0)
    (hcount : held o f.args = if ready then 1 else 0) :
    Moves ⟨ready, out, S⟩ ⟨false, out, b :: f :: S⟩ := by
  refine h.same ?_ (.inl (.cons (ne_start_of_isBracket hb) ?_ (.cons ?_ ?_ ?_))) ?_
  · rw [tally, tally, waits_cons_none hbp, waits_cons_none hfp, height, height, base, base,
      weight_of_isBracket hb, weight_op hf, hf, hd, base_op, hcount]
    congr 1
    cases ready with
    | true => simp; omega
    | false => simp
  · exact rests_of_isBracket hb
  · rw [hf]
    exact nofun
  · exact rests_deferred hf hd hvar
  · rw [hf]
    exact stacked_op_iff.mpr hS
  · exact List.forall_mem_cons.mpr
      ⟨formed_of_isBracket hb hbp, List.forall_mem_cons.mpr ⟨hform, h.formed⟩⟩

section Bracketed

variable {b f f' : Pending}

/-- What is on top of a bracketed operator and below it. -/
theorem Sound.bracketed (h : Sound ⟨ready, out, b :: f :: S⟩) (hb : isBracket b.kind = true)
    (hf : f.kind = .op o) : b.patch = none ∧ Formed out f ∧ f.kind ≠ .start ∧ Stacked f.kind S := by
  have hfk : f.kind ≠ .start := by rw [hf]; exact nofun
  refine ⟨?_, h.tail_formed f List.mem_cons_self, hfk, ?_⟩
  · exact h.head_formed.patch_eq_none_of_bracket (ne_op_of_isBracket hb)
  · exact ((h.stacked_of_isBracket hb).tail (ne_start_of_isBracket hb)).tail hfk

/-- A function counts the argument just read. -/
theorem Sound.count (h : Sound ⟨true, out, b :: f :: S⟩) (hb : isBracket b.kind = true)
    (hf : f.kind = .op o) (hf' : f'.kind = .op o) (hd : defers b.kind o = true) (hvar : o ≠ .var)
    (hform : Formed out f') (hp : f'.patch = f.patch) (hcount : held o f'.args = held o f.args + 1) :
    Moves ⟨true, out, b :: f :: S⟩ ⟨false, out, b :: f' :: S⟩ := by
  obtain ⟨hbp, -, hfk, hS⟩ := h.bracketed hb hf
  have hfk' : f'.kind = f.kind := hf'.trans hf.symm
  refine h.same ?_ (.inl (.cons (ne_start_of_isBracket hb) ?_ (.cons ?_ ?_ ?_))) ?_
  · rw [tally, tally, waits_cons_none hbp, waits_cons_none hbp, waits, waits, hp, hfk', height, height,
      base, base, base, base, weight_of_isBracket hb, weight_op hf, weight_op hf', hd, hcount, hfk']
    congr 1
    simp
    omega
  · exact rests_of_isBracket hb
  · rw [hfk']
    exact hfk
  · exact rests_deferred hf' hd (fun hv => absurd hv hvar)
  · rw [hfk']
    exact hS
  · exact List.forall_mem_cons.mpr ⟨h.head_formed, List.forall_mem_cons.mpr
      ⟨hform, fun q hq => h.tail_formed q (List.mem_cons_of_mem f hq)⟩⟩

/-- The bracket is closed; the operator counts the operand just read, if there is one. -/
theorem Sound.close (h : Sound ⟨ready, out, b :: f :: S⟩) (hb : isBracket b.kind = true)
    (hf : f.kind = .op o) (hf' : f'.kind = .op o) (hd : defers b.kind o = true)
    (hd' : defers .start o = false) (hform : Formed out f') (hp : f'.patch = f.patch)
    (hcount : held o f'.args = held o f.args + if ready then 1 else 0)
    (htop : Rests .start f' ∨ Complete f') :
    Moves ⟨ready, out, b :: f :: S⟩ ⟨true, out, f' :: S⟩ := by
  obtain ⟨hbp, -, hfk, hS⟩ := h.bracketed hb hf
  have hfk' : f'.kind = f.kind := hf'.trans hf.symm
  refine h.same ?_ ?_ ?_
  · rw [tally, tally, waits_cons_none hbp, waits, waits, hp, hfk', height, height, base, base, base,
      weight_of_isBracket hb, weight_op hf, weight_op hf', hd, hd', hcount, hfk']
    congr 1
    cases ready with
    | true => simp
    | false => simp; omega
  · rw [← hfk'] at hfk hS
    rcases htop with hr | hc
    · exact .inl (.cons hfk hr hS)
    · exact .inr ⟨rfl, f', S, rfl, hc, hS⟩
  · exact List.forall_mem_cons.mpr ⟨hform, fun q hq => h.tail_formed q (List.mem_cons_of_mem f hq)⟩

/-- The arguments of a call have all been read. -/
theorem Sound.close_call {args : Nat} (h : Sound ⟨ready, out, b :: f :: S⟩) (hb : b.kind = .openRound)
    (hf : f.kind = .op o) (ho : o.isFunction = true)
    (hargs : args = f.args + if ready then 1 else 0) (hmin : o.info.minArgs ≤ args)
    (hmax : ready = true → args ≤ o.info.maxArgs) :
    Moves ⟨ready, out, b :: f :: S⟩ ⟨true, out, { f with args } :: S⟩ := by
  have hb' : isBracket b.kind = true := by rw [hb]; rfl
  have hd : defers b.kind o = true := by rw [hb]; exact defers_openRound ho
  have hd' : defers .start o = false := defers_start (Op.ne_of_isFunction ho rfl)
  obtain ⟨-, hform, -, -⟩ := h.bracketed hb' hf
  obtain ⟨hform', hheld, hdone⟩ := hform.closed hf ho hargs hmin hmax
  refine h.close hb' hf hf hd hd' hform' rfl hheld ?_
  rcases hdone with hone | ⟨hmin₀, hzero⟩
  · exact .inl (rests_counted (p := { f with args }) hf (Op.ne_of_isFunction ho rfl) hone)
  · exact .inr ⟨o, hf, .inr ⟨ho, hmin₀, hzero⟩⟩

/-- The index of a variable has been read. -/
theorem Sound.close_index (h : Sound ⟨true, out, b :: p :: S⟩) (hb : b.kind = .openSquare)
    (hk : p.kind = .op .var) :
    Moves ⟨true, out, b :: p :: S⟩ ⟨true, out, { p with args := p.args + 1 } :: S⟩ := by
  have hb' : isBracket b.kind = true := by rw [hb]; rfl
  have hd : defers b.kind .var = true := by rw [hb]; rfl
  obtain ⟨-, hform, -, -⟩ := h.bracketed hb' hk
  have hp := hform.patch_eq_none hk rfl
  -- no index has been counted yet, because there is only one
  have hzero : p.args = 0 := by
    have hS := (h.stacked_of_isBracket hb').tail (ne_start_of_isBracket hb')
    rcases hS.rests .var hk with ⟨-, hzero⟩ | ⟨hne, -⟩
    · exact hzero rfl
    · exact absurd rfl hne
  refine h.close hb' hk hk hd rfl (formed_of_isPlain hk rfl hp nofun) rfl rfl (.inr ?_)
  exact ⟨.var, hk, .inl ⟨rfl, congrArg (· + 1) hzero⟩⟩

end Bracketed

/-! ### Instructions -/

theorem height_push (hk : p.kind = .op o) (ready : Bool) :
    height ready (p :: S) = held o p.args - (if defers .start o then 0 else 1) + height ready S := by
  rw [height, height, base, weight_op hk, hk, base_op]
  omega

/-- What an operator on top has counted, and what is below it. -/
theorem Sound.operator (h : Sound ⟨ready, out, p :: S⟩) (hk : p.kind = .op o) :
    Stacked .start S ∧ (Rests .start p ∨ Complete p) := by
  have hpk : p.kind ≠ .start := by rw [hk]; exact nofun
  rcases h.topped with hS | ⟨-, q, S', heq, hc, hS⟩
  · have hS' := hS.tail hpk
    rw [hk] at hS'
    exact ⟨stacked_op_iff.mp hS', .inl hS.rests⟩
  · cases heq
    rw [hk] at hS
    exact ⟨stacked_op_iff.mp hS, .inr hc⟩

/-- A plain operation with all its operands is emitted. -/
theorem Sound.emit_plain (h : Sound ⟨true, out, p :: S⟩) (hk : p.kind = .op o)
    (ho : isPlain o = true) (hne : o ≠ .tuple) :
    Moves ⟨true, out, p :: S⟩ ⟨true, out ++ [⟨o, p.literal, p.args⟩], S⟩ := by
  obtain ⟨hS, htop⟩ := h.operator hk
  -- a variable that has come to the top has had its index counted
  have hvar : o = .var → p.args ≤ 1 := by
    rintro rfl
    rcases htop with hr | ⟨o', ho', ⟨-, hone⟩ | ⟨-, -, hzero⟩⟩
    · rcases hr .var hk with ⟨hd, -⟩ | ⟨hv, -⟩
      · cases hd
      · exact absurd rfl hv
    · exact Nat.le_of_eq hone
    · omega
  refine h.emit (falls_of_isPlain ho _ _) (jumps_of_isPlain ho _ _) ?_ ?_ hS h.tail_formed
  · rw [waits_cons_none (h.head_formed.patch_eq_none hk ho)]
  · rw [height_push hk, defers_start hne, held_of_isPlain ho, pops_of_isPlain ho _ hvar]
    simp
    omega

/-- A tuple is emitted, with the item just read if there is one. -/
theorem Sound.emit_tuple {args : Nat} (h : Sound ⟨ready, out, p :: S⟩) (hk : p.kind = .op .tuple)
    (hargs : args = p.args + if ready then 1 else 0) :
    Moves ⟨ready, out, p :: S⟩ ⟨true, out ++ [{ op := .tuple, argCount := args }], S⟩ := by
  obtain ⟨hS, -⟩ := h.operator hk
  refine h.emit rfl rfl ?_ ?_ hS h.tail_formed
  · rw [waits_cons_none (h.head_formed.patch_eq_none hk rfl)]
  · rw [height_push hk]
    show height true S + ((args : Nat) : Int) = (p.args : Int) - 0 + height ready S + 1
    rw [hargs, height, height]
    cases ready <;> simp <;> omega

/-- A tuple counts the item just read. -/
theorem Sound.count_item {args : Nat} (h : Sound ⟨true, out, p :: S⟩) (hk : p.kind = .op .tuple)
    (hargs : args = p.args + 1) : Moves ⟨true, out, p :: S⟩ ⟨false, out, { p with args } :: S⟩ := by
  obtain ⟨hS, -⟩ := h.operator hk
  have hp := h.head_formed.patch_eq_none hk rfl
  have hk' : ({ p with args } : Pending).kind = .op .tuple := hk
  refine h.same ?_ (.inl (.cons ?_ ?_ ?_)) (List.forall_mem_cons.mpr ⟨?_, h.tail_formed⟩)
  · rw [tally, tally, waits_cons_none hp, waits_cons_none (p := { p with args }) hp, height_push hk,
      height_push hk']
    congr 1
    show ((args : Nat) : Int) - 0 + height false S = (p.args : Int) - 0 + height true S
    rw [hargs, height, height]
    simp
    omega
  · rw [hk']
    exact nofun
  · exact rests_deferred hk' rfl nofun
  · rw [hk']
    exact stacked_op_iff.mpr hS
  · exact formed_of_isPlain hk' rfl hp nofun

/-- The value just read is replaced by another one. -/
theorem Sound.emit_same {i : Instruction} (h : Sound ⟨true, out, S⟩) (hS : Stacked .start S)
    (hf : i.falls = some 1) (hj : i.jumps = none) (hpops : i.pops = 1) :
    Moves ⟨true, out, S⟩ ⟨true, out ++ [i], S⟩ := by
  refine h.emit hf hj rfl ?_ hS h.formed
  rw [hpops]
  rfl

/-- The last operand of an operator that jumps has been read: the jump leads here. -/
theorem Sound.land {j : Nat} (h : Sound ⟨true, out, p :: S⟩) (hk : p.kind = .op o)
    (hd : defers .start o = false) (hj : p.patch = some j) (hl : Leads out p 1)
    (hheld : held o p.args = 1) :
    Moves ⟨true, out, p :: S⟩ ⟨true, patched out j, S⟩ := by
  obtain ⟨hS, -⟩ := h.operator hk
  obtain ⟨j', i, k, hj', hi, hjumps, hland⟩ := hl
  cases hj.symm.trans hj'
  obtain ⟨⟨target, k'⟩, hjump, rfl⟩ := Option.map_eq_some_iff.mp hjumps
  have hheight : height true (p :: S) = height true S := by
    rw [height_push hk, hd, hheld]
    simp
  have hkeeps := Tally.keeps_patched h.proper (waits_cons_some hj) hi hjump (by
    show height true (p :: S) + i.pops = base p.kind S + 1 + k'
    rw [hheight, hk, base_op, height]
    simp only [if_true]
    omega)
  rw [show (tally ⟨true, out, p :: S⟩).height = height true S from hheight] at hkeeps
  refine ⟨⟨.inl hS, ?_, hkeeps.proper⟩, hkeeps⟩
  intro q hq
  exact (h.tail_formed q hq).extend (extends_patched out j)

/-- A condition has been read: a jump takes it. -/
theorem Sound.emit_jump {i : Instruction} {S' : List Pending} (h : Sound ⟨true, out, S⟩)
    (hf : i.falls = some 0) (hpops : i.pops = 1)
    (hw : waits S' = (out.length, height true S) :: waits S)
    (hh : height false S' + 1 = height true S) (hS' : Stacked .start S')
    (hform : ∀ p ∈ S', Formed (out ++ [i]) p) :
    Moves ⟨true, out, S⟩ ⟨false, out ++ [i], S'⟩ := by
  have hzero : 0 ≤ height false S' := by
    have := hS'.base_nonneg
    simpa [height] using this
  have hkeeps := Tally.keeps_append h.proper (.inr rfl) hf
    (show i.pops ≤ height true S by rw [hpops]; omega)
  have heq : tally ⟨false, out ++ [i], S'⟩
      = ⟨out ++ [i], (out.length, height true S) :: waits S, height true S - i.pops + (0 : Nat)⟩ := by
    rw [tally, hw, hpops]
    refine congrArg _ ?_
    show height false S' = _
    omega
  refine ⟨⟨.inl hS', hform, ?_⟩, ?_⟩
  · rw [heq]
    exact hkeeps.proper
  · rw [heq]
    exact hkeeps

/-- `AND` or `OR` comes to wait, and a jump takes its left side. -/
theorem Sound.push_logic {i : Instruction} (h : Sound ⟨true, out, S⟩) (hS : Stacked .start S)
    (hk : p.kind = .op o) (ho : o = .and ∨ o = .or) (hargs : p.args = 2)
    (hp : p.patch = some out.length) (hf : i.falls = some 0) (hpops : i.pops = 1)
    (hj : i.jumps = some (0, 1)) : Moves ⟨true, out, S⟩ ⟨false, out ++ [i], p :: S⟩ := by
  have hheld : held o p.args = 1 := by
    rw [hargs]
    rcases ho with rfl | rfl <;> rfl
  have hd : defers .start o = false := by rcases ho with rfl | rfl <;> rfl
  refine h.emit_jump hf hpops ?_ ?_ (.cons ?_ ?_ ?_) (List.forall_mem_cons.mpr ⟨?_, ?_⟩)
  · rw [waits_cons_some hp, hk, base_op]
    rfl
  · rw [height_push hk, hheld, hd, height, height]
    simp
  · rw [hk]
    exact nofun
  · refine rests_counted hk ?_ (Nat.le_of_eq hheld.symm)
    rcases ho with rfl | rfl <;> exact nofun
  · rw [hk]
    exact stacked_op_iff.mpr hS
  · refine (formed_logic_iff hk ho).mpr ⟨hargs, out.length, i, 1, hp, ?_, ?_, ?_⟩
    · exact List.getElem?_concat_length
    · rw [hj]
      rfl
    · rw [hpops]
  · intro q hq
    exact (h.formed q hq).extend (extends_append out [i])

section Choice

variable {b f : Pending}

/-- A choice whose bracket is open holds nothing until its third value. -/
theorem height_choice (hb : b.kind = .openRound) (hf : f.kind = .op .iif) (ready : Bool) :
    height ready (b :: f :: S) = (f.args - 2 : Nat) + base f.kind S + if ready then 1 else 0 := by
  have hb' : isBracket b.kind = true := by rw [hb]; rfl
  rw [height, base, base, weight_of_isBracket hb', weight_op hf, hb]
  show (0 : Int) + (((f.args - 2 : Nat) : Int) - 0 + base f.kind S) + _ = _
  omega

/-- The condition of a choice has been read. -/
theorem Sound.choose {f' : Pending} (h : Sound ⟨true, out, b :: f :: S⟩) (hb : b.kind = .openRound)
    (hf : f.kind = .op .iif) (hargs : f.args = 0) (hf' : f'.kind = .op .iif) (hargs' : f'.args = 1)
    (hp' : f'.patch = some out.length) :
    Moves ⟨true, out, b :: f :: S⟩ ⟨false, out ++ [{ op := .jumpUnless 0 }], b :: f' :: S⟩ := by
  have hb' : isBracket b.kind = true := by rw [hb]; rfl
  obtain ⟨hbp, hform, -, -⟩ := h.bracketed hb' hf
  have hp : f.patch = none := by
    rcases (formed_iif_iff hf).mp hform with ⟨-, hp⟩ | ⟨h1, -⟩ | ⟨h23, -⟩
    · exact hp
    · omega
    · omega
  have hkind : f'.kind = f.kind := hf'.trans hf.symm
  refine h.emit_jump rfl rfl ?_ ?_ ((h.stacked_of_isBracket hb').choice hb hf hf')
    (List.forall_mem_cons.mpr ⟨?_, List.forall_mem_cons.mpr ⟨?_, ?_⟩⟩)
  · rw [waits_cons_none hbp, waits_cons_none hbp, waits_cons_some hp', waits_cons_none hp,
      height_choice hb hf, hargs, hkind]
    simp
  · rw [height_choice hb hf, height_choice hb hf', hargs, hargs', hkind]
    simp
  · exact formed_of_isBracket hb' hbp
  · have hlead : Leads (out ++ [{ op := .jumpUnless 0 }]) f' 0 :=
      ⟨out.length, { op := .jumpUnless 0 }, 0, hp', List.getElem?_concat_length, rfl, rfl⟩
    exact (formed_iif_iff hf').mpr (.inr (.inl ⟨hargs', hlead⟩))
  · intro q hq
    exact (h.tail_formed q (List.mem_cons_of_mem f hq)).extend (extends_append out _)

/-- A value of a choice has been read: a jump leads past the others, and the one before it here. -/
theorem Sound.choose_next (h : Sound ⟨true, out, b :: f :: S⟩) (f' : Pending)
    (hb : b.kind = .openRound) (hf : f.kind = .op .iif) (hargs : 1 ≤ f.args) (hmax : f.args ≤ 2)
    (hf' : f'.kind = .op .iif) (hargs' : f'.args = f.args + 1) (hp' : f'.patch = some out.length) :
    ∃ j, f.patch = some j ∧ Moves ⟨true, out, b :: f :: S⟩
      ⟨false, patched (out ++ [{ op := .jump 0 }]) j, b :: f' :: S⟩ := by
  have hb' : isBracket b.kind = true := by rw [hb]; rfl
  obtain ⟨hbp, hform, -, hS⟩ := h.bracketed hb' hf
  have hkind : f'.kind = f.kind := hf'.trans hf.symm
  -- behind the condition the jump lands with no value, behind the first value with that one
  have hleads : Leads out f (f.args - 1) := by
    rcases (formed_iif_iff hf).mp hform with ⟨h0, -⟩ | ⟨h1, hl⟩ | ⟨h23, hl⟩
    · omega
    · rw [h1]
      exact hl
    · rw [show f.args = 2 by omega]
      exact hl
  obtain ⟨j, i, k, hp, hi, hjumps, hland⟩ := hleads
  obtain ⟨⟨target, k'⟩, hjump, rfl⟩ := Option.map_eq_some_iff.mp hjumps
  have hbase := hS.base_nonneg
  have hheight : height true (b :: f :: S) = base f.kind S + 1 := by
    rw [height_choice hb hf, show f.args - 2 = 0 by omega]
    simp
  have hheight' : height false (b :: f' :: S) = (f.args - 1 : Nat) + base f.kind S := by
    rw [height_choice hb hf', hkind, hargs']
    simp
  have hw : waits (b :: f :: S) = (j, base f.kind S + 1) :: waits S := by
    rw [waits_cons_none hbp, waits_cons_some hp]
  have hkeeps := Tally.keeps_exchange { op := .jump 0 } (height false (b :: f' :: S)) h.proper hw hi
    hjump rfl (by
      show (0 : Int) ≤ height true (b :: f :: S)
      omega) (by rw [hheight']; omega) (by rw [hheight']; omega)
  have heq : tally ⟨false, patched (out ++ [{ op := .jump 0 }]) j, b :: f' :: S⟩
      = ⟨patched (out ++ [{ op := .jump 0 }]) j, (out.length, height true (b :: f :: S)) :: waits S,
        height false (b :: f' :: S)⟩ := by
    rw [tally, waits_cons_none hbp, waits_cons_some hp', hheight, hkind]
  refine ⟨j, hp, ⟨.inl ((h.stacked_of_isBracket hb').choice hb hf hf'), ?_, ?_⟩, ?_⟩
  · refine List.forall_mem_cons.mpr ⟨formed_of_isBracket hb' hbp, List.forall_mem_cons.mpr ⟨?_, ?_⟩⟩
    · have hlead : Leads (out ++ [{ op := .jump 0 }]) f' 1 :=
        ⟨out.length, { op := .jump 0 }, 0, hp', List.getElem?_concat_length, rfl, rfl⟩
      refine (formed_iif_iff hf').mpr (.inr (.inr ⟨by omega, ?_⟩))
      exact hlead.extend (extends_patched _ j)
    · intro q hq
      exact ((h.tail_formed q (List.mem_cons_of_mem f hq)).extend (extends_append out _)).extend
        (extends_patched _ j)
  · rw [heq]
    exact hkeeps.proper
  · rw [heq]
    exact hkeeps

end Choice

end State

end Compiler

end QuestScript
