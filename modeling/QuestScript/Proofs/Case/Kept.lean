import QuestScript.Proofs.Case.Compile
import QuestScript.Proofs.Expr.Misread

/-!
# The name of a location is kept for its call

A call of a location by name puts the name on the stack, then its arguments, and then it takes them all. In
balanced code nothing in between reaches down to the name or leaps over the call (`Kept`).

While the call is compiled, the operator that takes the name waits below the bracket of its arguments
(`Calling`), or on top when all of them have been read. A value that is put on the stack meanwhile lies above
the name, because what waits above the bracket has all its operands there.
-/

namespace QuestScript

namespace Compiler

variable {source : List Char} {sp : Span} {out out' : List Instruction} {S S' : List Pending}
  {p b f f' : Pending} {o : Op} {ready ready' : Bool} {depth : Nat → Nat} {n : Nat} {above : Pending.Kind}

/-! ## Depths that are expected -/

/-- The depths are those that the state of the compiler expects. -/
structure State.Agrees (depth : Nat → Nat) (s : State) : Prop where
  solves : Solves s.out s.tally.opens depth
  exact : ∀ x ∈ s.tally.lags depth, x = 0

/-- Depths that agree with a state agree with the states before it. -/
theorem State.Moves.agrees {s s' : State} (h : Moves s s') (hd : s'.Agrees depth) : s.Agrees depth :=
  ⟨h.keeps.back hd.solves, fun x hx => hd.exact x ((h.keeps.lags hd.solves x).mpr hx)⟩

theorem State.Agrees.depth_eq (h : State.Agrees depth ⟨ready, out, S⟩) :
    (depth out.length : Int) = height ready S := by
  have hlag : height ready S - (depth out.length : Int) = 0 := h.exact _ List.mem_cons_self
  omega

/-! ## Jumps that wait -/

/-- The jumps that wait for their target. -/
def opens (S : List Pending) : List Nat := (waits S).map (·.1)

theorem opens_cons_none (hp : p.patch = none) : opens (p :: S) = opens S := by
  rw [opens, waits_cons_none hp, opens]

theorem opens_cons_some {j : Nat} (hp : p.patch = some j) : opens (p :: S) = j :: opens S := by
  rw [opens, waits_cons_some hp, opens, List.map_cons]

/-! ## Names on the stack -/

/-- The call of the name that instruction `n` has put on the stack, at depth `level`, reads its arguments.
The jumps that wait below it were there before the name. -/
inductive Calling (level n : Nat) : List Pending → Prop
  | bracket {b p : Pending} {S : List Pending} (hb : b.kind = .openRound) (hp : p.kind = .op (.func none))
    (hargs : 1 ≤ p.args) (hlevel : base p.kind S = level) (hjumps : ∀ j ∈ opens S, j < n) :
    Calling level n (b :: p :: S)
  | above {q : Pending} {S : List Pending} (h : Calling level n S) : Calling level n (q :: S)

/-- It has read them. -/
def Called (level n : Nat) (S : List Pending) : Prop :=
  ∃ p rest, S = p :: rest ∧ p.kind = .op (.func none) ∧ 1 ≤ p.args ∧ base p.kind rest = level ∧
    ∀ j ∈ opens rest, j < n

/-- Instruction `n` puts a name on the stack, and none behind it reaches down to it. -/
structure Lies (out : List Instruction) (depth : Nat → Nat) (n : Nat) : Prop where
  name : ∃ t, out[n]? = some { op := .push, literal := some (.text t) }
  spared {k : Nat} {i : Instruction} : n < k → out[k]? = some i → depth n + 1 + i.pops ≤ depth k

/-- The instructions behind `n`, up to the call at `f`, leave the name alone, and do not leap over the
call. -/
structure Kept (out : List Instruction) (opens : List Nat) (depth : Nat → Nat) (n f : Nat) : Prop where
  lt : n < f
  name : ∃ t, out[n]? = some { op := .push, literal := some (.text t) }
  call : ∃ i, out[f]? = some i ∧ i.op = .func none ∧ 1 ≤ i.argCount ∧ depth f = depth n + i.argCount
  spared {k : Nat} {i : Instruction} : n < k → k < f → out[k]? = some i → depth n + 1 + i.pops ≤ depth k
  closed {k : Nat} : n < k → k < f → k ∉ opens
  jumps {k target l : Nat} {i : Instruction} : n < k → k < f → out[k]? = some i →
    i.jumps = some (target, l) → target ≤ f

/-- The name has been taken, or its call reads its arguments. -/
inductive Held (depth : Nat → Nat) (n : Nat) : State → Prop
  | kept {s : State} {f : Nat} (h : Kept s.out (opens s.stack) depth n f) : Held depth n s
  | calling {s : State} (hS : Calling (depth n) n s.stack) (hn : Lies s.out depth n) : Held depth n s

/-- Or its call is next. -/
inductive Guarded (depth : Nat → Nat) (n : Nat) : State → Prop
  | held {s : State} (h : Held depth n s) : Guarded depth n s
  | called {s : State} (hr : s.ready = true) (hS : Called (depth n) n s.stack) (hn : Lies s.out depth n) :
    Guarded depth n s

theorem Guarded.of_not_ready {s : State} (h : Guarded depth n s) (hr : s.ready = false) : Held depth n s := by
  cases h with
  | held h => exact h
  | called hr' =>
    rw [hr] at hr'
    cases hr'

/-! ## The stack of operators -/

section Calling

variable {level : Nat}

theorem Calling.of_op (h : Calling level n (p :: S)) (hk : p.kind = .op o) : Calling level n S := by
  cases h with
  | bracket hb =>
    rw [hk] at hb
    cases hb
  | above h => exact h

/-- A bracket is closed that is not the one of the call. -/
theorem Calling.of_not_isFunction (h : Calling level n (b :: S)) (hS : (top S).isFunction = false) :
    Calling level n S := by
  cases h with
  | @bracket b p S hb hp =>
    replace hS : p.kind.isFunction = false := hS
    rw [hp] at hS
    cases hS
  | above h => exact h

/-- An operator below a bracket counts an operand. -/
theorem Calling.replace (h : Calling level n (b :: f :: S)) (hk : f'.kind = f.kind) (hargs : f.args ≤ f'.args) :
    Calling level n (b :: f' :: S) := by
  cases h with
  | bracket hb hp hone hlevel hjumps =>
    exact .bracket hb (hk.trans hp) (Nat.le_trans hone hargs) (by rw [hk]; exact hlevel) hjumps
  | above h =>
    cases h with
    | bracket hb hp hone hlevel hjumps => exact .above (.bracket (hk.trans hb) hp hone hlevel hjumps)
    | above h => exact .above (.above h)

/-- All that waits above the name is above it on the stack of values. -/
theorem Calling.lt_base (h : Calling level n S) (hS : Stacked above S) : level + 1 ≤ base above S := by
  induction h generalizing above with
  | @bracket b p S hb hp hargs hlevel hjumps =>
    have hb' : isBracket b.kind = true := by rw [hb]; rfl
    rw [base, base, weight_of_isBracket hb', weight_op hp, hlevel, hb]
    show (level : Int) + 1 ≤ 0 + (((p.args : Nat) : Int) - 0 + level)
    omega
  | @above q S h ih =>
    cases hS with
    | bottom hk => cases h
    | cons hk hp hS =>
      have := ih hS
      have := hp.weight_nonneg
      rw [base]
      omega

end Calling

/-! ## States -/

theorem Lies.lt (h : Lies out depth n) : n < out.length := by
  obtain ⟨t, ht⟩ := h.name
  exact (List.getElem?_eq_some_iff.mp ht).1

theorem Lies.emit {i : Instruction} (h : Lies out depth n)
    (hpops : depth n + 1 + i.pops ≤ depth out.length) : Lies (out ++ [i]) depth n := by
  obtain ⟨t, ht⟩ := h.name
  refine ⟨⟨t, by rw [List.getElem?_append_left h.lt, ht]⟩, ?_⟩
  intro k i' hn hi
  by_cases hk : k < out.length
  · rw [List.getElem?_append_left hk] at hi
    exact h.spared hn hi
  · have hlen := (List.getElem?_eq_some_iff.mp hi).1
    rw [List.length_append, List.length_singleton] at hlen
    obtain rfl : k = out.length := by omega
    rw [List.getElem?_concat_length] at hi
    cases hi
    exact hpops

/-- What puts a text on the stack is no jump. -/
theorem getElem?_patched_push {j : Nat} {t : String}
    (h : out[n]? = some { op := .push, literal := some (.text t) }) :
    (patched out j)[n]? = some { op := .push, literal := some (.text t) } := by
  by_cases hj : n = j
  · subst hj
    exact getElem?_patched_self h
  · rw [getElem?_patched_of_ne hj, h]

theorem Lies.patch (h : Lies out depth n) (j : Nat) : Lies (patched out j) depth n := by
  obtain ⟨t, ht⟩ := h.name
  refine ⟨⟨t, getElem?_patched_push ht⟩, ?_⟩
  intro k i hn hi
  obtain ⟨i₁, h₁, ⟨-, rfl⟩ | ⟨-, rfl⟩⟩ := getElem?_of_patched hi
  · rw [pops_retargeted]
    exact h.spared hn h₁
  · exact h.spared hn h₁

theorem Kept.emit {opens opens' : List Nat} {f : Nat} (h : Kept out opens depth n f) (i : Instruction)
    (hopens : ∀ j ∈ opens', j ∈ opens ∨ j = out.length) : Kept (out ++ [i]) opens' depth n f := by
  obtain ⟨c, hc, hop, hargs, hdepth⟩ := h.call
  have hlt : f < out.length := (List.getElem?_eq_some_iff.mp hc).1
  have hold {k : Nat} {i' : Instruction} (hk : k < f) (hi : (out ++ [i])[k]? = some i') : out[k]? = some i' := by
    rwa [List.getElem?_append_left (Nat.lt_trans hk hlt)] at hi
  obtain ⟨t, ht⟩ := h.name
  refine ⟨h.lt, ⟨t, ?_⟩, ⟨c, ?_, hop, hargs, hdepth⟩, fun hn hk hi => h.spared hn hk (hold hk hi), ?_,
    fun hn hk hi => h.jumps hn hk (hold hk hi)⟩
  · rw [List.getElem?_append_left (Nat.lt_trans h.lt hlt), ht]
  · rw [List.getElem?_append_left hlt, hc]
  · intro k hn hk hmem
    rcases hopens k hmem with hmem | rfl
    · exact h.closed hn hk hmem
    · exact Nat.lt_irrefl _ (Nat.lt_trans hk hlt)

/-- A jump that waits is not between a name and its call, so giving it its target changes nothing there.
Another one may come to wait behind all calls. -/
theorem Kept.patch {opens opens' : List Nat} {f j : Nat} (h : Kept out opens depth n f) (hj : j ∈ opens)
    (hopens : ∀ k ∈ opens', k ∈ opens ∨ out.length ≤ k + 1) : Kept (patched out j) opens' depth n f := by
  have hold {k : Nat} {i : Instruction} (hn : n < k) (hk : k < f) (hi : (patched out j)[k]? = some i) :
      out[k]? = some i := by
    rwa [getElem?_patched_of_ne] at hi
    rintro rfl
    exact h.closed hn hk hj
  obtain ⟨c, hc, hop, hargs, hdepth⟩ := h.call
  obtain ⟨t, ht⟩ := h.name
  refine ⟨h.lt, ⟨t, getElem?_patched_push ht⟩, ?_, fun hn hk hi => h.spared hn hk (hold hn hk hi), ?_,
    fun hn hk hi => h.jumps hn hk (hold hn hk hi)⟩
  · by_cases hf : f = j
    · subst hf
      refine ⟨_, getElem?_patched_self hc, ?_, hargs, hdepth⟩
      rw [retargeted, hop]
      rfl
    · exact ⟨c, by rw [getElem?_patched_of_ne hf, hc], hop, hargs, hdepth⟩
  · intro k hn hk hmem
    rcases hopens k hmem with hmem | hlen
    · exact h.closed hn hk hmem
    · have hlt : f < out.length := (List.getElem?_eq_some_iff.mp hc).1
      omega

theorem Held.same (h : Held depth n ⟨ready, out, S⟩) (hopens : opens S' = opens S)
    (hS : Calling (depth n) n S → Calling (depth n) n S') : Held depth n ⟨ready', out, S'⟩ := by
  cases h with
  | @kept f h =>
    replace h : Kept out (opens S) depth n f := h
    rw [← hopens] at h
    exact .kept h
  | calling hc hn => exact .calling (hS hc) hn

/-- An instruction that does not reach down to the name. -/
theorem Held.emit {i : Instruction} (h : Held depth n ⟨ready, out, S⟩)
    (hd : State.Agrees depth ⟨ready, out, S⟩) (hopens : ∀ j ∈ opens S', j ∈ opens S ∨ j = out.length)
    (hS : Calling (depth n) n S → Calling (depth n) n S')
    (hpops : Calling (depth n) n S → depth n + 1 + (i.pops : Int) ≤ height ready S) :
    Held depth n ⟨ready', out ++ [i], S'⟩ := by
  cases h with
  | kept h => exact .kept (h.emit i hopens)
  | calling hc hn =>
    have hheight : (depth out.length : Int) = height ready S := hd.depth_eq
    have := hpops hc
    refine .calling (hS hc) (hn.emit ?_)
    show depth n + 1 + i.pops ≤ depth out.length
    omega

/-- A jump gets its target. -/
theorem Held.patch {j : Nat} (h : Held depth n ⟨ready, out, S⟩) (hj : j ∈ opens S)
    (hopens : ∀ k ∈ opens S', k ∈ opens S ∨ out.length ≤ k + 1)
    (hS : Calling (depth n) n S → Calling (depth n) n S') : Held depth n ⟨ready', patched out j, S'⟩ := by
  cases h with
  | kept h => exact .kept (h.patch hj hopens)
  | calling hc hn => exact .calling (hS hc) (hn.patch j)

/-- The call takes its name. -/
theorem Guarded.call {i : Instruction} (h : Called (depth n) n (p :: S)) (hn : Lies out depth n)
    (hs : State.Sound ⟨true, out, p :: S⟩) (hd : State.Agrees depth ⟨true, out, p :: S⟩)
    (hi : i = ⟨.func none, p.literal, p.args⟩) : Held depth n ⟨true, out ++ [i], S⟩ := by
  obtain ⟨_, _, heq, hk, hargs, hlevel, hjumps⟩ := h
  cases heq
  have hp : p.patch = none := hs.head_formed.patch_eq_none hk rfl
  have hopen : ∀ j ∈ (State.tally ⟨true, out, p :: S⟩).opens, j < n := by
    intro j hj
    refine hjumps j ?_
    rwa [← opens_cons_none hp]
  have hdepth : depth out.length = depth n + p.args := by
    have hheight := hd.depth_eq
    rw [State.height_push hk, height, ← base_op (.func none) S, ← hk, hlevel] at hheight
    replace hheight : (depth out.length : Int) = (p.args : Int) - 1 + (depth n + 1) := hheight
    omega
  obtain ⟨t, ht⟩ := hn.name
  have hname : (out ++ [i])[n]? = some { op := .push, literal := some (.text t) } := by
    rw [List.getElem?_append_left hn.lt, ht]
  have hcall : ∃ i', (out ++ [i])[out.length]? = some i' ∧ i'.op = .func none ∧ 1 ≤ i'.argCount ∧
      depth out.length = depth n + i'.argCount :=
    ⟨i, List.getElem?_concat_length, by rw [hi], by rwa [hi], by rwa [hi]⟩
  refine .kept (f := out.length) ⟨hn.lt, ⟨t, hname⟩, hcall, ?_, ?_, ?_⟩
  · intro k i' hlt hk' hi'
    rw [List.getElem?_append_left hk'] at hi'
    exact hn.spared hlt hi'
  · intro k hn _ hmem
    exact Nat.lt_asymm hn (hjumps k hmem)
  · intro k target l i' hn hk' hi' hjump
    rw [List.getElem?_append_left hk'] at hi'
    exact (hs.proper.forward hi' (fun hmem => Nat.lt_asymm hn (hopen k hmem)) hjump).2

/-! ## Operators -/

theorem opens_congr (hp : f'.patch = f.patch) : opens (f' :: S) = opens (f :: S) := by
  cases hf : f.patch with
  | none => rw [opens_cons_none hf, opens_cons_none (hp.trans hf)]
  | some j => rw [opens_cons_some hf, opens_cons_some (hp.trans hf)]

theorem pops_le_of_isPlain (h : isPlain o = true) (literal : Option Value) (args : Nat) :
    (⟨o, literal, args⟩ : Instruction).pops ≤ args := by
  cases o with
  | var => exact Nat.min_le_left _ _
  | _ => first | exact Nat.le_refl _ | cases h

/-- Above a name there is a value more than its depth, whenever one has just been read. -/
theorem Calling.lt_height (h : Calling (depth n) n S) (hS : Stacked .start S) :
    (depth n : Int) + 1 + 1 ≤ height true S := by
  have := h.lt_base hS
  rw [height]
  simp only [if_true]
  omega

/-- `AND` or `OR` with its right side. -/
theorem emitLogic_held {out' : Code} (h : emitOp out.toArray p o sp = .ok out') (hk : p.kind = .op o)
    (ho : o = .and ∨ o = .or) (hs : State.Sound ⟨true, out, p :: S⟩)
    (hd : State.Agrees depth ⟨true, out, p :: S⟩) (hg : Held depth n ⟨true, out, p :: S⟩) :
    Held depth n ⟨true, out'.toList, S⟩ := by
  obtain ⟨hargs, -⟩ := (formed_logic_iff hk ho).mp hs.head_formed
  obtain ⟨j, hj⟩ := hs.head_formed.patch_eq_some hk ho
  have hheight : height true (p :: S) = height true S := by
    rw [State.height_push hk, hargs]
    rcases ho with rfl | rfl
    all_goals
      show ((1 : Nat) : Int) - 1 + height true S = height true S
      omega
  have htruth : Held depth n ⟨true, out ++ [({ op := .truth, argCount := 1 } : Instruction)], p :: S⟩ := by
    refine hg.emit hd (fun _ hj => .inl hj) id fun hc => ?_
    rw [hheight]
    exact (hc.of_op hk).lt_height (hs.operator hk).1
  rw [emitOp_logic h ho, hj, patch_toArray]
  refine htruth.patch ?_ (fun k hk' => .inl ?_) fun hc => hc.of_op hk
  · rw [opens_cons_some hj]
    exact List.mem_cons_self
  · rw [opens_cons_some hj]
    exact List.mem_cons_of_mem _ hk'

/-- An operator takes what it has counted, and nothing below it. -/
theorem emitPlain_held (hk : p.kind = .op o) (ho : isPlain o = true) (hne : o ≠ .tuple)
    (hs : State.Sound ⟨true, out, p :: S⟩) (hd : State.Agrees depth ⟨true, out, p :: S⟩)
    (hg : Held depth n ⟨true, out, p :: S⟩) :
    Held depth n ⟨true, out ++ [⟨o, p.literal, p.args⟩], S⟩ := by
  have hp : p.patch = none := hs.head_formed.patch_eq_none hk ho
  refine hg.emit hd (fun j hj => .inl ?_) (fun hc => hc.of_op hk) fun hc => ?_
  · rwa [opens_cons_none hp]
  · have hpops := pops_le_of_isPlain ho p.literal p.args
    have hheight := (hc.of_op hk).lt_height (hs.operator hk).1
    rw [State.height_push hk, defers_start hne, held_of_isPlain ho]
    simp only [Bool.false_eq_true, if_false]
    omega

theorem emitOp_held {out' : Code} (h : emitOp out.toArray p o sp = .ok out') (hk : p.kind = .op o)
    (hne : o ≠ .tuple) (hs : State.Sound ⟨true, out, p :: S⟩)
    (hd : State.Agrees depth ⟨true, out, p :: S⟩) (hg : Guarded depth n ⟨true, out, p :: S⟩) :
    Held depth n ⟨true, out'.toList, S⟩ := by
  cases hg with
  | called hr hS hn =>
    obtain rfl : o = .func none := by
      obtain ⟨_, _, heq, hk', -⟩ := hS
      cases heq
      exact Pending.Kind.op.inj (hk.symm.trans hk')
    rw [emitOp_eq_ok h ⟨nofun, nofun, nofun⟩]
    exact Guarded.call hS hn hs hd rfl
  | held hg =>
    by_cases hlogic : o = .and ∨ o = .or
    · exact emitLogic_held h hk hlogic hs hd hg
    by_cases hiif : o = .iif
    · subst hiif
      cases h
      obtain ⟨j, hj, -⟩ := emitChoice_moves hk hs
      rw [hj, patch_toArray]
      refine hg.patch ?_ (fun k hk' => .inl ?_) fun hc => hc.of_op hk
      · rw [opens_cons_some hj]
        exact List.mem_cons_self
      · rw [opens_cons_some hj]
        exact List.mem_cons_of_mem _ hk'
    have hop : o ≠ .and ∧ o ≠ .or ∧ o ≠ .iif :=
      ⟨fun h => hlogic (.inl h), fun h => hlogic (.inr h), hiif⟩
    rw [emitOp_eq_ok h hop]
    exact emitPlain_held hk (hs.head_formed.isPlain hk hop) hne hs hd hg

theorem emitPending_held {out' : Code} (h : emitPending out.toArray p sp = .ok out')
    (hne : p.kind ≠ .op .tuple) (hs : State.Sound ⟨true, out, p :: S⟩)
    (hd : State.Agrees depth ⟨true, out'.toList, S⟩) (hg : Guarded depth n ⟨true, out, p :: S⟩) :
    Held depth n ⟨true, out'.toList, S⟩ := by
  obtain ⟨o, out₁, hk, hop, hcast⟩ := emitPending_eq_ok h
  have htuple : o ≠ .tuple := fun ho => hne (hk.trans (by rw [ho]))
  have hmoves := emitOp_moves hop hk htuple hs
  rw [hcast (show out₁ = out₁.toList.toArray from rfl)] at hd ⊢
  generalize p.cast = cast at hd ⊢
  cases cast with
  | none =>
    rw [castPiece, List.append_nil] at hd ⊢
    exact emitOp_held hop hk htuple hs (hmoves.agrees hd) hg
  | some ty =>
    have hS := (hs.operator hk).1
    have hlast := hmoves.sound.emit_same (i := { op := .cast ty, argCount := 1 }) hS rfl rfl rfl
    have hd₁ := hlast.agrees hd
    refine (emitOp_held hop hk htuple hs (hmoves.agrees hd₁) hg).emit hd₁ (fun _ hj => .inl hj) id fun hc => ?_
    exact hc.lt_height hS

/-- The call of a name binds as tightly as any operator, so it does not wait. -/
theorem Guarded.of_stop {r : Nat} (h : Guarded depth n ⟨ready, out, p :: S⟩) (hr : r ≤ 30)
    (hstop : p.priority = Op.barrier ∨ p.priority < r) : Held depth n ⟨ready, out, p :: S⟩ := by
  cases h with
  | held h => exact h
  | called _ hS =>
    obtain ⟨_, _, heq, hk, -⟩ := hS
    cases heq
    have hpriority : p.priority = 30 := by
      rw [Pending.priority, hk]
      rfl
    rw [hpriority] at hstop
    rcases hstop with hb | hlt
    · cases hb
    · omega

/-- Operators that bind more tightly are emitted, the call of a name among them. -/
theorem reduce_held {r : Nat} {c : Compiler} (hr : r ≤ 30) (h : reduce r sp S out.toArray = .ok c)
    (hs : State.Sound ⟨true, out, S⟩) (hd : State.Agrees depth (state true c))
    (hg : Guarded depth n ⟨true, out, S⟩) : Held depth n (state true c) := by
  induction S generalizing out with
  | nil =>
    cases h
    cases hg with
    | held hg => exact hg
    | called _ hS =>
      obtain ⟨_, _, heq, -⟩ := hS
      cases heq
  | cons p S ih =>
    rw [reduce] at h
    split at h
    · next hstop =>
      cases h
      exact hg.of_stop hr (by simpa using hstop)
    · next hgo =>
      obtain ⟨⟨out'⟩, h₁, h₂⟩ := bind_eq_ok h
      have hne : p.kind ≠ .op .tuple := by
        intro hk
        refine hgo ?_
        rw [Pending.priority, hk]
        rfl
      have hmoves := emitPending_moves h₁ hne hs
      have hrest := (reduce_moves hr h₂ hmoves.sound).1
      exact ih h₂ hmoves.sound (.held (emitPending_held h₁ hne hs (hrest.agrees hd) hg))

/-! ## Operator position -/

theorem closeTuple_held {c c' : Compiler} (h : closeTuple c sp = .ok c') (hs : (state true c).Sound)
    (hd : State.Agrees depth (state true c)) (hg : Held depth n (state true c)) :
    Held depth n (state true c') := by
  obtain ⟨out, S⟩ := c
  unfold closeTuple at h
  split at h
  · next p ps heq =>
    replace heq : S = p :: ps := heq
    subst heq
    split at h
    · next hk =>
      split at h
      · cases h
      · obtain ⟨out', h₁, h₂⟩ := bind_eq_ok h
        cases h₂
        unfold state
        rw [toList_of_emit h₁]
        refine Held.emit hg hd (fun j hj => .inl ?_) (fun hc => hc.of_op hk) fun hc => ?_
        · rwa [opens_cons_none (State.Sound.head_formed hs |>.patch_eq_none hk rfl)]
        · have hheight := (hc.of_op hk).lt_height (State.Sound.operator hs hk).1
          rw [State.height_push hk]
          show (depth n : Int) + 1 + ((p.args + 1 : Nat) : Int) ≤ (p.args : Int) - 0 + height true ps
          omega
    · cases h
      exact hg
  · cases h
    exact hg

/-- The arguments of a call have all been read; it may be the call of the name. -/
theorem closeCall_guarded {args : Nat} (hbp : b.patch = none) (hf : f.kind = .op o) (hargs : f.args ≤ args)
    (hg : Held depth n ⟨ready, out, b :: f :: S⟩) : Guarded depth n ⟨true, out, { f with args } :: S⟩ := by
  cases hg with
  | @kept g h =>
    replace h : Kept out (opens (b :: f :: S)) depth n g := h
    have hopens : opens ({ f with args } :: S) = opens (f :: S) := opens_congr rfl
    rw [opens_cons_none hbp, ← hopens] at h
    exact .held (.kept h)
  | calling hc hn =>
    cases hc with
    | bracket _ hp hone hlevel hjumps =>
      exact .called rfl ⟨_, _, rfl, hp, Nat.le_trans hone hargs, hlevel, hjumps⟩ hn
    | above hc => exact .held (.calling (.above (hc.of_op hf)) hn)

theorem closeRound_guarded {c c' : Compiler} (h : closeRound c sp = .ok c') (hs : (state true c).Sound)
    (hg : Held depth n (state true c)) : Guarded depth n (state true c') := by
  obtain ⟨b, S, hstack, hb, hcases⟩ := closeRound_eq_ok h
  have hb' : isBracket b.kind = true := by rw [hb]; rfl
  unfold state at hs hg ⊢
  rw [hstack] at hs hg
  have hbp : b.patch = none := hs.head_formed.patch_eq_none_of_bracket (ne_op_of_isBracket hb')
  rcases hcases with ⟨hS, rfl⟩ | ⟨f, rest, o, rfl, hf, ho, hmin, hmax, rfl⟩
  · exact .held (hg.same (opens_cons_none hbp).symm fun hc => hc.of_not_isFunction hS)
  · exact closeCall_guarded hbp hf (Nat.le_succ _) hg

theorem countIndex_held (ready : Bool) {b : Pending} (hb : b.kind = .openSquare) (hbp : b.patch = none)
    (hg : Held depth n ⟨ready, out, b :: S⟩) : Held depth n ⟨ready', out, countIndex S⟩ := by
  have hcalling : Calling (depth n) n (b :: S) → Calling (depth n) n S := by
    intro hc
    cases hc with
    | bracket hb' =>
      rw [hb] at hb'
      cases hb'
    | above hc => exact hc
  rcases countIndex_cases S with ⟨-, heq⟩ | ⟨v, rest, rfl, hv, heq⟩
  · rw [heq]
    exact hg.same (opens_cons_none hbp).symm hcalling
  · rw [heq]
    refine hg.same ?_ fun hc => .above ((hcalling hc).of_op hv)
    rw [opens_cons_none hbp]
    exact opens_congr rfl

theorem closeSquare_held {c c' : Compiler} (h : closeSquare c sp = .ok c') (hs : (state true c).Sound)
    (hg : Held depth n (state true c)) : Held depth n (state true c') := by
  obtain ⟨b, S, hstack, hb, rfl⟩ := closeSquare_eq_ok h
  have hb' : isBracket b.kind = true := by rw [hb]; rfl
  unfold state at hs hg ⊢
  rw [hstack] at hs hg
  exact countIndex_held true hb (hs.head_formed.patch_eq_none_of_bracket (ne_op_of_isBracket hb')) hg

/-- A jump waits below the bracket, instead of the one that waited there. -/
theorem mem_opens_exchange {j k : Nat} (hbp : b.patch = none) (hp : f'.patch = some k)
    (hj : j ∈ opens (b :: f' :: S)) : j ∈ opens (b :: f :: S) ∨ j = k := by
  rw [opens_cons_none hbp, opens_cons_some hp] at hj
  rw [opens_cons_none hbp]
  rcases List.mem_cons.mp hj with rfl | hj
  · exact .inr rfl
  · left
    cases hf : f.patch with
    | none => rwa [opens_cons_none hf]
    | some i =>
      rw [opens_cons_some hf]
      exact List.mem_cons_of_mem _ hj

theorem functionComma_held {c' : Compiler} (h : functionComma out.toArray b f o S sp = .ok c')
    (hb : b.kind = .openRound) (hf : f.kind = .op o) (hs : State.Sound ⟨true, out, b :: f :: S⟩)
    (hd : State.Agrees depth ⟨true, out, b :: f :: S⟩) (hg : Held depth n ⟨true, out, b :: f :: S⟩) :
    Held depth n (state false c') := by
  have hb' : isBracket b.kind = true := by rw [hb]; rfl
  obtain ⟨hbp, hform, -, -⟩ := hs.bracketed hb' hf
  have hS := hs.stacked_of_isBracket hb'
  have hreplace {f' : Pending} (hk : f'.kind = f.kind) (hargs : f'.args = f.args + 1) :
      Calling (depth n) n (b :: f :: S) → Calling (depth n) n (b :: f' :: S) :=
    fun hc => hc.replace hk (by omega)
  unfold functionComma at h
  dsimp only at h
  split at h
  · cases h
  · split at h
    · next hiif =>
      subst hiif
      split at h
      · obtain ⟨out', h₁, h₂⟩ := bind_eq_ok h
        cases h₂
        unfold state
        rw [toList_of_emit h₁]
        exact hg.emit hd (fun _ => mem_opens_exchange hbp rfl) (hreplace rfl rfl) fun hc => hc.lt_height hS
      · next hone =>
        obtain ⟨out', h₁, h₂⟩ := bind_eq_ok h
        cases h₂
        obtain ⟨j, hj⟩ : ∃ j, f.patch = some j := by
          rcases (formed_iif_iff hf).mp hform with ⟨h0, -⟩ | ⟨-, j, _, _, hj, -⟩ | ⟨-, j, _, _, hj, -⟩
          · omega
          · exact ⟨j, hj⟩
          · exact ⟨j, hj⟩
        have hjump : Held depth n ⟨true, out ++ [({ op := .jump 0 } : Instruction)], b :: f :: S⟩ := by
          refine hg.emit hd (fun _ hj => .inl hj) id fun hc => ?_
          have := hc.lt_height hS
          show (depth n : Int) + 1 + (0 : Nat) ≤ _
          omega
        unfold state
        rw [emit_eq_ok h₁, hj, patch_toArray]
        refine hjump.patch ?_ (fun k hk => ?_) (hreplace rfl rfl)
        · rw [opens_cons_none hbp, opens_cons_some hj]
          exact List.mem_cons_self
        · refine (mem_opens_exchange hbp rfl hk).imp_right fun hlen => ?_
          rw [hlen, List.length_append, List.length_singleton]
          exact Nat.le_refl _
    · cases h
      refine hg.same ?_ (hreplace rfl rfl)
      rw [opens_cons_none hbp, opens_cons_none hbp]
      exact opens_congr rfl

theorem comma_held {c c' : Compiler} (h : comma c sp = .ok c') (hs : (state true c).Sound)
    (hd : State.Agrees depth (state true c)) (hg : Held depth n (state true c)) :
    Held depth n (state false c') := by
  unfold state at hs hd hg
  rcases comma_eq_ok h with ⟨b, f, rest, o, hstack, hb, hf, -, h₁⟩ | h₁
  · rw [hstack] at hs hd hg
    exact functionComma_held h₁ hb hf hs hd hg
  · rcases tupleComma_eq_ok h₁ with ⟨p, S, hstack, hk, rfl⟩ | ⟨-, rfl⟩
    · rw [hstack] at hg
      exact hg.same (opens_congr rfl) fun hc => .above (hc.of_op hk)
    · exact hg.same (opens_cons_none rfl) .above

theorem binary_held {c c' : Compiler} (h : binary c o sp = .ok c') (hS : Stacked .start c.stack)
    (hd : State.Agrees depth (state true c)) (hg : Held depth n (state true c)) :
    Held depth n (state false c') := by
  obtain ⟨⟨out⟩, S⟩ := c
  rcases binary_cases h with ⟨jump, hl, rfl⟩ | ⟨-, -, rfl⟩
  · refine Held.emit hg hd (fun j hj => ?_) .above fun hc => ?_
    · rw [opens_cons_some rfl] at hj
      exact (List.mem_cons.mp hj).symm
    · cases hl with
      | and => exact hc.lt_height hS
      | or => exact hc.lt_height hS
  · exact Held.same hg (opens_cons_none rfl) .above

/-- A token in operator position takes the name to its call, or leaves it alone. -/
theorem operatorStep_guarded {inc : Incoming} {c₀ c₁ c₂ : Compiler} {token : Token} {flag : Bool}
    (hi : incoming source sp token = .ok inc) (hr : reduce inc.priority sp c₀.stack c₀.out = .ok c₁)
    (ha : arrive inc c₁ sp = .ok (flag, c₂)) (hs : (state true c₀).Sound)
    (hd : State.Agrees depth (state flag c₂)) (hg : Guarded depth n (state true c₀)) :
    Guarded depth n (state flag c₂) := by
  obtain ⟨hpriority, hop⟩ := incoming_cases hi
  obtain ⟨⟨out⟩, S⟩ := c₀
  obtain ⟨hmoves, hS, -⟩ := reduce_moves hpriority hr hs
  cases inc with
  | closeRound =>
    obtain ⟨c, ht, h₁⟩ := bind_eq_ok ha
    obtain ⟨c', hc, h₂⟩ := bind_eq_ok h₁
    cases h₂
    obtain ⟨htuple, -⟩ := closeTuple_moves ht hmoves.sound hS
    have hd₁ := (closeRound_moves hc htuple.sound).agrees hd
    have hd₂ := htuple.agrees hd₁
    have hheld := reduce_held hpriority hr hs hd₂ hg
    exact closeRound_guarded hc htuple.sound (closeTuple_held ht hmoves.sound hd₂ hheld)
  | closeSquare =>
    obtain ⟨c, ht, h₁⟩ := bind_eq_ok ha
    obtain ⟨c', hc, h₂⟩ := bind_eq_ok h₁
    cases h₂
    obtain ⟨htuple, -⟩ := closeTuple_moves ht hmoves.sound hS
    have hd₁ := (closeSquare_moves hc htuple.sound).agrees hd
    have hd₂ := htuple.agrees hd₁
    have hheld := reduce_held hpriority hr hs hd₂ hg
    exact .held (closeSquare_held hc htuple.sound (closeTuple_held ht hmoves.sound hd₂ hheld))
  | comma =>
    obtain ⟨c', hc, h₁⟩ := bind_eq_ok ha
    cases h₁
    have hd₁ := (comma_moves hc hmoves.sound hS).agrees hd
    exact .held (comma_held hc hmoves.sound hd₁ (reduce_held hpriority hr hs hd₁ hg))
  | binary op =>
    obtain ⟨c', hc, h₁⟩ := bind_eq_ok ha
    cases h₁
    have hd₁ := (binary_moves hc (hop op rfl) hmoves.sound hS).agrees hd
    exact .held (binary_held hc hS hd₁ (reduce_held hpriority hr hs hd₁ hg))

/-! ## Value position -/

/-- An instruction that puts a value above all others. -/
theorem emitValue_held {i : Instruction} (hpops : i.pops = 0) (hs : State.Sound ⟨false, out, S⟩)
    (hd : State.Agrees depth ⟨false, out, S⟩) (hopens : opens S' = opens S)
    (hS : Calling (depth n) n S → Calling (depth n) n S') (hg : Held depth n ⟨false, out, S⟩) :
    Held depth n ⟨true, out ++ [i], S'⟩ := by
  refine hg.emit hd (fun j hj => .inl (hopens ▸ hj)) hS fun hc => ?_
  have := hc.lt_base hs.stacked
  rw [hpops, height]
  simp only [Bool.false_eq_true, if_false]
  omega

theorem value_held {c : Compiler} {i : Instruction} {step : Step} (h : value c i sp = .ok step)
    (hpops : i.pops = 0) (hs : (state false c).Sound) (hd : State.Agrees depth (state false c))
    (hg : Held depth n (state false c)) : Held depth n (state step.operatorNext step.compiler) := by
  obtain ⟨out', hemit, h₁⟩ := bind_eq_ok h
  cases h₁
  unfold state
  rw [toList_of_emit hemit]
  exact emitValue_held hpops hs hd rfl id hg

theorem numberValue_held {c : Compiler} {m : Number} {step : Step} (h : numberValue c m sp = .ok step)
    (hs : (state false c).Sound) (hd : State.Agrees depth (state false c))
    (hg : Held depth n (state false c)) : Held depth n (state step.operatorNext step.compiler) := by
  obtain ⟨⟨out⟩, S⟩ := c
  unfold numberValue at h
  split at h
  · next p ps heq =>
    replace heq : S = p :: ps := heq
    subst heq
    split at h
    · next hk =>
      have hp : p.patch = none := (State.Sound.head_formed hs).patch_eq_none hk rfl
      cases value_eq_ok h
      exact emitValue_held rfl hs hd (opens_cons_none hp).symm (fun hc => hc.of_op hk) hg
    · exact value_held h rfl hs hd hg
  · exact value_held h rfl hs hd hg

/-- An operator comes to wait. -/
theorem opening_held {c : Compiler} {step : Step} (h : opening c p sp = .ok step) (hp : p.patch = none)
    (hg : Held depth n (state false c)) : Held depth n (state step.operatorNext step.compiler) := by
  cases opening_eq_ok h
  exact hg.same (opens_cons_none hp) .above

theorem emptyRound_guarded {c : Compiler} {step : Step} (h : emptyRound c sp = .ok step)
    (hs : (state false c).Sound) (hd : State.Agrees depth (state false c))
    (hg : Held depth n (state false c)) : Guarded depth n (state step.operatorNext step.compiler) := by
  obtain ⟨⟨out⟩, stack⟩ := c
  obtain ⟨b, S, rfl, hb, hcases⟩ := emptyRound_eq_ok h
  have hb' : isBracket b.kind = true := by rw [hb]; rfl
  have hbp : b.patch = none := (State.Sound.head_formed hs).patch_eq_none_of_bracket (ne_op_of_isBracket hb')
  rcases hcases with ⟨hS, h₁⟩ | ⟨f, rest, o, rfl, hf, -, -, rfl⟩
  · cases value_eq_ok h₁
    exact .held (emitValue_held rfl hs hd (opens_cons_none hbp).symm (fun hc => hc.of_not_isFunction hS) hg)
  · exact closeCall_guarded hbp hf (Nat.le_refl _) hg

theorem emptySquare_held {c : Compiler} {step : Step} (h : emptySquare c sp = .ok step)
    (hs : (state false c).Sound) (hd : State.Agrees depth (state false c))
    (hg : Held depth n (state false c)) : Held depth n (state step.operatorNext step.compiler) := by
  obtain ⟨p, b, S, out', hstack, hk, hb, hemit, rfl⟩ := emptySquare_eq_ok h
  unfold state at hs hd hg ⊢
  rw [hstack] at hs hd hg
  have hp : p.patch = none := hs.head_formed.patch_eq_none hk rfl
  have hb' : isBracket b.kind = true := by rw [hb]; rfl
  have hbp : b.patch = none :=
    (hs.tail_formed b List.mem_cons_self).patch_eq_none_of_bracket (ne_op_of_isBracket hb')
  rw [toList_of_emit hemit]
  refine countIndex_held true hb hbp (hg.emit hd (fun j hj => .inl ?_) (fun hc => hc.of_op hk) fun hc => ?_)
  · rwa [opens_cons_none hp]
  · have hbase := (hc.of_op hk).lt_base (hs.operator hk).1
    rw [State.height_push hk, height]
    show (depth n : Int) + 1 + (p.args : Nat) ≤ (p.args : Int) - 0 + (base .start (b :: S) + 0)
    omega

theorem locationCall_held {c : Compiler} {location : List Char} {next : Option Token} {step : Step}
    (h : locationCall c location next sp = .ok step) (hs : (state false c).Sound)
    (hd : State.Agrees depth (state false c)) (hg : Held depth n (state false c)) :
    Held depth n (state step.operatorNext step.compiler) := by
  obtain ⟨code, hemit, hstep⟩ := locationCall_eq_ok h
  have hname : Held depth n ⟨true, code.toList, c.stack⟩ := by
    rw [toList_of_emit hemit]
    exact emitValue_held rfl hs hd rfl id hg
  rcases hstep with ⟨-, rfl⟩ | rfl
  · exact hname.same ((opens_cons_none rfl).trans (opens_cons_none rfl)) fun hc => hc.above.above
  · exact hname.same (opens_cons_none rfl) .above

/-- The name of a location lies on the stack, and its call reads its arguments or is next. -/
theorem locationCall_guarded {c : Compiler} {location : List Char} {next : Option Token} {step : Step}
    (h : locationCall c location next sp = .ok step) (hs : (state false c).Sound)
    (hd : State.Agrees depth (state false c)) :
    Guarded depth c.out.size (state step.operatorNext step.compiler) := by
  obtain ⟨code, hemit, hstep⟩ := locationCall_eq_ok h
  have hlevel : base (.op (.func none)) c.stack = depth c.out.size := by
    have hdepth := hd.depth_eq
    rw [base_op, ← Array.length_toList, hdepth, height]
    simp
  have hjumps : ∀ j ∈ opens c.stack, j < c.out.size := hs.proper.below
  have hn : Lies code.toList depth c.out.size := by
    rw [toList_of_emit hemit, ← Array.length_toList]
    refine ⟨⟨_, List.getElem?_concat_length⟩, ?_⟩
    intro k i hk hi
    have := (List.getElem?_eq_some_iff.mp hi).1
    rw [List.length_append, List.length_singleton] at this
    omega
  rcases hstep with ⟨-, rfl⟩ | rfl
  · exact .held (.calling (.bracket rfl rfl (Nat.le_refl 1) hlevel hjumps) hn)
  · exact .called rfl ⟨_, _, rfl, rfl, Nat.le_refl 1, hlevel, hjumps⟩ hn

theorem functionCall_held {c : Compiler} {s : String} {f : Function} {next : Option Token} {step : Step}
    (h : functionCall c source s f next sp = .ok step) (hg : Held depth n (state false c)) :
    Held depth n (state step.operatorNext step.compiler) := by
  rcases functionCall_eq_ok h with ⟨-, rfl⟩ | ⟨-, -, rfl⟩ | ⟨-, -, rfl⟩
  · exact hg.same ((opens_cons_none rfl).trans (opens_cons_none rfl)) fun hc => hc.above.above
  · exact hg.same (opens_cons_none rfl) .above
  · exact hg.same (opens_cons_none rfl) .above

theorem variableRead_held {c : Compiler} {s : String} {next after : Option Token} {step : Step}
    (h : variableRead c s next after sp = .ok step) (hs : (state false c).Sound)
    (hd : State.Agrees depth (state false c)) (hg : Held depth n (state false c)) :
    Held depth n (state step.operatorNext step.compiler) := by
  rcases variableRead_eq_ok h with ⟨op, step', hop, hv⟩ | ⟨-, rfl⟩
  · rcases hop with ⟨rfl, -, -, rfl⟩ | ⟨rfl, rfl⟩
    · have hheld := value_held hv rfl hs hd hg
      exact hheld
    · exact value_held hv rfl hs hd hg
  · exact hg.same ((opens_cons_none rfl).trans (opens_cons_none rfl)) fun hc => hc.above.above

/-- A token in value position leaves the names alone that are on the stack. -/
theorem valueStep_guarded {c : Compiler} {token : Token} {next after : Option Token} {step : Step}
    (h : valueStep source token sp next after c = .ok step) (hs : (state false c).Sound)
    (hd : State.Agrees depth (state false c)) (hg : Held depth n (state false c)) :
    Guarded depth n (state step.operatorNext step.compiler) := by
  cases token with
  | number m => exact .held (numberValue_held h hs hd hg)
  | text t =>
    refine .held (value_held h ?_ hs hd hg)
    cases t.isEmpty with
    | true => rfl
    | false => rfl
  | code t => exact .held (value_held h rfl hs hd hg)
  | minus => exact .held (opening_held h rfl hg)
  | plus =>
    cases h
    exact .held hg
  | openRound => exact .held (opening_held h rfl hg)
  | closeRound => exact emptyRound_guarded h hs hd hg
  | openSquare =>
    obtain ⟨c₁, h₁, h₂⟩ := bind_eq_ok h
    cases push_eq_ok h₁
    exact .held (opening_held h₂ rfl (hg.same (opens_cons_none rfl) .above))
  | closeSquare => exact .held (emptySquare_held h hs hd hg)
  | name s =>
    rcases nameValue_cases h with ⟨-, location, h₁⟩ | ⟨f, -, h₁⟩ | ⟨-, h₁⟩
    · exact .held (locationCall_held h₁ hs hd hg)
    · exact .held (functionCall_held h₁ hg)
    · exact .held (variableRead_held h₁ hs hd hg)
  | _ => cases h

/-- A token that calls a location puts its name on the stack. -/
theorem valueStep_calls {c : Compiler} {token : Token} {next after : Option Token} {step : Step}
    (h : valueStep source token sp next after c = .ok step) (ht : token.callsLocation = true)
    (hs : (state false c).Sound) (hd : State.Agrees depth (state false c)) :
    Guarded depth c.out.size (state step.operatorNext step.compiler) := by
  cases token with
  | name s =>
    have hhead : s.toList.head? = some '@' := by simpa [Token.callsLocation] using ht
    obtain ⟨location, hlocation⟩ := List.head?_eq_some_iff.mp hhead
    replace h : nameValue c source s next after sp = .ok step := h
    unfold nameValue at h
    split at h
    · exact locationCall_guarded h hs hd
    · next hne => exact absurd hlocation (hne location)
  | _ => cases ht

/-! ## Whole expressions -/

/-- At the end the start alone is left, and the depths of the code agree with that. -/
theorem finish_kept {c : Compiler} {code : Code} (h : run source true c [] = .ok code)
    (hs : (state true c).Sound) (hb : Balanced code depth) :
    State.Agrees depth (state true c) ∧
      ∀ n, Guarded depth n (state true c) → ∃ f, Kept code.toList [] depth n f := by
  obtain ⟨⟨out⟩, S⟩ := c
  obtain ⟨sp, c₁, p, hr, ht, hk, hp, hmoves, hmoves'⟩ := finish_moves h hs
  have hend : State.Agrees depth (state true ⟨code, [p]⟩) := by
    refine ⟨.of_balanced hb, fun x hx => ?_⟩
    have hstop : depth code.toList.length = 1 := hb.stop
    replace hx : x ∈ (height true [p] - (depth code.toList.length : Int)) :: (waits [p]).map _ := hx
    rw [waits_cons_none hp, hstop] at hx
    rw [List.mem_singleton.mp hx, height, base, weight, hk]
    rfl
  have hmid := hmoves'.agrees hend
  refine ⟨hmoves.agrees hmid, fun n hg => ?_⟩
  have hheld := reduce_held (Nat.zero_le 30) hr hs hmid hg
  cases closeTuple_held ht hmoves.sound hmid hheld with
  | @kept f hkept =>
    replace hkept : Kept code.toList (opens [p]) depth n f := hkept
    rw [opens_cons_none hp] at hkept
    exact ⟨f, hkept⟩
  | calling hc =>
    replace hc : Calling (depth n) n [p] := hc
    cases hc with
    | above hc => cases hc

/-- **The names of locations are kept for their calls**, the ones there already and the ones to come. -/
theorem Marked.kept {c : Compiler} {ts : List (Token × Span)} {marks marks' : List Nat} {code : Code}
    (h : Marked source ready c ts marks code marks') (hs : (state ready c).Sound)
    (hslips : slips ready c.stack (ts.map (·.1)) = false) (hb : Balanced code depth) :
    State.Agrees depth (state ready c) ∧
      ((∀ n ∈ marks, Guarded depth n (state ready c)) →
        ∀ n ∈ marks', ∃ f, Kept code.toList [] depth n f) := by
  induction h with
  | stop h marks =>
    obtain ⟨hd, hkept⟩ := finish_kept h hs hb
    exact ⟨hd, fun hg n hn => hkept n (hg n hn)⟩
  | operator h _ ih =>
    obtain ⟨inc, hi, h₁⟩ := bind_eq_ok h
    obtain ⟨c₁, hr, ha⟩ := bind_eq_ok h₁
    have hmoves := operatorStep_moves hi hr ha hs
    rw [List.map_cons, ← operatorStep_slips hi ha] at hslips
    obtain ⟨hd, hkept⟩ := ih hmoves.sound hslips hb
    exact ⟨hmoves.agrees hd, fun hg => hkept fun n hn => operatorStep_guarded hi hr ha hs hd (hg n hn)⟩
  | @value c token sp ts step code marks marks' h _ ih =>
    have hround : token = .openRound → (top c.stack).isFunction = false := by
      rintro rfl
      cases htop : (top c.stack).isFunction with
      | false => rfl
      | true =>
        rw [List.map_cons, slips, htop] at hslips
        cases hslips
    have hmoves := valueStep_moves h hround hs
    rw [← List.getElem?_map, ← List.getElem?_map] at h
    rw [List.map_cons, ← valueStep_slips h hround, ← List.map_drop] at hslips
    obtain ⟨hd, hkept⟩ := ih hmoves.sound hslips hb
    have hd' := hmoves.agrees hd
    refine ⟨hd', fun hg => hkept fun n hn => ?_⟩
    have hold : n ∈ marks → Guarded depth n (state step.operatorNext step.compiler) :=
      fun hn => valueStep_guarded h hs hd' ((hg n hn).of_not_ready rfl)
    unfold marked at hn
    split at hn
    · next ht =>
      rcases List.mem_cons.mp hn with rfl | hn
      · exact valueStep_calls h ht hs hd'
      · exact hold hn
    · exact hold hn

/-- Without a call of a location nothing is marked. -/
theorem Marked.marks_eq {c : Compiler} {ts : List (Token × Span)} {marks marks' : List Nat} {code : Code}
    (h : Marked source ready c ts marks code marks') (ht : ∀ t ∈ ts, t.1.callsLocation = false) :
    marks' = marks := by
  induction h with
  | stop => rfl
  | operator _ _ ih => exact ih fun t hmem => ht t (List.mem_cons_of_mem _ hmem)
  | @value c token sp ts step code marks marks' _ _ ih =>
    have hmarked : marked token c.out marks = marks := by
      have htoken : token.callsLocation = false := ht _ List.mem_cons_self
      rw [marked, htoken]
      rfl
    rw [ih fun t hmem => ht t (List.mem_cons_of_mem _ (List.mem_of_mem_drop hmem)), hmarked]

/-- In balanced code all names of locations are kept for their calls. -/
theorem Marked.kept_of_balanced {tokens : List (Token × Span)} {marks : List Nat} {code : Code}
    (h : Marked source false { stack := [{ kind := .start }] } tokens [] code marks)
    (hread : Token.misread (tokens.map (·.1)) = false) (hb : Balanced code depth) :
    ∀ n ∈ marks, ∃ f, Kept code.toList [] depth n f := by
  have hslips : slips false [{ kind := .start }] (tokens.map (·.1)) = false := by
    rwa [slips_of_top (.inr rfl)]
  exact (h.kept start_sound hslips hb).2 nofun

end Compiler

end QuestScript
