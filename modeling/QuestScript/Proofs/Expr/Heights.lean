import QuestScript.Proofs.Expr.Depth
import QuestScript.Proofs.Expr.Scan

/-!
# Heights while an expression is compiled

The depths of the instructions emitted so far are the solutions of a system of equations (`Solves`):
one for each way on from each instruction, but none yet for a jump that still needs its target.

A state of the compiler says how many values it expects at the next instruction and at each jump
that waits for its target (`Tally`). The lags of a solution are what it falls short of that, at each
of these places. A step is kept in the books (`Keeps`) if the solutions of the new state solve the
old one with the same lags, and if a solution without lags can be continued. So whether there are
depths for the whole code is decided by the steps that are not kept in the books (`Booked`).
-/

namespace QuestScript

namespace Compiler

/-! ## Equations for the depths -/

/-- The depths that the instructions emitted so far allow; the jumps in `opens` have no target
yet. -/
structure Solves (out : List Instruction) (opens : List Nat) (depth : Nat → Nat) : Prop where
  start : depth 0 = 0
  enough {n : Nat} {i : Instruction} : out[n]? = some i → i.pops ≤ depth n
  falls {n k : Nat} {i : Instruction} : out[n]? = some i → i.falls = some k →
    depth (n + 1) + i.pops = depth n + k
  jumps {n target k : Nat} {i : Instruction} : out[n]? = some i → n ∉ opens →
    i.jumps = some (target, k) → depth target + i.pops = depth n + k

/-- The depths of balanced code, whatever jumps of it are thought to wait. -/
theorem Solves.of_balanced {out : List Instruction} {opens : List Nat} {depth : Nat → Nat} (hb : Balanced out.toArray depth) :
    Solves out opens depth :=
  ⟨hb.start, fun hn => hb.enough (by simpa using hn), fun hn => hb.falls (by simpa using hn),
    fun hn _ hj => (hb.jumps (by simpa using hn) hj).2.2⟩

/-- The jumps that have a target lead forward. -/
def Forward (out : List Instruction) (opens : List Nat) : Prop :=
  ∀ ⦃n target k : Nat⦄ ⦃i : Instruction⦄, out[n]? = some i → n ∉ opens →
    i.jumps = some (target, k) → n < target ∧ target ≤ out.length

section Equations

variable {out : List Instruction} {opens opens' : List Nat} {depth depth' : Nat → Nat}

/-- With one instruction more, the code has those it had and the new one at its end. -/
theorem getElem?_of_append {i i' : Instruction} {n : Nat} (h : (out ++ [i])[n]? = some i') :
    out[n]? = some i' ∨ n = out.length ∧ i' = i := by
  rcases Nat.lt_trichotomy n out.length with hlt | rfl | hgt
  · rw [List.getElem?_append_left hlt] at h
    exact .inl h
  · rw [List.getElem?_concat_length] at h
    exact .inr ⟨rfl, (Option.some.inj h).symm⟩
  · rw [List.getElem?_eq_none (by simp; omega)] at h
    cases h

/-- An instruction more is an equation more for each way on from it. -/
theorem solves_append {i : Instruction} (hopens : ∀ n < out.length, n ∈ opens' ↔ n ∈ opens)
    (hi : i.jumps = none ∨ out.length ∈ opens') :
    Solves (out ++ [i]) opens' depth ↔
      Solves out opens depth ∧ i.pops ≤ depth out.length ∧
        ∀ k, i.falls = some k → depth (out.length + 1) + i.pops = depth out.length + k := by
  have hnew : (out ++ [i])[out.length]? = some i := by simp
  have hold : ∀ {n : Nat} {i' : Instruction}, out[n]? = some i' → (out ++ [i])[n]? = some i' := by
    intro n i' h
    rw [List.getElem?_append_left (List.getElem?_eq_some_iff.mp h).1, h]
  have hlt : ∀ {n : Nat} {i' : Instruction}, out[n]? = some i' → n < out.length :=
    fun h => (List.getElem?_eq_some_iff.mp h).1
  constructor
  · intro h
    refine ⟨⟨h.start, fun hn => h.enough (hold hn), fun hn => h.falls (hold hn), ?_⟩,
      h.enough hnew, fun k => h.falls hnew⟩
    intro n target k i' hn hopen
    exact h.jumps (hold hn) (mt (hopens n (hlt hn)).mp hopen)
  · rintro ⟨h, henough, hfalls⟩
    refine ⟨h.start, ?_, ?_, ?_⟩
    · intro n i' hn
      rcases getElem?_of_append hn with hn | ⟨rfl, rfl⟩
      · exact h.enough hn
      · exact henough
    · intro n k i' hn
      rcases getElem?_of_append hn with hn | ⟨rfl, rfl⟩
      · exact h.falls hn
      · exact hfalls k
    · intro n target k i' hn hopen hj
      rcases getElem?_of_append hn with hn | ⟨rfl, rfl⟩
      · exact h.jumps hn (mt (hopens n (hlt hn)).mpr hopen) hj
      · rcases hi with hi | hi
        · rw [hi] at hj
          cases hj
        · exact absurd hi hopen

theorem Forward.append {i : Instruction} (h : Forward out opens)
    (hopens : ∀ n < out.length, n ∈ opens' ↔ n ∈ opens) (hi : i.jumps = none ∨ out.length ∈ opens') :
    Forward (out ++ [i]) opens' := by
  intro n target k i' hn hopen hj
  rw [List.length_append, List.length_singleton]
  rcases getElem?_of_append hn with hn | ⟨rfl, rfl⟩
  · have hlt := (List.getElem?_eq_some_iff.mp hn).1
    have := h hn (mt (hopens n hlt).mpr hopen) hj
    omega
  · rcases hi with hi | hi
    · rw [hi] at hj
      cases hj
    · exact absurd hi hopen

/-- Depths beyond the next instruction do not matter. -/
theorem Solves.congr (h : Solves out opens depth) (hf : Forward out opens)
    (hd : ∀ n ≤ out.length, depth' n = depth n) : Solves out opens depth' := by
  have hlt : ∀ {n : Nat} {i : Instruction}, out[n]? = some i → n < out.length :=
    fun h => (List.getElem?_eq_some_iff.mp h).1
  refine ⟨?_, ?_, ?_, ?_⟩
  · rw [hd 0 (Nat.zero_le _), h.start]
  · intro n i hn
    rw [hd n (Nat.le_of_lt (hlt hn))]
    exact h.enough hn
  · intro n k i hn hk
    rw [hd n (Nat.le_of_lt (hlt hn)), hd (n + 1) (hlt hn)]
    exact h.falls hn hk
  · intro n target k i hn hopen hj
    rw [hd n (Nat.le_of_lt (hlt hn)), hd target (hf hn hopen hj).2]
    exact h.jumps hn hopen hj

/-- The instruction with its jump leading to `target`. -/
def retargeted (target : Nat) (i : Instruction) : Instruction := { i with op := retarget target i.op }

@[simp] theorem pops_retargeted (target : Nat) (i : Instruction) :
    (retargeted target i).pops = i.pops := by
  obtain ⟨op, literal, argCount⟩ := i
  cases op <;> rfl

@[simp] theorem falls_retargeted (target : Nat) (i : Instruction) :
    (retargeted target i).falls = i.falls := by
  obtain ⟨op, literal, argCount⟩ := i
  cases op <;> rfl

@[simp] theorem jumps_retargeted (target : Nat) (i : Instruction) :
    (retargeted target i).jumps = i.jumps.map fun j => (target, j.2) := by
  obtain ⟨op, literal, argCount⟩ := i
  cases op <;> rfl

/-- The code with the jump at `index` leading to the next instruction. -/
def patched (out : List Instruction) (index : Nat) : List Instruction :=
  out.modify index (retargeted out.length)

@[simp] theorem length_patched (out : List Instruction) (index : Nat) :
    (patched out index).length = out.length := List.length_modify ..

theorem patch_toArray (out : List Instruction) (index : Nat) :
    patch out.toArray (some index) = (patched out index).toArray := by
  simp only [patch, List.modify_toArray, List.size_toArray]
  rfl

theorem getElem?_patched_of_ne {index n : Nat} (h : n ≠ index) :
    (patched out index)[n]? = out[n]? := by
  unfold patched
  rw [List.getElem?_modify_ne _ _ (Ne.symm h)]

theorem getElem?_patched_self {index : Nat} {i : Instruction} (h : out[index]? = some i) :
    (patched out index)[index]? = some (retargeted out.length i) := by
  unfold patched
  rw [List.getElem?_modify_eq, h]
  rfl

/-- Every instruction of the patched code is one of the code before it, up to the target. -/
theorem getElem?_of_patched {index n : Nat} {i' : Instruction} (h : (patched out index)[n]? = some i') :
    ∃ i, out[n]? = some i ∧ (n = index ∧ i' = retargeted out.length i ∨ n ≠ index ∧ i' = i) := by
  by_cases hn : n = index
  · obtain ⟨i, hi⟩ : ∃ i, out[n]? = some i := by
      have hlt := (List.getElem?_eq_some_iff.mp h).1
      rw [length_patched] at hlt
      exact ⟨_, List.getElem?_eq_getElem hlt⟩
    refine ⟨i, hi, .inl ⟨hn, ?_⟩⟩
    rw [hn] at h hi
    rw [getElem?_patched_self hi] at h
    exact (Option.some.inj h).symm
  · rw [getElem?_patched_of_ne hn] at h
    exact ⟨i', h, .inr ⟨hn, rfl⟩⟩

/-- A jump that gets its target is an equation more. -/
theorem solves_patched {j t₀ k : Nat} {i : Instruction} (hj : out[j]? = some i)
    (hi : i.jumps = some (t₀, k)) (hnew : j ∉ opens) :
    Solves (patched out j) opens depth ↔
      Solves out (j :: opens) depth ∧ depth out.length + i.pops = depth j + k := by
  have hself := getElem?_patched_self hj
  -- the instructions of the old code, as they are found in the new one
  have hold : ∀ {n : Nat} {i₁ : Instruction}, out[n]? = some i₁ →
      ∃ i₂, (patched out j)[n]? = some i₂ ∧ i₂.pops = i₁.pops ∧ i₂.falls = i₁.falls := by
    intro n i₁ h
    by_cases hn : n = j
    · subst hn
      rw [hj] at h
      cases h
      exact ⟨_, hself, pops_retargeted _ _, falls_retargeted _ _⟩
    · exact ⟨i₁, by rw [getElem?_patched_of_ne hn, h], rfl, rfl⟩
  constructor
  · intro h
    refine ⟨⟨h.start, ?_, ?_, ?_⟩, ?_⟩
    · intro n i₁ hn
      obtain ⟨i₂, h₂, hp, -⟩ := hold hn
      rw [← hp]
      exact h.enough h₂
    · intro n k₁ i₁ hn hk
      obtain ⟨i₂, h₂, hp, hf⟩ := hold hn
      rw [← hp]
      exact h.falls h₂ (hf.trans hk)
    · intro n target k₁ i₁ hn hopen hk
      have hne : n ≠ j := List.ne_of_not_mem_cons hopen
      exact h.jumps (by rw [getElem?_patched_of_ne hne, hn]) (List.not_mem_of_not_mem_cons hopen) hk
    · have := h.jumps hself hnew (by rw [jumps_retargeted, hi]; rfl)
      rwa [pops_retargeted] at this
  · rintro ⟨h, heq⟩
    refine ⟨h.start, ?_, ?_, ?_⟩
    · intro n i₂ hn
      obtain ⟨i₁, h₁, ⟨-, rfl⟩ | ⟨-, rfl⟩⟩ := getElem?_of_patched hn
      · rw [pops_retargeted]
        exact h.enough h₁
      · exact h.enough h₁
    · intro n k₁ i₂ hn hk
      obtain ⟨i₁, h₁, ⟨-, rfl⟩ | ⟨-, rfl⟩⟩ := getElem?_of_patched hn
      · rw [falls_retargeted] at hk
        rw [pops_retargeted]
        exact h.falls h₁ hk
      · exact h.falls h₁ hk
    · intro n target k₁ i₂ hn hopen hk
      obtain ⟨i₁, h₁, ⟨rfl, rfl⟩ | ⟨hne, rfl⟩⟩ := getElem?_of_patched hn
      · rw [hj] at h₁
        cases h₁
        rw [jumps_retargeted, hi] at hk
        cases hk
        rw [pops_retargeted]
        exact heq
      · exact h.jumps h₁ (List.not_mem_cons_of_ne_of_not_mem hne hopen) hk

theorem Forward.patched {j : Nat} {i : Instruction} (hj : out[j]? = some i)
    (h : Forward out (j :: opens)) : Forward (patched out j) opens := by
  intro n target k i₂ hn hopen hk
  rw [length_patched]
  obtain ⟨i₁, h₁, ⟨rfl, rfl⟩ | ⟨hne, rfl⟩⟩ := getElem?_of_patched hn
  · rw [jumps_retargeted] at hk
    obtain ⟨w, -, hw⟩ := Option.map_eq_some_iff.mp hk
    cases hw
    exact ⟨(List.getElem?_eq_some_iff.mp hj).1, Nat.le_refl _⟩
  · exact h h₁ (List.not_mem_cons_of_ne_of_not_mem hne hopen) hk

end Equations

/-! ## Tallies -/

/-- What a state of the compiler says about depths: the instructions so far, the depth it expects at
each jump that waits for its target, and at the next instruction. -/
structure Tally where
  out : List Instruction
  waits : List (Nat × Int)
  height : Int

namespace Tally

variable {t t' t'' : Tally} {out : List Instruction} {depth depth' : Nat → Nat}

/-- The jumps that wait for their target. -/
def opens (t : Tally) : List Nat := t.waits.map (·.1)

/-- How far depths fall short of what is expected, wherever something is. -/
def lags (t : Tally) (depth : Nat → Nat) : List Int :=
  (t.height - depth t.out.length) :: t.waits.map fun w => w.2 - depth w.1

/-- The jumps that wait have been emitted, and all others lead forward. -/
structure Proper (t : Tally) : Prop where
  nodup : t.opens.Nodup
  below : ∀ j ∈ t.opens, j < t.out.length
  forward : Forward t.out t.opens

/-- A step that is kept in the books: the depths the new state allows are depths the old one allows,
they fall short of what is expected by the same amounts, and depths that are just as expected can be
continued. -/
structure Keeps (t t' : Tally) : Prop where
  proper : t'.Proper
  back {depth : Nat → Nat} : Solves t'.out t'.opens depth → Solves t.out t.opens depth
  lags {depth : Nat → Nat} : Solves t'.out t'.opens depth →
    ∀ x, x ∈ t'.lags depth ↔ x ∈ t.lags depth
  forth {depth : Nat → Nat} : Solves t.out t.opens depth → (∀ x ∈ t.lags depth, x = 0) →
    ∃ depth', Solves t'.out t'.opens depth' ∧ ∀ x ∈ t.lags depth', x = 0

theorem Keeps.refl (ht : t.Proper) : Keeps t t where
  proper := ht
  back := id
  lags _ _ := Iff.rfl
  forth h hx := ⟨_, h, hx⟩

theorem Keeps.trans (h₁ : Keeps t t') (h₂ : Keeps t' t'') : Keeps t t'' where
  proper := h₂.proper
  back h := h₁.back (h₂.back h)
  lags h x := (h₂.lags h x).trans (h₁.lags (h₂.back h) x)
  forth := by
    intro depth h hx
    obtain ⟨d₁, hd₁, hx₁⟩ := h₁.forth h hx
    obtain ⟨d₂, hd₂, hx₂⟩ := h₂.forth hd₁ fun x hx' => hx₁ x ((h₁.lags hd₁ x).mp hx')
    exact ⟨d₂, hd₂, fun x hx' => hx₂ x ((h₁.lags (h₂.back hd₂) x).mpr hx')⟩

/-- Only the depths up to the next instruction count. -/
theorem lags_congr (ht : t.Proper) (hd : ∀ n ≤ t.out.length, depth' n = depth n) :
    t.lags depth' = t.lags depth := by
  unfold lags
  rw [hd _ (Nat.le_refl _)]
  refine congrArg _ (List.map_congr_left ?_)
  intro w hw
  rw [hd w.1 (Nat.le_of_lt (ht.below w.1 (List.mem_map_of_mem hw)))]

/-- The depths of a code that ends here, and `k` after the next instruction. -/
def continued (out : List Instruction) (depth : Nat → Nat) (k n : Nat) : Nat :=
  if n ≤ out.length then depth n else k

theorem continued_of_le {k n : Nat} (h : n ≤ out.length) : continued out depth k n = depth n :=
  if_pos h

theorem continued_succ (out : List Instruction) (depth : Nat → Nat) (k : Nat) :
    continued out depth k (out.length + 1) = k := if_neg (Nat.not_succ_le_self _)

/-- Depths that are just as expected, continued past the end. -/
theorem solves_continued (ht : t.Proper) (h : Solves t.out t.opens depth)
    (hx : ∀ x ∈ t.lags depth, x = 0) (k : Nat) :
    Solves t.out t.opens (continued t.out depth k) ∧ ∀ x ∈ t.lags (continued t.out depth k), x = 0 := by
  have hd : ∀ n ≤ t.out.length, continued t.out depth k n = depth n := fun n => continued_of_le
  refine ⟨h.congr ht.forward hd, ?_⟩
  rw [lags_congr ht hd]
  exact hx

/-- An instruction more; if it jumps, it waits for its target. -/
theorem keeps_append {i : Instruction} {k : Nat} {waits : List (Nat × Int)} (ht : t.Proper)
    (hw : i.jumps = none ∧ waits = t.waits ∨ waits = (t.out.length, t.height) :: t.waits)
    (hk : i.falls = some k) (hle : i.pops ≤ t.height) :
    Keeps t ⟨t.out ++ [i], waits, t.height - i.pops + k⟩ := by
  have hopens : ∀ n < t.out.length, n ∈ waits.map (·.1) ↔ n ∈ t.opens := by
    rcases hw with ⟨-, rfl⟩ | rfl
    · exact fun _ _ => Iff.rfl
    · intro n hn
      simp [opens, Nat.ne_of_lt hn]
  have hi : i.jumps = none ∨ t.out.length ∈ waits.map (·.1) := by
    rcases hw with ⟨hj, -⟩ | rfl
    · exact .inl hj
    · exact .inr List.mem_cons_self
  have hsolves : ∀ {depth : Nat → Nat}, Solves (t.out ++ [i]) (waits.map (·.1)) depth ↔
      Solves t.out t.opens depth ∧ i.pops ≤ depth t.out.length ∧
        ∀ k, i.falls = some k → depth (t.out.length + 1) + i.pops = depth t.out.length + k :=
    solves_append hopens hi
  refine ⟨⟨?_, ?_, ht.forward.append hopens hi⟩, ?_, ?_, ?_⟩
  · rcases hw with ⟨-, rfl⟩ | rfl
    · exact ht.nodup
    · exact List.nodup_cons.mpr ⟨fun h => Nat.lt_irrefl _ (ht.below _ h), ht.nodup⟩
  · intro j hj
    rw [List.length_append, List.length_singleton]
    rcases hw with ⟨-, rfl⟩ | rfl
    · exact Nat.lt_succ_of_lt (ht.below j hj)
    · rcases List.mem_cons.mp hj with rfl | hj
      · exact Nat.lt_succ_self _
      · exact Nat.lt_succ_of_lt (ht.below j hj)
  · intro depth h
    exact (hsolves.mp h).1
  · intro depth h x
    obtain ⟨-, -, hfalls⟩ := hsolves.mp h
    have hlag : t.height - i.pops + k - depth (t.out.length + 1) = t.height - depth t.out.length := by
      have := hfalls k hk
      omega
    rcases hw with ⟨-, rfl⟩ | rfl
    · simp only [Tally.lags, List.length_append, List.length_singleton, hlag]
    · simp [Tally.lags, hlag]
  · intro depth h hx
    have hexact : t.height - depth t.out.length = 0 := hx _ List.mem_cons_self
    -- no equation has been about the depth after the instruction, so it is free to be the right one
    obtain ⟨h', hx'⟩ := solves_continued ht h hx (depth t.out.length - i.pops + k)
    refine ⟨_, hsolves.mpr ⟨h', ?_, ?_⟩, hx'⟩
    · rw [continued_of_le (Nat.le_refl _)]
      omega
    · intro k' hk'
      cases hk.symm.trans hk'
      rw [continued_succ, continued_of_le (Nat.le_refl _)]
      omega

/-- A jump gets the next instruction as its target, where the depth is the one it leads to. -/
theorem keeps_patched {j t₀ k : Nat} {i : Instruction} {expected : Int} {waits : List (Nat × Int)}
    (ht : t.Proper) (hw : t.waits = (j, expected) :: waits) (hj : t.out[j]? = some i)
    (hi : i.jumps = some (t₀, k)) (heq : t.height + i.pops = expected + k) :
    Keeps t ⟨patched t.out j, waits, t.height⟩ := by
  have hopens : t.opens = j :: waits.map (·.1) := by rw [opens, hw, List.map_cons]
  have hnodup := ht.nodup
  rw [hopens, List.nodup_cons] at hnodup
  have hsolves : ∀ {depth : Nat → Nat}, Solves (patched t.out j) (waits.map (·.1)) depth ↔
      Solves t.out t.opens depth ∧ depth t.out.length + i.pops = depth j + k := by
    intro depth
    rw [hopens]
    exact solves_patched hj hi hnodup.1
  have hforward := ht.forward
  rw [hopens] at hforward
  refine ⟨⟨hnodup.2, ?_, hforward.patched hj⟩, ?_, ?_, ?_⟩
  · intro j' hj'
    rw [length_patched]
    exact ht.below j' (hopens ▸ List.mem_cons_of_mem j hj')
  · intro depth h
    exact (hsolves.mp h).1
  · intro depth h x
    obtain ⟨-, hd⟩ := hsolves.mp h
    have hlag : expected - depth j = t.height - depth t.out.length := by omega
    simp [Tally.lags, hw, hlag]
  · intro depth h hx
    have hhere : t.height - depth t.out.length = 0 := hx _ List.mem_cons_self
    have hthere : expected - depth j = 0 := by
      refine hx _ (List.mem_cons_of_mem _ ?_)
      rw [hw]
      exact List.mem_cons_self
    -- depths without lags satisfy the new equation as they are
    exact ⟨depth, hsolves.mpr ⟨h, by omega⟩, hx⟩

/-- A jump away from here waits for its target, and the one before it leads behind it. -/
theorem keeps_exchange {j t₀ k : Nat} {i : Instruction} {expected : Int} {waits : List (Nat × Int)}
    (i' : Instruction) (height : Int) (ht : t.Proper) (hw : t.waits = (j, expected) :: waits)
    (hj : t.out[j]? = some i) (hi : i.jumps = some (t₀, k)) (hf : i'.falls = none)
    (hle : i'.pops ≤ t.height) (heq : height + i.pops = expected + k) (hheight : 0 ≤ height) :
    Keeps t ⟨patched (t.out ++ [i']) j, (t.out.length, t.height) :: waits, height⟩ := by
  have hopens : t.opens = j :: waits.map (·.1) := by rw [opens, hw, List.map_cons]
  have hnodup := ht.nodup
  rw [hopens, List.nodup_cons] at hnodup
  have hlt : j < t.out.length := (List.getElem?_eq_some_iff.mp hj).1
  have hj' : (t.out ++ [i'])[j]? = some i := by rw [List.getElem?_append_left hlt, hj]
  have hnew : t.out.length ∉ waits.map (·.1) := by
    intro h
    exact Nat.lt_irrefl _ (ht.below _ (hopens ▸ List.mem_cons_of_mem j h))
  have hnot : j ∉ t.out.length :: waits.map (·.1) :=
    List.not_mem_cons_of_ne_of_not_mem (Nat.ne_of_lt hlt) hnodup.1
  have hmem : ∀ n < t.out.length, n ∈ j :: t.out.length :: waits.map (·.1) ↔ n ∈ t.opens := by
    intro n hn
    rw [hopens]
    simp [Nat.ne_of_lt hn]
  have hlast : i'.jumps = none ∨ t.out.length ∈ j :: t.out.length :: waits.map (·.1) := by simp
  have hsolves : ∀ {depth : Nat → Nat},
      Solves (patched (t.out ++ [i']) j) (t.out.length :: waits.map (·.1)) depth ↔
        (Solves t.out t.opens depth ∧ i'.pops ≤ depth t.out.length) ∧
          depth (t.out.length + 1) + i.pops = depth j + k := by
    intro depth
    rw [solves_patched hj' hi hnot, solves_append hmem hlast, hf, List.length_append,
      List.length_singleton]
    simp
  have hforward := (ht.forward.append hmem hlast).patched hj'
  refine ⟨⟨List.nodup_cons.mpr ⟨hnew, hnodup.2⟩, ?_, hforward⟩, ?_, ?_, ?_⟩
  · intro j₁ hj₁
    rw [length_patched, List.length_append, List.length_singleton]
    rcases List.mem_cons.mp hj₁ with rfl | hj₁
    · exact Nat.lt_succ_self _
    · exact Nat.lt_succ_of_lt (ht.below j₁ (hopens ▸ List.mem_cons_of_mem j hj₁))
  · intro depth h
    exact (hsolves.mp h).1.1
  · intro depth h x
    obtain ⟨-, hd⟩ := hsolves.mp h
    -- the two places change roles: the lag of the old jump is now that of the next instruction
    have hlag : height - depth (t.out.length + 1) = expected - depth j := by omega
    simp only [Tally.lags, hw, length_patched, List.length_append, List.length_singleton, hlag,
      List.map_cons, List.mem_cons]
    exact or_left_comm
  · intro depth h hx
    have hhere : t.height - depth t.out.length = 0 := hx _ List.mem_cons_self
    have hthere : expected - depth j = 0 := by
      refine hx _ (List.mem_cons_of_mem _ ?_)
      rw [hw]
      exact List.mem_cons_self
    -- nothing falls through to the place behind the jump, so only the jump before it sets the depth
    obtain ⟨h', hx'⟩ := solves_continued ht h hx height.toNat
    refine ⟨_, hsolves.mpr ⟨⟨h', ?_⟩, ?_⟩, hx'⟩
    · rw [continued_of_le (Nat.le_refl _)]
      omega
    · rw [continued_succ, continued_of_le (Nat.le_of_lt hlt)]
      omega

/-! ## Books -/

/-- No depths exceed what is expected. As long as nothing has slipped, some are just as expected;
afterwards all fall short somewhere. -/
structure Booked (slipped : Bool) (t : Tally) : Prop where
  low {depth : Nat → Nat} : Solves t.out t.opens depth → ∀ x ∈ t.lags depth, 0 ≤ x
  exact : slipped = false → ∃ depth, Solves t.out t.opens depth ∧ ∀ x ∈ t.lags depth, x = 0
  short {depth : Nat → Nat} : slipped = true → Solves t.out t.opens depth → ∃ x ∈ t.lags depth, x ≠ 0

variable {slipped : Bool}

theorem Booked.keep (h : t.Booked slipped) (hk : Keeps t t') : t'.Booked slipped where
  low hd x hx := h.low (hk.back hd) x ((hk.lags hd x).mp hx)
  exact hs := by
    obtain ⟨depth, hd, hx⟩ := h.exact hs
    obtain ⟨depth', hd', hx'⟩ := hk.forth hd hx
    exact ⟨depth', hd', fun x hx'' => hx' x ((hk.lags hd' x).mp hx'')⟩
  short hs hd := by
    obtain ⟨x, hx, hne⟩ := h.short hs (hk.back hd)
    exact ⟨x, (hk.lags hd x).mpr hx, hne⟩

/-- When a value more is expected than has been put on the stack, all depths fall short. -/
theorem Booked.slip (h : t.Booked slipped) :
    Booked true { t with height := t.height + 1 } := by
  have hhere : ∀ {depth : Nat → Nat}, Solves t.out t.opens depth →
      0 ≤ t.height - depth t.out.length := fun hd => h.low hd _ List.mem_cons_self
  refine ⟨?_, nofun, ?_⟩
  · intro depth hd x hx
    rcases List.mem_cons.mp hx with rfl | hx
    · have := hhere hd
      show 0 ≤ t.height + 1 - depth t.out.length
      omega
    · exact h.low hd x (List.mem_cons_of_mem _ hx)
  · intro depth _ hd
    refine ⟨t.height + 1 - depth t.out.length, List.mem_cons_self, ?_⟩
    have := hhere hd
    omega

/-- Where one value is expected at the end and no jump waits, code is balanced unless something has
slipped. -/
theorem Booked.balanced_iff (h : t.Booked slipped) (ht : t.Proper) (hw : t.waits = [])
    (hh : t.height = 1) : (∃ depth, Balanced t.out.toArray depth) ↔ slipped = false := by
  have hopens : t.opens = [] := by rw [opens, hw]; rfl
  have hlags : ∀ depth : Nat → Nat, t.lags depth = [1 - (depth t.out.length : Int)] := by
    intro depth
    rw [lags, hw, hh]
    rfl
  constructor
  · rintro ⟨depth, hb⟩
    have hsolves : Solves t.out t.opens depth := .of_balanced hb
    have hstop : depth t.out.length = 1 := hb.stop
    cases slipped with
    | false => rfl
    | true =>
      obtain ⟨x, hx, hne⟩ := h.short rfl hsolves
      rw [hlags, List.mem_singleton, hstop] at hx
      exact absurd hx hne
  · intro hs
    obtain ⟨depth, hd, hx⟩ := h.exact hs
    have hstop : 1 - (depth t.out.length : Int) = 0 := by
      refine hx _ ?_
      rw [hlags]
      exact List.mem_singleton.mpr rfl
    have hforward := ht.forward
    rw [hopens] at hd hforward
    refine ⟨depth, hd.start, fun hn => hd.enough (by simpa using hn),
      fun hn => hd.falls (by simpa using hn), ?_, ?_⟩
    · intro n target k i hn hj
      replace hn : t.out[n]? = some i := by simpa using hn
      obtain ⟨hlt, hle⟩ := hforward hn List.not_mem_nil hj
      exact ⟨hlt, hle, hd.jumps hn List.not_mem_nil hj⟩
    · show depth t.out.length = 1
      omega

end Tally

end Compiler

end QuestScript
