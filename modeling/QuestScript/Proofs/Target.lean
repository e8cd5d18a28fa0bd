import Mathlib.Data.List.TakeDrop
import QuestScript.Engine
import QuestScript.Proofs.Text.Standing
import QuestScript.Proofs.Text.Trim

/-!
# The targets of an assignment

A target is a name, or a name and an index in brackets. It is cut at the first `[` and at the `]` that
closes it, and what stands behind that bracket is not looked at.

`Written` is what a target ought to be: behind the bracket there are blanks at most. `Overrun` is a
target with something else there. Both are read, the second one as if it ended with its bracket, and
no other text is (`read_eq_ok_iff`); a text that is not read leaves the machine as it was. So targets
are read exactly as they ought to be if and only if they do not overrun (`read_exact_iff`).
-/

namespace QuestScript

/-! ## Names have no delimiters -/

theorem VarName.mem_bare {c : Char} {cs : List Char} (h : c ∈ cs) (hdollar : c ≠ '$') (hpercent : c ≠ '%') :
    c ∈ bare (.ofName cs) cs := by
  unfold ValueType.ofName
  split
  · exact (List.mem_cons.mp h).resolve_left hdollar
  · exact (List.mem_cons.mp h).resolve_left hpercent
  · exact h

/-- A text that is read as a name holds no bracket. -/
theorem VarName.not_mem_of_read {cs : List Char} {n : VarName} (h : read cs = .ok n) : '[' ∉ cs := by
  intro hmem
  have hbare : '[' ∈ bare (.ofName (Text.trim cs)) (Text.trim cs) :=
    mem_bare (Text.mem_trim hmem (by decide)) (by decide) (by decide)
  unfold read at h
  dsimp only at h
  split at h
  · next hvalid =>
    revert hvalid
    cases hcs : bare (.ofName (Text.trim cs)) (Text.trim cs) with
    | nil => nofun
    | cons c rest =>
      rw [hcs] at hbare
      intro hvalid
      simp only [isValid, Bool.and_eq_true, Bool.not_eq_true', List.any_eq_false] at hvalid
      exact hvalid.2 '[' hbare (by decide)
  · cases h

namespace Target

open Text

/-! ## The closing bracket -/

/-- Whether a `]` behind `cs` closes the `[` before it: it stands outside literals and, with itself
counted, outside brackets. -/
def Shuts (cs : List Char) : Prop :=
  (Standing.after {} ('[' :: cs)).quote = none ∧ ((Standing.after {} ('[' :: cs)).depth.track ']').isTop = true

instance (cs : List Char) : Decidable (Shuts cs) := inferInstanceAs (Decidable (_ ∧ _))

/-- The text between a `[` and the `]` that closes it. -/
def Inner (cs : List Char) : Prop := Shuts cs ∧ ∀ before rest, cs = before ++ ']' :: rest → ¬ Shuts before

/-- A bracket that stands before another one stands in the text before that one. -/
theorem brackets_in_order {as bs rest rest' : List Char} (h : as ++ ']' :: rest = bs ++ ']' :: rest') :
    (∃ us, bs = as ++ us) ∨ ∃ us, as = bs ++ ']' :: us := by
  rcases List.append_eq_append_iff.mp h with ⟨us, hbs, -⟩ | ⟨us, has, hus⟩
  · exact .inl ⟨us, hbs⟩
  · cases us with
    | nil => exact .inl ⟨[], by rw [has, List.append_nil, List.append_nil]⟩
    | cons u us =>
      obtain ⟨rfl, -⟩ := List.cons_eq_cons.mp hus
      exact .inr ⟨us, has⟩

theorem delimiterPos?_of_inner {cs : List Char} (h : Inner cs) (rest : List Char) :
    delimiterPos? ('[' :: (cs ++ ']' :: rest)) ']' = some (byteSize ('[' :: cs)) := by
  rw [delimiterPos?_eq_some_iff (by decide)]
  refine ⟨⟨'[' :: cs, rest, rfl, rfl, h.1⟩, ?_⟩
  rintro n ⟨before, after, heq, rfl, hshuts⟩
  cases before with
  | nil => cases heq
  | cons c before =>
    obtain ⟨rfl, hrest⟩ := List.cons_eq_cons.mp heq
    rcases brackets_in_order hrest with ⟨us, rfl⟩ | ⟨us, hcs⟩
    · simp only [byteSize_cons, byteSize_append]
      omega
    · exact absurd hshuts (h.2 before us hcs)

/-- The bracket that is found closes the first one. -/
theorem exists_inner {rest : List Char} {close : Nat} (h : delimiterPos? ('[' :: rest) ']' = some close) :
    ∃ cs after, rest = cs ++ ']' :: after ∧ Inner cs := by
  rw [delimiterPos?_eq_some_iff (by decide)] at h
  obtain ⟨⟨before, after, heq, rfl, hshuts⟩, hleast⟩ := h
  cases before with
  | nil => cases heq
  | cons c cs =>
    obtain ⟨rfl, rfl⟩ := List.cons_eq_cons.mp heq
    refine ⟨cs, after, rfl, hshuts, ?_⟩
    rintro before rest rfl hbefore
    -- a bracket in the text would have been found first
    have hle := hleast ⟨'[' :: before, rest ++ ']' :: after, by simp, rfl, hbefore⟩
    simp only [byteSize_cons, byteSize_append] at hle
    have := Char.utf8Size_pos ']'
    omega

/-! ## Targets as they ought to be, and others that are read -/

/-- A target: the name it has, its index, and what stands behind the closing bracket. -/
inductive Spelled : List Char → VarName → Option Index → List Char → Prop
  | name {target : List Char} {n : VarName} (h : VarName.read target = .ok n) : Spelled target n none []
  | item {name inner : List Char} {n : VarName} (tail : List Char) (h : VarName.read name = .ok n)
      (hi : Inner inner) : Spelled (name ++ '[' :: (inner ++ ']' :: tail)) n (some (Index.read inner)) tail

/-- A name, or a name and an index in brackets, with blanks around it. -/
def Written (target : List Char) (n : VarName) (index : Option Index) : Prop :=
  ∃ tail, Spelled target n index tail ∧ hasText tail = false

/-- A name and an index in brackets, with further text behind the closing bracket. -/
def Overruns (target : List Char) : Prop := ∃ n index tail, Spelled target n index tail ∧ hasText tail = true

theorem ne_bracket {cs : List Char} (h : '[' ∉ cs) : ∀ c ∈ cs, (c != '[') = true := by
  intro c hc
  rw [bne_iff_ne]
  rintro rfl
  exact h hc

/-- Without a bracket the whole target is the name. -/
theorem read_of_not_mem {target : List Char} (h : '[' ∉ target) :
    read target = (VarName.read target).map (·, none) := by
  unfold read
  rw [List.span_eq_takeWhile_dropWhile, List.takeWhile_eq_self_iff.mpr (ne_bracket h),
    List.dropWhile_eq_nil_iff.mpr (ne_bracket h)]
  cases VarName.read target with
  | error e => rfl
  | ok n => rfl

/-- The name ends at the first bracket. -/
theorem span_bracket {name : List Char} (h : '[' ∉ name) (rest : List Char) :
    (name ++ '[' :: rest).span (· != '[') = (name, '[' :: rest) := by
  rw [List.span_eq_takeWhile_dropWhile, List.takeWhile_append_of_pos (ne_bracket h),
    List.dropWhile_append_of_pos (ne_bracket h)]
  simp

theorem read_item {name inner : List Char} (hname : '[' ∉ name) (hi : Inner inner) (tail : List Char) :
    read (name ++ '[' :: (inner ++ ']' :: tail)) = (VarName.read name).map (·, some (Index.read inner)) := by
  have hcut : splitBytes ('[' :: (inner ++ ']' :: tail)) (byteSize ('[' :: inner))
      = some ('[' :: inner, ']' :: tail) := splitBytes_append ('[' :: inner) (']' :: tail)
  unfold read
  rw [span_bracket hname]
  simp only [delimiterPos?_of_inner hi, hcut]
  cases VarName.read name with
  | error e => rfl
  | ok n => rfl

/-- An index that is never closed is an error. -/
theorem read_open {name rest : List Char} (hname : '[' ∉ name) (h : delimiterPos? ('[' :: rest) ']' = none) :
    ∃ e, read (name ++ '[' :: rest) = .error e := by
  unfold read
  rw [span_bracket hname]
  simp only [h]
  cases VarName.read name with
  | error e => exact ⟨e, rfl⟩
  | ok n => exact ⟨_, rfl⟩

theorem map_eq_ok {α β ε : Type} {x : Except ε α} {f : α → β} {b : β} :
    x.map f = .ok b ↔ ∃ a, x = .ok a ∧ f a = b := by
  cases x with
  | error e => simp [Except.map]
  | ok a => simp [Except.map]

/-- **What is read is a target, with or without text behind it.** -/
theorem read_eq_ok_iff {target : List Char} {n : VarName} {index : Option Index} :
    read target = .ok (n, index) ↔ ∃ tail, Spelled target n index tail := by
  constructor
  · intro h
    by_cases hmem : '[' ∈ target
    · obtain ⟨name, rest, rfl, hname⟩ := List.eq_append_cons_of_mem hmem
      cases hclose : delimiterPos? ('[' :: rest) ']' with
      | none =>
        obtain ⟨e, he⟩ := read_open hname hclose
        rw [he] at h
        cases h
      | some close =>
        obtain ⟨inner, tail, rfl, hi⟩ := exists_inner hclose
        rw [read_item hname hi] at h
        obtain ⟨n, hn, heq⟩ := map_eq_ok.mp h
        cases heq
        exact ⟨tail, .item tail hn hi⟩
    · rw [read_of_not_mem hmem] at h
      obtain ⟨n, hn, heq⟩ := map_eq_ok.mp h
      cases heq
      exact ⟨[], .name hn⟩
  · rintro ⟨tail, h⟩
    cases h with
    | name h => rw [read_of_not_mem (VarName.not_mem_of_read h), h]; rfl
    | item tail h hi => rw [read_item (VarName.not_mem_of_read h) hi, h]; rfl

/-- What stands behind a target is found in one way. -/
theorem Spelled.tail_unique {target : List Char} {n n' : VarName} {index index' : Option Index}
    {tail tail' : List Char} (h : Spelled target n index tail) (h' : Spelled target n' index' tail') :
    tail = tail' := by
  cases h with
  | name h =>
    have hfree := VarName.not_mem_of_read h
    cases h' with
    | name => rfl
    | item => simp at hfree
  | @item name inner _ tail hn hi =>
    generalize htarget : name ++ '[' :: (inner ++ ']' :: tail) = target at h'
    cases h' with
    | name h' =>
      have hfree := VarName.not_mem_of_read h'
      simp [← htarget] at hfree
    | @item name' inner' _ tail' hn' hi' =>
      have hrest : '[' :: (inner ++ ']' :: tail) = '[' :: (inner' ++ ']' :: tail') := by
        have hspan := span_bracket (VarName.not_mem_of_read hn) (inner ++ ']' :: tail)
        rw [htarget, span_bracket (VarName.not_mem_of_read hn')] at hspan
        exact (Prod.ext_iff.mp hspan).2.symm
      have hpos := delimiterPos?_of_inner hi tail
      rw [hrest, delimiterPos?_of_inner hi', Option.some.injEq] at hpos
      have hcut := splitBytes_append ('[' :: inner) (']' :: tail)
      rw [← hpos, List.cons_append, hrest, ← List.cons_append, splitBytes_append] at hcut
      cases hcut
      rfl

theorem written_of_read {target : List Char} {n : VarName} {index : Option Index} (h : ¬ Overruns target)
    (hread : read target = .ok (n, index)) : Written target n index := by
  obtain ⟨tail, hs⟩ := read_eq_ok_iff.mp hread
  cases htail : hasText tail with
  | false => exact ⟨tail, hs, htail⟩
  | true => exact absurd ⟨n, index, tail, hs, htail⟩ h

theorem Overruns.not_written {target : List Char} (h : Overruns target) (n : VarName) (index : Option Index) :
    ¬ Written target n index := by
  rintro ⟨tail, hs, htail⟩
  obtain ⟨n', index', tail', hs', htail'⟩ := h
  rw [hs.tail_unique hs', htail'] at htail
  cases htail

/-- A target that is not read is an error, and the machine stays as it was. -/
theorem assignTarget_of_unread {target : List Char} (h : ∀ n index, read target ≠ .ok (n, index)) (c : Calls)
    (op : AssignOp) (v : Value) (m : Machine) : ∃ e, Machine.assignTarget c target op v m = .failed e m := by
  unfold Machine.assignTarget
  cases hread : read target with
  | error e => exact ⟨e, rfl⟩
  | ok r => exact absurd hread (h r.1 r.2)

/-- **Targets are read exactly, unless they overrun.** Every target that ought to be one is read, with its
name and its index. That nothing else is read, and that everything else is an error which leaves the
machine as it was, is the case for a text if and only if it does not go on behind its index. -/
theorem read_exact_iff (target : List Char) :
    (∀ n index, Written target n index → read target = .ok (n, index)) ∧
    (((∀ n index, read target = .ok (n, index) → Written target n index) ∧
        ((∀ n index, ¬ Written target n index) →
          ∀ c op v m, ∃ e, Machine.assignTarget c target op v m = .failed e m)) ↔
      ¬ Overruns target) := by
  refine ⟨fun n index ⟨tail, hs, _⟩ => read_eq_ok_iff.mpr ⟨tail, hs⟩, ?_, ?_⟩
  · rintro ⟨hread, -⟩ hover
    obtain ⟨n, index, tail, hs, -⟩ := id hover
    exact hover.not_written n index (hread n index (read_eq_ok_iff.mpr ⟨tail, hs⟩))
  · intro hover
    refine ⟨fun n index hread => written_of_read hover hread, fun hnot => ?_⟩
    exact assignTarget_of_unread fun n index hread => hnot n index (written_of_read hover hread)

/-- A second index is not looked at: the value goes to the item that the first one names. -/
theorem read_second_index :
    let run := (Engine.new {} {}).run "X[1][2] = 5"
    read "X[1][2]".toList = .ok (⟨"X", .number⟩, some (.value ['1'])) ∧
      (∀ n index, ¬ Written "X[1][2]".toList n index) ∧ run.1 = .done () ∧
      (run.2.machine.vars.var "X").values.toList.map (·.number) = [0, 5] := by
  have hname : VarName.read ['X'] = .ok ⟨"X", .number⟩ := by rfl
  have hinner : Inner ['1'] := by
    refine ⟨by decide, fun before rest heq => ?_⟩
    have hmem : ']' ∈ ['1'] := heq ▸ by simp
    exact absurd hmem (by decide)
  have hspelled := Spelled.item "[2]".toList hname hinner
  have hover : Overruns "X[1][2]".toList := ⟨_, _, _, hspelled, by decide⟩
  exact ⟨read_eq_ok_iff.mpr ⟨_, hspelled⟩, hover.not_written, by decide +kernel⟩

end Target

end QuestScript
