import QuestScript.Proofs.Store

/-!
# Writes that fail

A write computes its value, looks for its position, which may give a new key an item, makes room for the
variable and stores the value; the first two and the making of room can fail. Nothing has been written
when one of them does:

* without room the store has lost the variables that hold nothing, and only these (`update_eq_error`);
* a new key is created only after the value has been computed and the position checked, and then its
  variable is there, so the last step cannot fail (`storeAt_after_appendKey`).
-/

namespace QuestScript

namespace Store

variable {s s' : Store} {key : String} {e : Error}

/-! ## Making room -/

/-- The variables that hold something are the same without the others. -/
theorem names_prune (s : Store) : s.prune.names = s.names := by
  simp [names, prune, Std.TreeMap.toList_filter, List.filter_filter]

/-- There is room for a variable that is there. -/
theorem update_of_contains (h : s.vars.contains key = true) (f : Variable → Variable) :
    s.update key f = (.ok (), { s with vars := s.vars.modify key f }) := by
  simp [update, makeRoom, h]

/-- Where there is no room, those variables have gone that hold nothing. -/
theorem update_eq_error {f : Variable → Variable} (h : s.update key f = (.error e, s')) :
    s' = s.prune := by
  by_cases hc : s.vars.contains key = true
  · rw [update_of_contains hc] at h
    cases h
  · by_cases hroom : s.vars.size < s.maxVariables
    · simp [update, makeRoom, hc, hroom] at h
    · by_cases hpruned : s.prune.vars.size < s.prune.maxVariables
      · simp [update, makeRoom, hc, hroom, hpruned] at h
      · simp [update, makeRoom, hc, hroom, hpruned] at h
        exact h.2.symm

/-- A variable that has been written is there. -/
theorem contains_of_update {f : Variable → Variable} (h : s.update key f = (.ok (), s')) :
    s'.vars.contains key = true := by
  obtain ⟨room, s₁, heq, -, -, hroom⟩ := s.makeRoom_cases key
  unfold update at h
  rw [heq] at h
  cases room with
  | false => cases h
  | true =>
    cases h
    rw [Std.TreeMap.contains_modify]
    exact hroom rfl

/-! ## Steps that fail -/

/-- A store in which nothing was written: it is the same, or has lost variables that hold nothing. -/
def Untouched (s s' : Store) : Prop := s' = s ∨ s' = s.prune

theorem untouched_of_putRaw {position : Nat} {v : Value} (h : s.putRaw key position v = (.error e, s')) :
    s.Untouched s' := by
  unfold putRaw at h
  split at h
  · cases h
    exact .inl rfl
  · exact .inr (update_eq_error h)

theorem untouched_of_storeAt {name : VarName} {position : Option Nat} {v : Value}
    (h : s.storeAt name position v = (.error e, s')) : s.Untouched s' := by
  cases position with
  | none => cases h
  | some p => exact untouched_of_putRaw h

/-- The value of a new key can be stored. -/
theorem storeAt_after_appendKey {name : VarName} {position : Nat} {f : Variable → Variable}
    (hcheck : s.checkPosition position = .ok ()) (h : s.update name.key f = (.ok (), s')) (v : Value) :
    ∃ s'', s'.storeAt name (some position) v = (.ok (), s'') := by
  have hmax : s'.maxItems = s.maxItems := congrArg Prod.snd (update_eq_ok h).1
  have hcheck' : s'.checkPosition position = .ok () := by
    have hlt := lt_of_checkPosition hcheck
    simp [checkPosition, hmax, hlt]
  have hstored := update_of_contains (contains_of_update h) (·.put position v)
  simp [storeAt, putRaw, hcheck', hstored]

theorem untouched_of_assign {name : VarName} {position : Option Nat} {op : AssignOp} {v : Value}
    (h : s.assign name position op v = (.error e, s')) : s.Untouched s' := by
  unfold assign at h
  split at h
  · cases h
    exact .inl rfl
  · exact untouched_of_storeAt h

theorem untouched_of_assignIndex {name : VarName} {index : Value} {op : AssignOp} {v : Value}
    (h : s.assignIndex name index op v = (.error e, s')) : s.Untouched s' := by
  unfold assignIndex at h
  split at h
  · cases h
    exact .inl rfl
  · next w _ =>
    rcases s.positionForWrite_cases name.key index with ⟨r, heq⟩ | ⟨-, hcheck, heq⟩
    · rw [heq] at h
      cases r with
      | error e' =>
        cases h
        exact .inl rfl
      | ok position => exact untouched_of_storeAt h
    · rw [heq] at h
      cases hupdate : s.update name.key (·.appendKey index.key) with
      | mk r s₁ =>
        rw [hupdate] at h
        cases r with
        | error e' =>
          cases h
          exact .inr (update_eq_error hupdate)
        | ok u =>
          -- the only step after something was written
          obtain ⟨s₂, hstored⟩ := storeAt_after_appendKey hcheck hupdate w
          dsimp only [Except.map] at h
          rw [hstored] at h
          cases h

theorem untouched_of_copyArray {dest src : String} {start : Number} {count : Option Number}
    (h : s.copyArray dest src start count = (.error e, s')) : s.Untouched s' := by
  unfold copyArray at h
  split at h
  · cases h
  · exact .inr (update_eq_error h)

/-! ## Writes -/

/-- The writes that can fail. -/
inductive Write where
  | set (name : VarName) (index v : Value)
  | assign (name : VarName) (position : Option Nat) (op : AssignOp) (v : Value)
  | assignIndex (name : VarName) (index : Value) (op : AssignOp) (v : Value)
  | putRaw (key : String) (position : Nat) (v : Value)
  | copyArray (dest src : String) (start : Number) (count : Option Number)

/-- Make a write. -/
def write (s : Store) : Write → Except Error Unit × Store
  | .set name index v => s.set name index v
  | .assign name position op v => s.assign name position op v
  | .assignIndex name index op v => s.assignIndex name index op v
  | .putRaw key position v => s.putRaw key position v
  | .copyArray dest src start count => s.copyArray dest src start count

theorem untouched_of_write {w : Write} (h : s.write w = (.error e, s')) : s.Untouched s' := by
  cases w with
  | set name index v => exact untouched_of_assignIndex h
  | assign name position op v => exact untouched_of_assign h
  | assignIndex name index op v => exact untouched_of_assignIndex h
  | putRaw key position v => exact untouched_of_putRaw h
  | copyArray dest src start count => exact untouched_of_copyArray h

/-- **A write that fails changes nothing.** The same variables hold something, and every variable has the
items and the keys it had. -/
theorem failed_write_keeps {w : Write} (h : s.write w = (.error e, s')) :
    s'.names = s.names ∧ ∀ key, s'.var key = s.var key := by
  rcases untouched_of_write h with rfl | rfl
  · exact ⟨rfl, fun _ => rfl⟩
  · exact ⟨s.names_prune, s.var_prune⟩

/-- In a full store there is no room for a further variable, and a key gets no item when its value would
be divided by zero. -/
theorem failed_write_keeps_sample :
    let s := ((Bindings.new 1 8).run [.set ⟨"A", .number⟩ (.text "k") (.number 5)]).store
    let full := s.write (.assignIndex ⟨"B", .number⟩ (.text "k") .add (.number 1))
    let divided := s.write (.assignIndex ⟨"A", .number⟩ (.text "l") .div (.number 0))
    (full.1 = .error ⟨.tooManyVariables, none⟩ ∧ full.2.names = s.names ∧
      ∀ key, full.2.var key = s.var key) ∧
    divided.1 = .error ⟨.divisionByZero, none⟩ ∧ divided.2.names = s.names ∧
      ∀ key, divided.2.var key = s.var key := by
  intro s full divided
  have hfull : full.1 = .error ⟨.tooManyVariables, none⟩ := by with_unfolding_all rfl
  have hdivided : divided.1 = .error ⟨.divisionByZero, none⟩ := by with_unfolding_all rfl
  exact ⟨⟨hfull, failed_write_keeps (Prod.ext hfull rfl)⟩,
    hdivided, failed_write_keeps (Prod.ext hdivided rfl)⟩

end Store

end QuestScript
