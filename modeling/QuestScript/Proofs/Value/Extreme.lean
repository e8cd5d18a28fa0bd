import QuestScript.Proofs.Value.Order

/-!
# The least and the greatest of several values

`MIN` and `MAX` go through their arguments once and keep the best one so far. That works only as far as
the order of values is transitive, and it is not: the text `10` is less than the text `2`, the text `2`
is less than the number `10`, and that number equals the text `10`. So a value may be the best one so far
although an argument that was passed before is better (`min_not_least`).

The result is one of the arguments in any case. It is an extreme of them for all arguments taken from some
set of values if and only if less-than is transitive on that set (`isExtreme_iff`).

Numbers alone and texts alone are such sets, and there equality is that of values. So an extreme is the
same in whatever order the values come, and the form of `MIN` and `MAX` for arrays, which starts at the
last item, agrees with the other one (`extreme_array`).
-/

namespace QuestScript

namespace Value

variable {p : Value → Prop} {least : Bool} {a b v w : Value} {args vs : List Value}

/-! ## Extremes -/

/-- The order that a value has to the one whose place it takes. -/
def wanted (least : Bool) : Ordering := if least then .lt else .gt

/-- The value is one of the arguments, and none of them is less, or greater when the greatest is meant. -/
structure IsExtreme (least : Bool) (args : List Value) (v : Value) : Prop where
  mem : v ∈ args
  unbeaten : ∀ w ∈ args, w.compare v ≠ wanted least

/-- Less-than is transitive on the values that satisfy `p`. -/
def LessTransitive (p : Value → Prop) : Prop :=
  ∀ a b c, p a → p b → p c → a.compare b = .lt → b.compare c = .lt → a.compare c = .lt

theorem compare_self_ne_wanted (least : Bool) (v : Value) : v.compare v ≠ wanted least := by
  rw [compare_self]
  cases least <;> decide

theorem compare_ne_wanted (h : a.compare b = wanted least) : b.compare a ≠ wanted least := by
  rw [compare_swap a b, h]
  cases least <;> decide

/-- Seen from the other side, greater-than is less-than. -/
theorem lessTransitive_iff (least : Bool) :
    LessTransitive p ↔ ∀ a b c, p a → p b → p c →
      a.compare b = wanted least → b.compare c = wanted least → a.compare c = wanted least := by
  cases least with
  | true => rfl
  | false =>
    have hswap (a b : Value) : a.compare b = wanted false ↔ b.compare a = .lt := Std.OrientedCmp.gt_iff_lt
    simp only [hswap, LessTransitive]
    exact ⟨fun h a b c ha hb hc hab hbc => h c b a hc hb ha hbc hab,
      fun h a b c ha hb hc hab hbc => h c b a hc hb ha hbc hab⟩

/-! ## Keeping the best one so far -/

theorem pickExtreme_eq (least : Bool) (best v : Value) :
    pickExtreme least best v = if v.compare best = wanted least then v else best := by
  cases least <;> simp [pickExtreme, wanted]

theorem foldl_pickExtreme_mem (least : Bool) (v : Value) (vs : List Value) :
    vs.foldl (pickExtreme least) v ∈ v :: vs := by
  induction vs generalizing v with
  | nil => exact List.mem_singleton_self v
  | cons w vs ih =>
    rw [List.foldl_cons, pickExtreme_eq]
    split
    · exact List.mem_cons_of_mem _ (ih w)
    · rcases List.mem_cons.mp (ih v) with h | h
      · exact List.mem_cons.mpr (.inl h)
      · exact List.mem_cons_of_mem _ (List.mem_cons_of_mem _ h)

/-- The best one in the end is the first one, or better. -/
theorem foldl_pickExtreme_wanted (least : Bool) (ht : LessTransitive p) (hp : ∀ w ∈ v :: vs, p w) :
    vs.foldl (pickExtreme least) v = v ∨ (vs.foldl (pickExtreme least) v).compare v = wanted least := by
  induction vs generalizing v with
  | nil => exact .inl rfl
  | cons w vs ih =>
    have hpv : p v := hp v List.mem_cons_self
    have hpw : ∀ x ∈ w :: vs, p x := fun x hx => hp x (List.mem_cons_of_mem _ hx)
    rw [List.foldl_cons, pickExtreme_eq]
    split
    · next hw =>
      right
      rcases ih hpw with h | h
      · rwa [h]
      · exact (lessTransitive_iff least).mp ht _ _ _ (hpw _ (foldl_pickExtreme_mem least w vs))
          (hpw w List.mem_cons_self) hpv h hw
    · exact ih (List.forall_mem_cons.mpr ⟨hpv, fun x hx => hpw x (List.mem_cons_of_mem _ hx)⟩)

/-- No value that has been passed is better than the best one in the end. -/
theorem isExtreme_foldl (ht : LessTransitive p) (hp : ∀ w ∈ v :: vs, p w) :
    IsExtreme least (v :: vs) (vs.foldl (pickExtreme least) v) := by
  refine ⟨foldl_pickExtreme_mem least v vs, ?_⟩
  induction vs generalizing v with
  | nil =>
    intro x hx
    rw [List.mem_singleton.mp hx]
    exact compare_self_ne_wanted least v
  | cons w vs ih =>
    have hpv : p v := hp v List.mem_cons_self
    have hpw : ∀ x ∈ w :: vs, p x := fun x hx => hp x (List.mem_cons_of_mem _ hx)
    intro x hx
    rcases List.mem_cons.mp hx with rfl | hx
    · rcases foldl_pickExtreme_wanted least ht hp with h | h
      · rw [h]
        exact compare_self_ne_wanted least x
      · exact compare_ne_wanted h
    · rw [List.foldl_cons, pickExtreme_eq]
      split
      · exact ih hpw x hx
      · next hw =>
        have hpvs : ∀ x ∈ v :: vs, p x :=
          List.forall_mem_cons.mpr ⟨hpv, fun x hx => hpw x (List.mem_cons_of_mem _ hx)⟩
        rcases List.mem_cons.mp hx with rfl | hx
        · -- it was no better than the first one, and the result is that one or better
          intro hbetter
          rcases foldl_pickExtreme_wanted least ht hpvs with h | h
          · exact hw (h ▸ hbetter)
          · exact hw ((lessTransitive_iff least).mp ht _ _ _ (hpw _ List.mem_cons_self)
              (hpvs _ (foldl_pickExtreme_mem least v vs)) hpv hbetter h)
        · exact ih hpvs x (List.mem_cons_of_mem _ hx)

theorem extreme_mem (least : Bool) (h : args ≠ []) : extreme least args ∈ args := by
  obtain ⟨v, vs, rfl⟩ := List.exists_cons_of_ne_nil h
  exact foldl_pickExtreme_mem least v vs

theorem isExtreme_extreme (least : Bool) (ht : LessTransitive p) (hne : args ≠ []) (hp : ∀ v ∈ args, p v) :
    IsExtreme least args (extreme least args) := by
  obtain ⟨v, vs, rfl⟩ := List.exists_cons_of_ne_nil hne
  exact isExtreme_foldl ht hp

/-- Where three values are in order but the first and the last of them are not, the one in the middle comes
out as an extreme and is none. -/
theorem lessTransitive_of_isExtreme (least : Bool)
    (h : ∀ args : List Value, 2 ≤ args.length → (∀ v ∈ args, p v) → IsExtreme least args (extreme least args)) :
    LessTransitive p := by
  refine (lessTransitive_iff least).mpr fun a b c ha hb hc hab hbc => ?_
  refine Decidable.byContradiction fun hac => ?_
  have hresult : extreme least [c, a, b] = b := by
    simp only [extreme, List.foldl_cons, List.foldl_nil, pickExtreme_eq, if_neg hac, if_pos hbc]
  have hextreme := h [c, a, b] (by simp) (by simp [ha, hb, hc])
  rw [hresult] at hextreme
  exact hextreme.unbeaten a (by simp) hab

/-! ## The operations -/

/-- The operation that looks for the least or the greatest value. -/
def extremeOp (least : Bool) : Op := if least then .min else .max

theorem applyOp_extremeOp (c : Calls) (m : Machine) (least : Bool) (h : 2 ≤ args.length) :
    Machine.applyOp c (extremeOp least) args m = .done (extreme least args) m := by
  match args, h with
  | _ :: _ :: _, _ => cases least <;> rfl

/-- **An extreme is found where less-than is transitive.** Of two or more values, `MIN` and `MAX` give one
back. For all such lists of values out of some set, what they give is unbeaten by the other arguments if
and only if less-than is transitive on the set. -/
theorem isExtreme_iff (c : Calls) (m : Machine) (p : Value → Prop) (least : Bool) :
    (∀ args, 2 ≤ args.length → ∃ v ∈ args, Machine.applyOp c (extremeOp least) args m = .done v m) ∧
    ((∀ args, 2 ≤ args.length → (∀ v ∈ args, p v) →
      ∃ v, Machine.applyOp c (extremeOp least) args m = .done v m ∧ IsExtreme least args v) ↔
        LessTransitive p) := by
  have hne {args : List Value} (h : 2 ≤ args.length) : args ≠ [] := List.ne_nil_of_length_pos (by omega)
  refine ⟨fun args h => ⟨_, extreme_mem least (hne h), applyOp_extremeOp c m least h⟩, fun h => ?_, fun ht args h hp => ?_⟩
  · refine lessTransitive_of_isExtreme least fun args hlength hp => ?_
    obtain ⟨v, hv, hextreme⟩ := h args hlength hp
    rw [applyOp_extremeOp c m least hlength] at hv
    cases hv
    exact hextreme
  · exact ⟨_, applyOp_extremeOp c m least h, isExtreme_extreme least ht (hne h) hp⟩

/-- `MIN(10, '10', '2')` is the text `2`, although the text `10` is less. -/
theorem min_not_least :
    (∀ (c : Calls) (m : Machine),
      Machine.applyOp c .min [.number 10, .text "10", .text "2"] m = .done (.text "2") m) ∧
    (Value.text "10").compare (.text "2") = .lt := by
  have hresult : extreme true [.number 10, .text "10", .text "2"] = .text "2" := by decide +kernel
  refine ⟨fun c m => ?_, by decide +kernel⟩
  exact hresult ▸ applyOp_extremeOp c m true (by decide)

/-! ## Numbers and texts -/

theorem compare_number (a b : Number) : (number a).compare (number b) = Ord.compare a.toInt b.toInt := by
  rw [compare]

theorem compare_text (a b : String) : (text a).compare (text b) = Ord.compare a b := by
  rw [compare]

/-- Numbers alone and texts alone are in order. -/
theorem lessTransitive_type {ty : ValueType} (hty : ty ≠ .tuple) : LessTransitive (·.type = ty) := by
  intro a b c ha hb hc hab hbc
  subst ha
  cases a <;> cases b <;> cases hb <;> cases c <;> cases hc
  · rw [compare_number] at hab hbc ⊢
    exact Std.TransCmp.lt_trans hab hbc
  · rw [compare_text] at hab hbc ⊢
    exact Std.TransCmp.lt_trans hab hbc
  · exact absurd rfl hty

/-- Of two numbers or two texts, neither is less only if they are the same. -/
theorem eq_of_compare_eq (hty : a.type ≠ .tuple) (hb : b.type = a.type) (h : a.compare b = .eq) : a = b := by
  cases a <;> cases b <;> cases hb
  · rw [compare_number] at h
    exact congrArg number (Int64.toInt_inj.mp (Std.LawfulEqCmp.eq_of_compare h))
  · rw [compare_text] at h
    exact congrArg text (Std.LawfulEqCmp.eq_of_compare h)
  · exact absurd rfl hty

/-- Where no two values are equal in order, there is one extreme only. -/
theorem IsExtreme.unique {others : List Value} (h : IsExtreme least args v) (h' : IsExtreme least others w)
    (hmem : ∀ x, x ∈ args ↔ x ∈ others) (heq : v.compare w = .eq → v = w) : v = w := by
  have hvw := h'.unbeaten v ((hmem v).mp h.mem)
  have hwv := h.unbeaten w ((hmem w).mpr h'.mem)
  rw [compare_swap v w] at hwv
  cases hcompare : v.compare w with
  | eq => exact heq hcompare
  | lt | gt => cases least <;> simp [hcompare, wanted] at hvw hwv

/-- The extreme of numbers or of texts does not depend on the side from which they come. -/
theorem extreme_reverse {ty : ValueType} (hty : ty ≠ .tuple) (hne : args ≠ []) (h : ∀ v ∈ args, v.type = ty) :
    extreme least args.reverse = extreme least args := by
  have hrev : ∀ v ∈ args.reverse, v.type = ty := fun v hv => h v (List.mem_reverse.mp hv)
  have hextreme := isExtreme_extreme least (lessTransitive_type hty) hne h
  have hextreme' := isExtreme_extreme least (lessTransitive_type hty)
    (List.reverse_ne_nil_iff.mpr hne) hrev
  refine hextreme'.unique hextreme (fun _ => List.mem_reverse) fun heq => ?_
  have hleft := hrev _ hextreme'.mem
  exact eq_of_compare_eq (hleft ▸ hty) ((h _ hextreme.mem).trans hleft.symm) heq

end Value

/-! ## Arrays -/

namespace Store

open Value (extreme extremeOp)

variable {s : Store} {name : VarName} {least : Bool}

/-- The items of a variable, from the first to the last, as a name reads them. -/
def items (s : Store) (name : VarName) : List Value :=
  (s.var name.key).values.toList.map (·.get name.type)

theorem length_items (s : Store) (name : VarName) : (s.items name).length = s.size name.key := by
  rw [items, List.length_map, Array.length_toList]
  rfl

theorem type_of_mem_items {v : Value} (h : v ∈ s.items name) : v.type = name.type := by
  obtain ⟨slot, -, rfl⟩ := List.mem_map.mp h
  cases name.type <;> rfl

/-- The array form takes the items from the other end. -/
theorem extreme_eq_reverse (hne : s.items name ≠ []) (hfull : .text "" ∉ s.items name) :
    s.extreme name least = Value.extreme least (s.items name).reverse := by
  have hfilter : ((s.items name).reverse.filter (· != .text "")) = (s.items name).reverse := by
    rw [List.filter_eq_self]
    intro v hv
    exact bne_iff_ne.mpr fun h => hfull (List.mem_reverse.mp (h ▸ hv))
  rw [Store.extreme, List.map_reverse, ← items, hfilter]
  split
  · next hnil => exact absurd (List.reverse_eq_nil_iff.mp hnil) hne
  · next hcons => rw [hcons]; rfl

theorem applyOp_extremeOp_array (c : Calls) (m : Machine) (least : Bool) {v : Value}
    (h : VarName.read v.display.toList = .ok name) :
    Machine.applyOp c (extremeOp least) [v] m = .done (m.vars.extreme name least) m := by
  have hinspect : Machine.inspect? (extremeOp least) [v] m = some (.ok (m.vars.extreme name least)) := by
    cases least <;> simp only [Machine.inspect?, extremeOp] <;> rw [h] <;> rfl
  have hcompute : (extremeOp least).compute? [v] = none := by cases least <;> rfl
  simp only [Machine.applyOp, hcompute, hinspect]
  rfl

/-- **An array has the extremes of its items.** The least and the greatest item of a variable with two or more
items, read as numbers or as texts none of which is empty, are those of the list of its items. So `MIN` and
`MAX` give the same for the name of the variable as for its items as arguments. -/
theorem extreme_array (s : Store) (name : VarName) (least : Bool) (hsize : 2 ≤ s.size name.key)
    (hitems : name.type = .number ∨ name.type = .text ∧ .text "" ∉ s.items name) :
    s.extreme name least = Value.extreme least (s.items name) ∧
    ∀ (c : Calls) (m : Machine) (v : Value), m.vars = s → VarName.read v.display.toList = .ok name →
      Machine.applyOp c (extremeOp least) [v] m = Machine.applyOp c (extremeOp least) (s.items name) m := by
  have hlength : 2 ≤ (s.items name).length := by rwa [length_items]
  have hne : s.items name ≠ [] := List.ne_nil_of_length_pos (by omega)
  have htype : name.type ≠ .tuple := by
    rcases hitems with h | ⟨h, -⟩ <;> rw [h] <;> decide
  have hfull : .text "" ∉ s.items name := by
    rcases hitems with h | ⟨-, h⟩
    · intro hmem
      have htext := type_of_mem_items hmem
      rw [h] at htext
      cases htext
    · exact h
  have hextreme : s.extreme name least = Value.extreme least (s.items name) := by
    rw [extreme_eq_reverse hne hfull, Value.extreme_reverse htype hne fun _ => type_of_mem_items]
  refine ⟨hextreme, fun c m v hm hname => ?_⟩
  rw [applyOp_extremeOp_array c m least hname, hm, hextreme, Value.applyOp_extremeOp c m least hlength]

theorem extreme_array_sample :
    let v : Variable := ⟨#[⟨3, "pear", []⟩, ⟨1, "apple", []⟩, ⟨2, "fig", []⟩], []⟩
    let s : Store := Store.restore { maxVariables := 1, maxItems := 3 } "X" v
    let name : VarName := ⟨"X", .text⟩
    2 ≤ s.size name.key ∧ .text "" ∉ s.items name ∧
      s.extreme name true = Value.extreme true [.text "pear", .text "apple", .text "fig"] ∧
      ∀ (c : Calls) (m : Machine), m.vars = s → Machine.applyOp c .min [.text "$X"] m = .done (.text "apple") m := by
  intro v s name
  have hvar : s.var "X" = v := by with_unfolding_all rfl
  have hitems : s.items name = [.text "pear", .text "apple", .text "fig"] := by rw [items, hvar]; rfl
  have hsize : 2 ≤ s.size name.key := by rw [← length_items, hitems]; decide
  have hfull : .text "" ∉ s.items name := by rw [hitems]; decide
  obtain ⟨hextreme, happly⟩ := extreme_array s name true hsize (.inr ⟨rfl, hfull⟩)
  refine ⟨hsize, hfull, hitems ▸ hextreme, fun c m hm => ?_⟩
  have hmin : Value.extreme true (s.items name) = .text "apple" := by rw [hitems]; decide +kernel
  have hname : VarName.read (Value.text "$X").display.toList = .ok name := by rfl
  exact (happly c m _ hm hname).trans
    (hmin ▸ Value.applyOp_extremeOp c m true (by rwa [length_items]))

end Store

end QuestScript
