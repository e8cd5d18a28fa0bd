import QuestScript.Machine.Eval

/-!
# The order of values

Nine pairs of types are compared by rules of their own, and four of these rules are written for one
direction only. The items of tuples bring all of them together.

Seen from the other side, a comparison comes out reversed (`compare_swap`), and a value equals itself
(`compare_self`). So the signs of comparison mean what they say: two of them are one seen from both
sides, and two others exclude each other (`comparisons_agree`).
-/

namespace QuestScript

namespace Value

/-! ## Both directions -/

mutual

/-- A comparison seen from the other side. -/
theorem compare_swap : ∀ a b : Value, compare b a = (compare a b).swap
  | .number a, .number b => by
    rw [compare, compare]
    exact Std.OrientedOrd.eq_swap
  | .text a, .text b => by
    rw [compare, compare]
    exact Std.OrientedOrd.eq_swap
  | .tuple as, .tuple bs => by
    rw [compare, compare]
    exact compareItems_swap as bs
  | .number a, .text b => by rw [compare, compare]
  | .text a, .number b => by rw [compare, compare, Ordering.swap_swap]
  | .tuple as, .number b => by rw [compare, compare]
  | .number a, .tuple bs => by rw [compare, compare, Ordering.swap_swap]
  | .tuple as, .text b => by rw [compare, compare]
  | .text a, .tuple bs => by rw [compare, compare, Ordering.swap_swap]

/-- The items of two tuples decide in the same place from both sides. -/
theorem compareItems_swap : ∀ as bs : List Value, compareItems bs as = (compareItems as bs).swap
  | [], [] => rfl
  | [], _ :: _ => rfl
  | _ :: _, [] => rfl
  | a :: as, b :: bs => by
    rw [compareItems, compareItems, Ordering.swap_then, compare_swap a b, compareItems_swap as bs]

end

instance : Std.OrientedCmp compare where
  eq_swap {a b} := compare_swap b a

/-- A value equals itself: no other order is its own reverse. -/
theorem compare_self (a : Value) : compare a a = .eq := Std.ReflCmp.compare_self

/-! ## The signs of comparison -/

/-- The operations that compare. -/
def comparisons : List Op := [.eq, .ne, .lt, .gt, .le, .ge]

/-- A comparison asks nothing but the order of its two arguments. -/
theorem applyOp_comparison (c : Calls) {op : Op} (h : op ∈ comparisons) (a b : Value) :
    Machine.applyOp c op [a, b] = pure (.ofBool (op.holdsOf (compare a b))) := by
  simp only [comparisons, List.mem_cons, List.not_mem_nil, or_false] at h
  rcases h with rfl | rfl | rfl | rfl | rfl | rfl <;> rfl

theorem holdsOf_lt_swap (o : Ordering) : Op.lt.holdsOf o.swap = Op.gt.holdsOf o := by
  cases o <;> rfl

theorem holdsOf_eq_swap (o : Ordering) : Op.eq.holdsOf o.swap = Op.eq.holdsOf o := by
  cases o <;> rfl

/-- **Comparison is the same from both sides.** Seen from the other side, the order of two values comes
out reversed, and a value equals itself. So `<` is `>` from the other side, `<=` is what `>` is not, and
for `=` the sides do not matter. -/
theorem comparisons_agree (c : Calls) (a b : Value) :
    compare b a = (compare a b).swap ∧ compare a a = .eq ∧
    Machine.applyOp c .lt [a, b] = Machine.applyOp c .gt [b, a] ∧
    (∃ yes, Machine.applyOp c .gt [a, b] = pure (.ofBool yes) ∧
      Machine.applyOp c .le [a, b] = pure (.ofBool !yes)) ∧
    Machine.applyOp c .eq [a, b] = Machine.applyOp c .eq [b, a] := by
  refine ⟨compare_swap a b, compare_self a, ?_, ⟨_, applyOp_comparison c (by decide) a b, ?_⟩, ?_⟩
  · rw [applyOp_comparison c (by decide), applyOp_comparison c (by decide), compare_swap b a,
      holdsOf_lt_swap]
  · -- `<=` is defined as the negation of `>`
    exact applyOp_comparison c (by decide) a b
  · rw [applyOp_comparison c (by decide), applyOp_comparison c (by decide), compare_swap b a,
      holdsOf_eq_swap]

end Value

end QuestScript
