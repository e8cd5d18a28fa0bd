/-!
# Searching by halving

A list in which the entries that are too small come first and those that are too great come last is
searched by halving. An order tells how an entry compares with what is looked for; where one entry
fits at most, the search ends at it, or else at the place where it would have to stand.
-/

namespace QuestScript

/-- Where a search in a list of `n` entries ends. -/
inductive Bisection (n : Nat) where
  /-- At an entry that fits. -/
  | hit (i : Fin n)
  /-- Between the entries that are too small and those that are too great. -/
  | gap (i : Fin (n + 1))
deriving DecidableEq, Repr

namespace Bisection

variable {α : Type} (order : α → Ordering) (xs : List α)

/-- The last of the `size` entries from `base` on that is not too great, or the one at `base`. Of
several entries the upper half is dropped if its first one is too great, and the lower half if it is
not. -/
def narrow (base size : Nat) (nonempty : 0 < size) (inside : base + size ≤ xs.length) :
    Fin xs.length :=
  if single : size = 1 then ⟨base, by omega⟩
  else
    let half := size / 2
    if order xs[base + half] = .gt then narrow base (size - half) (by omega) (by omega)
    else narrow (base + half) (size - half) (by omega) (by omega)
termination_by size

/-- Search the whole list. -/
def search : Bisection xs.length :=
  if empty : xs.length = 0 then .gap 0
  else
    let i := narrow order xs 0 xs.length (by omega) (by omega)
    match order xs[i] with
    | .lt => .gap i.succ
    | .eq => .hit i
    | .gt => .gap i.castSucc

/-- The entry that fits. -/
def find? : Option α :=
  match search order xs with
  | .hit i => some xs[i]
  | .gap _ => none

end Bisection

end QuestScript
