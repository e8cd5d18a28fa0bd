import QuestScript.Variable.Store

/-!
# Saved bindings

`LOCAL` gives a variable a fresh start until the running frame ends. Every frame opens a group; a
variable declared local is moved into the innermost group, and closing the group puts it back. A
frame that ends with an error drops its group instead.

Frames are closed by the depth at which they were opened, so a frame whose group is already gone
closes nothing.
-/

namespace QuestScript

/-- The variables one frame has saved, the last one first. -/
abbrev SaveGroup := List (String × Variable)

/-- The groups of the open frames, the innermost one first. -/
structure Saves where
  groups : List SaveGroup := []

namespace Saves

def depth (s : Saves) : Nat := s.groups.length

/-- Open a group. Its mark is the depth before it. -/
def allocate (s : Saves) : Saves := ⟨[] :: s.groups⟩

/-- Move a variable into the innermost group, unless that group holds it already. -/
def localize (s : Saves) (store : Store) (key : String) : Saves × Store :=
  match s.groups with
  | [] => (s, store)
  | g :: gs =>
    if g.any (·.1 == key) then (s, store)
    else (⟨((key, store.var key) :: g) :: gs⟩, store.removeVar key)

/-- Put back the variables of a group, the last one saved first. -/
def restoreGroup (g : SaveGroup) (store : Store) : Store :=
  g.foldl (fun store (key, v) => store.restore key v) store

/-- Close the groups above a depth, the innermost one first. -/
def closeAbove (mark : Nat) (restore : Bool) : List SaveGroup → Store → List SaveGroup × Store
  | [], store => ([], store)
  | g :: gs, store =>
    if mark < (g :: gs).length then
      closeAbove mark restore gs (if restore then restoreGroup g store else store)
    else (g :: gs, store)

/-- Close every group above a mark and put its variables back, or drop them. -/
def release (s : Saves) (mark : Nat) (restore : Bool) (store : Store) : Saves × Store :=
  let (groups, store) := closeAbove mark restore s.groups store
  (⟨groups⟩, store)

/-- Close all groups and put their variables back. -/
def restoreAll (s : Saves) (store : Store) : Saves × Store := s.release 0 true store

end Saves

end QuestScript
