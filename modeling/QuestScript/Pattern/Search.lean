import QuestScript.Pattern.Program

/-!
# Searching

All ways through a program are followed at once, one character at a time. A way is a place in the
program with the positions it has saved; ways are kept in the order in which a search that tries one
after the other would come upon them. Two ways that reach the same step go on alike, so only the
first one is kept: there are never more ways than steps.

The first way in that order that accepts is the match, unless an earlier way is still open and
accepts later. A new way starts at every position until a match is known, after all others.
-/

namespace QuestScript.Pattern

/-- A place in the text: the character before it and all after it, and how many are before. -/
structure Place where
  before : Option Char
  after : List Char
  index : Nat

namespace Look

/-- Whether a character belongs to a word. -/
def isWord (unicode : Bool) (c : Char) : Bool :=
  if unicode then Text.isWord c else CharSet.asciiWord.holds c

/-- Whether a boundary is between two sides, told by whether they belong to a word. -/
def holdsBetween (before after : Bool) : Boundary → Bool
  | .either => before != after
  | .neither => before == after
  | .start => !before && after
  | .stop => before && !after
  | .startHalf => !before
  | .stopHalf => !after

/-- Whether a condition holds at a place. -/
def holds (p : Place) : Look → Bool
  | textStart => p.before.isNone
  | textEnd => p.after.isEmpty
  | lineStart => p.before.isNone || p.before == some '\n'
  | lineEnd => p.after.isEmpty || p.after.head? == some '\n'
  | crlfStart =>
    p.before.isNone || p.before == some '\n' ||
      (p.before == some '\r' && p.after.head? != some '\n')
  | crlfEnd =>
    p.after.isEmpty || p.after.head? == some '\r' ||
      (p.after.head? == some '\n' && p.before != some '\r')
  | word b unicode =>
    holdsBetween (p.before.any (isWord unicode)) (p.after.head?.any (isWord unicode)) b

end Look

/-- Saved positions, the last one first. -/
abbrev Slots := List (Nat × Nat)

/-- A way through the program: the step it is at and what it has saved. -/
structure Way where
  step : Nat
  slots : Slots

/-- Ways in order, the last one first, and the steps that have been reached. -/
structure Ways where
  list : List Way := []
  reached : Array Bool

namespace Ways

/-- No ways yet. -/
def start (program : Program) : Ways := { reached := Array.replicate program.size false }

/-- Number of steps that have not been reached. -/
def unreached (reached : Array Bool) : Nat := reached.countP (!·)

theorem unreached_set_lt {reached : Array Bool} {i : Nat} (hi : i < reached.size)
    (h : reached[i] = false) : unreached (reached.set i true) < unreached reached := by
  unfold unreached
  have hmem : false ∈ reached := h ▸ Array.getElem_mem hi
  have hpos : 0 < reached.countP (!·) := Array.countP_pos_iff.2 ⟨false, hmem, rfl⟩
  rw [Array.countP_set]
  simp [h]
  omega

/-- The ways on from a way whose step looks at no character. -/
def onward (p : Place) (w : Way) : Step → List Way
  | .jump offset => [{ w with step := (w.step + offset).toNat }]
  | .fork first second =>
    [{ w with step := (w.step + first).toNat }, { w with step := (w.step + second).toNat }]
  | .save slot => [⟨w.step + 1, (slot, p.index) :: w.slots⟩]
  | .look l => if l.holds p then [{ w with step := w.step + 1 }] else []
  | .char _ | .accept => []

/-- Follow ways up to the steps that look at a character or accept. Ways that reach a known step
end there. -/
def follow (program : Program) (p : Place) (ws : Ways) : List Way → Ways
  | [] => ws
  | w :: rest =>
    if h : w.step < ws.reached.size then
      if h' : ws.reached[w.step] then follow program p ws rest
      else
        let reached := ws.reached.set w.step true
        match program[w.step]? with
        | none => follow program p { ws with reached } rest
        | some step =>
          match step with
          | .char _ | .accept => follow program p ⟨w :: ws.list, reached⟩ rest
          | _ => follow program p { ws with reached } (onward p w step ++ rest)
    else follow program p ws rest
termination_by todo => (unreached ws.reached, todo.length)
decreasing_by
  all_goals simp_wf
  all_goals first
    | (apply Prod.Lex.left; exact unreached_set_lt h (by simpa using h'))
    | (apply Prod.Lex.right; omega)

end Ways

/-- The ways up to the first one that accepts, and what that one has saved. -/
def cutAtAccept (program : Program) : List Way → List Way × Option Slots
  | [] => ([], none)
  | w :: ws =>
    match program[w.step]? with
    | some .accept => ([], some w.slots)
    | _ =>
      let (live, found) := cutAtAccept program ws
      (w :: live, found)

/-- Add the ways on from a way whose step has read a character; `p` is the place after it. -/
def pass (program : Program) (c : Char) (p : Place) (ws : Ways) (w : Way) : Ways :=
  match program[w.step]? with
  | some (.char s) =>
    if s.holds c then ws.follow program p [{ w with step := w.step + 1 }] else ws
  | _ => ws

/-- The ways after a character. -/
def advance (program : Program) (c : Char) (p : Place) (live : List Way) : Ways :=
  live.foldl (pass program c p) (Ways.start program)

/-- Go on with the search from a place with the ways that lead there and the match so far. -/
def searchFrom (program : Program) (before : Option Char) (index : Nat) (ws : Ways)
    (found : Option Slots) : List Char → Option Slots
  | [] =>
    let ws := if found.isNone then ws.follow program ⟨before, [], index⟩ [⟨0, []⟩] else ws
    (cutAtAccept program ws.list.reverse).2.or found
  | c :: cs =>
    let ws := if found.isNone then ws.follow program ⟨before, c :: cs, index⟩ [⟨0, []⟩] else ws
    let (live, accepted) := cutAtAccept program ws.list.reverse
    let found := accepted.or found
    if live.isEmpty && found.isSome then found
    else
      let next := advance program c ⟨some c, cs, index + 1⟩ live
      searchFrom program (some c) (index + 1) next found cs

/-- The positions saved by the first match in a text. -/
def Program.search (program : Program) (cs : List Char) : Option Slots :=
  searchFrom program none 0 (Ways.start program) none cs

end QuestScript.Pattern
