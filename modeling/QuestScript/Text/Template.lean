import QuestScript.Text.Scan

/-!
# Texts with expressions inside

A text may hold expressions between `<<` and `>>`. The closing mark is looked for outside literals
and brackets of the expression; the opening one is simply the next there is. What an expression puts
in its place is never looked at again, so a text can be cut into its parts beforehand.
-/

namespace QuestScript.Text

/-- A part of a text: plain text, an expression, or a mark that is never closed, with which the
text ends. -/
inductive Part where
  | plain (text : List Char)
  | code (source : List Char)
  | unclosed
deriving DecidableEq, Repr

/-- The text before and after the first opening mark. -/
def cutAtOpening? : List Char → Option (List Char × List Char)
  | [] => none
  | '<' :: '<' :: cs => some ([], cs)
  | c :: cs => (cutAtOpening? cs).map fun (before, after) => (c :: before, after)

theorem length_cutAtOpening?_lt {cs before after : List Char}
    (h : cutAtOpening? cs = some (before, after)) : after.length < cs.length := by
  fun_induction cutAtOpening? cs generalizing before after with
  | case1 => cases h
  | case2 cs =>
    cases h
    simp only [List.length_cons]
    omega
  | case3 c cs _ ih =>
    obtain ⟨⟨b, a⟩, hb, heq⟩ := Option.map_eq_some_iff.1 h
    cases heq
    have := ih hb
    simp only [List.length_cons]
    omega

/-- The text before and after the closing mark. -/
def cutAtClosing? (cs : List Char) : Option (List Char × List Char) := do
  let pos ← wordPos? cs ['>', '>'] false
  let (before, rest) ← splitBytes cs pos
  return (before, rest.drop 2)

theorem length_cutAtClosing?_le {cs before after : List Char}
    (h : cutAtClosing? cs = some (before, after)) : after.length ≤ cs.length := by
  unfold cutAtClosing? at h
  cases hp : wordPos? cs ['>', '>'] false with
  | none => simp [hp] at h
  | some pos =>
    cases hs : splitBytes cs pos with
    | none => simp [hp, hs] at h
    | some ab =>
      obtain ⟨a, b⟩ := ab
      simp only [hp, hs, Option.bind_eq_bind, Option.bind_some, Option.pure_def,
        Option.some.injEq, Prod.mk.injEq] at h
      rw [← h.2, (splitBytes_eq_some hs).1]
      simp only [List.length_drop, List.length_append]
      omega

/-- The parts of a text, from left to right. -/
def parts (cs : List Char) : List Part :=
  match _h : cutAtOpening? cs with
  | none => [.plain cs]
  | some (before, inner) =>
    match _h' : cutAtClosing? inner with
    | none => [.plain before, .unclosed]
    | some (source, rest) => .plain before :: .code source :: parts rest
termination_by cs.length
decreasing_by
  have := length_cutAtOpening?_lt _h
  have := length_cutAtClosing?_le _h'
  omega

end QuestScript.Text
