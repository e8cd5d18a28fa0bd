import QuestScript.Proofs.Ends
import QuestScript.Proofs.Frame

/-!
# Evaluations that never end

A run that is out of fuel whatever fuel it is given never ends. Two expressions are shown to do so,
both without any code in the world:

* `DYNEVAL` of a loop whose condition stays true (`eval_endless`). With enough fuel a turn of the loop
  gives its result and the next one starts, so by induction on the turns all are used up;
* `DESC` of a location whose description asks for itself (`eval_circle`). The evaluation that would
  give the description meets itself with less fuel.
-/

namespace QuestScript

namespace Run

variable {α β : Type} {a : α} {b : β} {x : Run α} {f : α → Run β} {m m' : Machine}

/-- A run is out of fuel wherever it is started. -/
def Stuck (x : Run α) : Prop := ∀ m, x m = .outOfFuel

/-- A run gives the result `a`, unless it is out of fuel. -/
def Gives (x : Run α) (a : α) : Prop := ∀ m, x m = .outOfFuel ∨ ∃ m', x m = .done a m'

theorem gives_pure (a : α) : (pure a : Run α).Gives a := fun m => .inr ⟨m, rfl⟩

theorem Stuck.bind (h : x.Stuck) (f : α → Run β) : (x >>= f).Stuck := fun m => bind_of_outOfFuel (h m)

/-- What gets stuck after a run that gives a value is stuck as a whole. -/
theorem Gives.bind_stuck (h : x.Gives a) (hf : (f a).Stuck) : (x >>= f).Stuck := by
  intro m
  rcases h m with hm | ⟨m', hm⟩
  · exact bind_of_outOfFuel hm
  · rw [bind_of_done hm]
    exact hf m'

/-- Values are handed on. -/
theorem Gives.bind (h : x.Gives a) (hf : (f a).Gives b) : (x >>= f).Gives b := by
  intro m
  rcases h m with hm | ⟨m', hm⟩
  · exact .inl (bind_of_outOfFuel hm)
  · rw [bind_of_done hm]
    exact hf m'

/-- A group is closed at the end of a run, and a run that is stuck has none. -/
theorem Stuck.grouped (h : x.Stuck) : x.grouped.Stuck := by
  intro m
  unfold Run.grouped
  dsimp only
  rw [h]

theorem Stuck.marked (h : x.Stuck) : x.marked.Stuck := by
  intro m
  unfold Run.marked
  rw [h]

theorem Gives.grouped (h : x.Gives a) : x.grouped.Gives a := by
  intro m
  unfold Run.grouped
  dsimp only
  rcases h { m with saves := m.saves.allocate } with hm | ⟨m', hm⟩
  · rw [hm]
    exact .inl rfl
  · rw [hm]
    exact .inr ⟨_, rfl⟩

end Run

namespace Machine

open Run

/-- An operation on one value that never ends is the end of its expression. -/
theorem evalSource_outOfFuel {c : Calls} {source : List Char} {m : Machine}
    (first second : Instruction) (v : Value) (hcompile : compile source = .ok #[first, second])
    (hfirst : ∀ cache, step c m.moves first [] { m with expressions := cache }
      = .done ([v], none) { m with expressions := cache })
    (hsecond : ∀ cache, step c m.moves second [v] { m with expressions := cache } = .outOfFuel) :
    evalSource c source m = .outOfFuel := by
  obtain ⟨cache, hcompiled⟩ := compiled_eq source m
  rw [hcompile] at hcompiled
  refine (bind_of_done hcompiled).trans ?_
  refine (bind_of_done (hfirst cache)).trans ?_
  exact bind_of_outOfFuel (hsecond cache)

/-! ## A loop without end -/

/-- The condition `1` compiles to one instruction, so it needs no fuel beyond the evaluation itself. -/
theorem eval_one_gives (n : Nat) : ((Calls.ofFuel n).eval ['1']).Gives (.number 1) := by
  intro m
  cases n with
  | zero => exact .inl rfl
  | succ n =>
    have hcompile : compile ['1'] = .ok #[{ op := .push, literal := some (.number 1) }] :=
      eq_ok_of_toOption (by decide +kernel)
    obtain ⟨cache, hcompiled⟩ := compiled_eq ['1'] m
    rw [hcompile] at hcompiled
    exact .inr ⟨_, bind_of_done hcompiled⟩

/-- A block without lines does nothing. -/
theorem lines_empty_gives (n : Nat) (lines : List Line) (i : Nat) :
    ((Calls.ofFuel n).lines lines i i false).Gives .next := by
  cases n with
  | zero => exact fun _ => .inl rfl
  | succ n =>
    show (linesFrom (Calls.ofFuel n) lines i (min i lines.length) false (Calls.ofFuel n).turns i).Gives _
    cases (Calls.ofFuel n).turns with
    | zero => exact fun _ => .inl rfl
    | succ turns =>
      rw [linesFrom_succ, if_pos (Nat.min_le_left _ _)]
      exact gives_pure _

/-- By induction on the turns: a condition that is always true uses them up. -/
theorem turnWhile_stuck {c : Calls} {h : LoopHeader} {body : Run Flow}
    (hcondition : (c.eval h.condition).Gives (.number 1)) (hbody : body.Gives .next)
    (hstep : h.step = none) (n : Nat) : (turnWhile c h body n).Stuck := by
  induction n with
  | zero => exact fun _ => rfl
  | succ n ih =>
    have hturn : (turn c body h.step).Gives .next := by
      rw [hstep]
      exact hbody.grouped.bind (gives_pure _)
    rw [turnWhile_succ]
    exact hcondition.bind_stuck ((gives_pure true).bind_stuck (hturn.bind_stuck ih))

/-- A loop whose condition is always true and whose body is empty. -/
def endless : List Line := Line.ofSource "LOOP WHILE 1:\nEND".toList

/-- The statement of its first line. -/
def endlessLoop : Statement := { kind := .loop, param := 5, stop := 12, args := [], error := none }

/-- Its first line. -/
def endlessHeader : Line :=
  { text := "LOOP WHILE 1:".toList, number := 1, label := none, statements := [endlessLoop]
    isMultiline := true }

/-- The loop of the sample opens its group and never leaves it. -/
theorem runLoop_endless (n : Nat) {body : Run Flow} (hbody : body.Gives .next) :
    (runLoop (Calls.ofFuel n) endlessHeader endlessLoop body).Stuck := by
  have hcolon : endlessHeader.hasColon endlessLoop = true := by decide +kernel
  have hread : (LoopHeader.read (endlessHeader.params endlessLoop) 1).map
      (fun h => (h.init, h.condition, h.step)) = some (none, ['1'], none) := by decide +kernel
  obtain ⟨⟨init, condition, step⟩, hread, heq⟩ := Option.map_eq_some_iff.mp hread
  cases heq
  unfold runLoop requireColon
  rw [if_pos hcolon, show endlessHeader.number = 1 from rfl, hread]
  refine (gives_pure ()).bind_stuck (Stuck.grouped ?_)
  exact (gives_pure Flow.next).bind_stuck (turnWhile_stuck (eval_one_gives n) hbody rfl _)

/-- The body of the sample has that loop as its only line. -/
theorem runBody_endless (n : Nat) : (runBody (Calls.ofFuel n) endless).Stuck := by
  have hlines : endless = [endlessHeader, Line.scan ['E', 'N', 'D'] 2] := by decide +kernel
  have hend : Block.end? endless 1 2 = some 1 := by decide +kernel
  cases n with
  | zero => exact fun _ => rfl
  | succ n =>
    refine Stuck.bind ?_ _
    show (linesFrom (Calls.ofFuel n) endless 0 (min endless.length endless.length) true
      (Calls.ofFuel n).turns 0).Stuck
    rw [Nat.min_self, show endless.length = 2 by rw [hlines]; rfl]
    cases (Calls.ofFuel n).turns with
    | zero => exact fun _ => rfl
    | succ turns =>
      -- the loop is the first line, and its block ends right below it
      have hheader : (runHeader (Calls.ofFuel n) endless 0 2 endlessHeader).Stuck := by
        unfold runHeader blockEnd
        rw [hend]
        refine (gives_pure 1).bind_stuck ?_
        exact (runLoop_endless n (lines_empty_gives n endless 1)).bind _
      rw [linesFrom_succ, if_neg (by omega), show endless[0]? = some endlessHeader by rw [hlines]; rfl]
      exact Gives.bind_stuck (a := ()) (fun _ => .inr ⟨_, rfl⟩) (hheader.marked.bind _)

/-- A call below the limit of depth runs its body, and so it is stuck with it. -/
theorem calling_outOfFuel {body : Run Unit} (hbody : body.Stuck) {m : Machine}
    (h : m.callDepth < m.config.maxCallDepth) : calling [] body m = .outOfFuel := by
  have hbind : (bindArgs []).Gives () := fun _ => .inr ⟨_, rfl⟩
  unfold calling Run.nested
  rw [if_neg (Nat.not_le.mpr h), Stuck.grouped (hbind.bind_stuck (hbody.bind _))]

/-- A loop that is run as text never ends, even where there is no location at all. -/
theorem eval_endless (n : Nat) {m : Machine} (h : m.callDepth < m.config.maxCallDepth) :
    (Calls.ofFuel n).eval "DYNEVAL \x7bLOOP WHILE 1:\nEND\x7d".toList m = .outOfFuel := by
  cases n with
  | zero => rfl
  | succ n =>
    let code : Value := .text "LOOP WHILE 1:\nEND"
    refine evalSource_outOfFuel { op := .push, literal := some code }
      { op := .dynEval none, argCount := 1 } code (eq_ok_of_toOption (by decide +kernel))
      (fun _ => rfl) fun cache => ?_
    have happly : applyOp (Calls.ofFuel n) (.dynEval none) [code] { m with expressions := cache }
        = .outOfFuel := bind_of_outOfFuel (calling_outOfFuel (runBody_endless n) h)
    have hargs : Run.ofExcept (coerceArgs (Op.dynEval none).argType 0 [code])
        { m with expressions := cache } = .done [code] { m with expressions := cache } := rfl
    exact bind_of_outOfFuel ((bind_of_done hargs).trans (bind_of_outOfFuel happly))

/-! ## A description that asks for itself -/

section Circle

variable {m : Machine} {l : Location} (hfind : m.world.find? "A" = some l)
  (hdescription : l.description = "<<DESC 'A'>>")
include hfind hdescription

/-- A description that asks for itself is evaluated before it is done. -/
theorem describe_circle {c : Calls} (hc : c.eval "DESC 'A'".toList m = .outOfFuel) :
    describe c "A" m = .outOfFuel := by
  have hfound : findLocation "A" m = .done l m := by
    unfold findLocation
    rw [hfind]
  have hparts : Text.parts "<<DESC 'A'>>".toList
      = [.plain [], .code "DESC 'A'".toList, .plain []] := by decide +kernel
  refine (bind_of_done hfound).trans ?_
  unfold formatText
  rw [hdescription, hparts]
  exact bind_of_outOfFuel (bind_of_outOfFuel hc)

/-- By induction on the fuel: to evaluate the description is to evaluate it again with less. -/
theorem eval_circle (n : Nat) : (Calls.ofFuel n).eval "DESC 'A'".toList m = .outOfFuel := by
  induction n generalizing m with
  | zero => rfl
  | succ n ih =>
    refine evalSource_outOfFuel { op := .format, literal := some (.text "A") }
      { op := .desc, argCount := 1 } (.text "A") (eq_ok_of_toOption (by decide +kernel))
      (fun cache => ?_) fun cache => ?_
    · -- the argument is a text without expressions
      have hparts : Text.parts "A".toList = [.plain ['A']] := by decide +kernel
      have hformat : formatText (Calls.ofFuel n) "A" = pure "A" := by
        unfold formatText
        rw [hparts]
        rfl
      show (formatText (Calls.ofFuel n) "A" >>= _) _ = _
      rw [hformat]
      exact bind_of_done (checkMoves_of_eq rfl)
    · have hfind' : ({ m with expressions := cache } : Machine).world.find? "A" = some l := hfind
      have happly : applyOp (Calls.ofFuel n) .desc [.text "A"] { m with expressions := cache }
          = .outOfFuel := bind_of_outOfFuel (describe_circle hfind' hdescription (ih hfind'))
      have hargs : Run.ofExcept (coerceArgs Op.desc.argType 0 [.text "A"])
          { m with expressions := cache } = .done [.text "A"] { m with expressions := cache } := rfl
      exact bind_of_outOfFuel ((bind_of_done hargs).trans (bind_of_outOfFuel happly))

end Circle

end Machine

end QuestScript
