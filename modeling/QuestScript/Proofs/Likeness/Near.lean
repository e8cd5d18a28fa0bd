import QuestScript.Engine
import QuestScript.Proofs.Likeness.Block

/-!
# Machines that are near

The likeness in which two engines are compared. It leaves open what the flags of the screen and the
caches are and how often the location has been replaced, up to a constant difference. The lines at
which the two machines stand, and those at which an error is reported, are linked by a relation `R`:
for equality the reports are the same (`Reply.Near.eq`), and other relations follow a line through a
run.

The place of the first error is empty in both machines as long as no error has been met, and stays
empty when a change of location ends the run. So an entry ends as it starts: near, and without a
place (`Engine.enter_near`).
-/

namespace QuestScript

/-- Two places that differ at most in their lines, which are linked. -/
structure Site.Near (R : Nat → Nat → Prop) (s s' : Site) : Prop where
  location : s.location = s'.location
  action : s.action = s'.action
  line : R s.line s'.line

theorem Site.Near.eq {s s' : Site} (h : s.Near Eq s') : s = s' := by
  obtain ⟨location, action, line⟩ := s
  obtain ⟨location', action', line'⟩ := s'
  obtain ⟨rfl, rfl, rfl⟩ := h
  rfl

/-- The places of two errors, or where else the machines stand. -/
theorem Site.near_getD {R : Nat → Nat → Prop} {o o' : Option Site} {s s' : Site}
    (ho : Option.Rel (Site.Near R) o o') (hs : s.Near R s') : (o.getD s).Near R (o'.getD s') := by
  cases ho with
  | some h => exact h
  | none => exact hs

theorem Site.isSome_eq_of_near {R : Nat → Nat → Prop} {o o' : Option Site}
    (ho : Option.Rel (Site.Near R) o o') : o'.isSome = o.isSome := by
  cases ho with
  | some h => rfl
  | none => rfl

/-- Two machines that agree, whose lines are linked and whose counts of changes of location differ
by a constant. -/
structure Machine.Near (R : Nat → Nat → Prop) (a b : Nat) (m m' : Machine) : Prop
    extends m.Agrees m' where
  line : R m.site.line m'.site.line
  moves : m.moves + a = m'.moves + b

theorem Machine.Near.site {R : Nat → Nat → Prop} {a b : Nat} {m m' : Machine}
    (h : m.Near R a b m') : m.site.Near R m'.site := ⟨h.location, h.action, h.line⟩

/-- The places of an error are linked as well. -/
structure Machine.NearAfter (R : Nat → Nat → Prop) (a b : Nat) (e : Error) (m m' : Machine) : Prop
    extends Machine.Near R a b m m' where
  errorSite : Option.Rel (Site.Near R) m.errorSite m'.errorSite
  control : e.kind.isControl = true → m.errorSite = none ∧ m'.errorSite = none

/-- An error is marked where the machines stand, unless it is marked already. -/
theorem Machine.NearAfter.markError {R : Nat → Nat → Prop} {a b : Nat} {e : Error} {m m' : Machine}
    (h : m.NearAfter R a b e m') : (m.markError e).NearAfter R a b e (m'.markError e) := by
  unfold Machine.markError
  rw [Site.isSome_eq_of_near h.errorSite]
  split
  · exact h
  · next hmark =>
    have hkind : e.kind.isControl = false := by
      cases hk : e.kind.isControl with
      | false => rfl
      | true => simp [hk] at hmark
    exact ⟨{ h.toNear with }, .some h.site, fun hk => absurd hk (by simp [hkind])⟩

/-- Machines that are near are kept near by every step. -/
def near (R : Nat → Nat → Prop) (hR : ∀ l, R l l) (a b : Nat) : Likeness where
  ok m m' := m.Near R a b m' ∧ m.errorSite = none ∧ m'.errorSite = none
  err e m m' := m.NearAfter R a b e m'
  agrees h := h.1.toAgrees
  agrees_err h := h.toAgrees
  moves := by
    rintro m₁ m₁' m₂ m₂' ⟨h₁, -⟩ ⟨h₂, -⟩
    have := h₁.moves
    have := h₂.moves
    constructor
    · intro
      omega
    · intro
      omega
  fail := by
    rintro m m' e ⟨h, hm, hm'⟩
    refine ⟨h, ?_, fun _ => ⟨hm, hm'⟩⟩
    rw [hm, hm']
    exact .none
  bindings _ _ h := ⟨{ h.1 with vars := rfl, saves := rfl }, h.2⟩
  bindings_err _ _ h := { h with vars := rfl, saves := rfl }
  screen hf h := ⟨{ h.1 with screen := hf.congr h.1.screen }, h.2⟩
  host _ told h := ⟨{ h.1 with host := rfl, clock := fun hnone => h.1.clock (told hnone) }, h.2⟩
  rng _ h := ⟨{ h.1 with rng := rfl }, h.2⟩
  expressions _ h := ⟨{ h.1 with }, h.2⟩
  patterns _ h := ⟨{ h.1 with }, h.2⟩
  site s h := ⟨{ h.1 with location := rfl, action := rfl, line := hR s.line }, h.2⟩
  back h₁ h₂ :=
    ⟨{ h₂.1 with location := h₁.1.location, action := h₁.1.action, line := h₁.1.line }, h₂.2⟩
  back_err h₁ h₂ :=
    { h₂ with location := h₁.1.location, action := h₁.1.action, line := h₁.1.line }
  mark h := h.markError
  enter _ h := ⟨{ h.1 with callDepth := congrArg (· + 1) h.1.callDepth }, h.2⟩
  exit h := ⟨{ h.1 with callDepth := congrArg (· - 1) h.1.callDepth }, h.2⟩
  exit_err h := { h with callDepth := congrArg (· - 1) h.callDepth }
  move := by
    rintro m m' ⟨h, hs⟩
    refine ⟨{ h with moves := ?_ }, hs⟩
    have := h.moves
    show m.moves + 1 + a = m'.moves + 1 + b
    omega

/-! ## Replies -/

/-- Two failures with the same error at places that are near. -/
structure Failure.Near (R : Nat → Nat → Prop) (f f' : Failure) : Prop where
  error : f.error = f'.error
  site : f.site.Near R f'.site

theorem Failure.Near.eq {f f' : Failure} (h : f.Near Eq f') : f = f' := by
  obtain ⟨error, site⟩ := f
  obtain ⟨error', site'⟩ := f'
  obtain ⟨rfl, hs⟩ := h
  obtain rfl : site = site' := hs.eq
  rfl

/-- Two replies that are the same but for the lines of a failure, which are linked. -/
inductive Reply.Near {α : Type} (R : Nat → Nat → Prop) : Reply α → Reply α → Prop
  | done (a : α) : Near R (.done a) (.done a)
  | cut : Near R .cut .cut
  | failed {f f' : Failure} : f.Near R f' → Near R (.failed f) (.failed f')
  | stuck : Near R .stuck .stuck

theorem Reply.Near.eq {α : Type} {r r' : Reply α} (h : r.Near Eq r') : r = r' := by
  cases h with
  | done a => rfl
  | cut => rfl
  | failed hf => rw [hf.eq]
  | stuck => rfl

theorem Reply.Near.map {α β : Type} {R : Nat → Nat → Prop} {r r' : Reply α} (h : r.Near R r')
    (f : α → β) : (r.map f).Near R (r'.map f) := by
  cases h with
  | done a => exact .done (f a)
  | cut => exact .cut
  | failed hf => exact .failed hf
  | stuck => exact .stuck

/-! ## Engines -/

/-- Two engines whose machines are near, with last errors that are. -/
structure Engine.Near (R : Nat → Nat → Prop) (a b : Nat) (e e' : Engine) : Prop where
  machine : e.machine.Near R a b e'.machine
  noSite : e.machine.errorSite = none ∧ e'.machine.errorSite = none
  lastError : Option.Rel (Failure.Near R) e.lastError e'.lastError

namespace Engine

variable {R : Nat → Nat → Prop} {a b : Nat} {e e' : Engine}

/-- An engine without a place of an error is near to itself. -/
theorem near_self (hR : ∀ l, R l l) (h : e.machine.errorSite = none) : e.Near R 0 0 e where
  machine := ⟨.refl _, hR _, rfl⟩
  noSite := ⟨h, h⟩
  lastError := by
    cases e.lastError with
    | none => exact .none
    | some f => exact .some ⟨rfl, rfl, rfl, hR _⟩

/-- Reporting an error after runs that have met it. -/
theorem fail_near {α : Type} {error : Error} {m m' : Machine} {last last' : Option Failure}
    (h : m.NearAfter R a b error m') :
    let r : Reply α × Engine := fail { machine := m, lastError := last } error
    let r' : Reply α × Engine := fail { machine := m', lastError := last' } error
    r.1.Near R r'.1 ∧ r.2.Near R a b r'.2 := by
  have hsite := Site.near_getD h.errorSite h.site
  exact ⟨.failed ⟨rfl, hsite⟩, { h.toNear with }, ⟨rfl, rfl⟩, .some ⟨rfl, hsite⟩⟩

/-- **Entries whose runs go alike end alike.** -/
theorem enter_near {α : Type} (hR : ∀ l, R l l) {x y : Run α} (hx : Run.Alike (near R hR a b) x y)
    (h : e.Near R a b e') :
    (e.enter x).1.Near R (e'.enter y).1 ∧ (e.enter x).2.Near R a b (e'.enter y).2 := by
  have hr := hx { e.machine with errorSite := none } { e'.machine with errorSite := none }
    ⟨{ h.machine with }, rfl, rfl⟩
  unfold enter
  generalize x { e.machine with errorSite := none } = r at hr
  generalize y { e'.machine with errorSite := none } = r' at hr
  cases hr with
  | done v hm => exact ⟨.done v, hm.1, hm.2, h.lastError⟩
  | outOfFuel => exact ⟨.stuck, h⟩
  | failed error hm =>
    dsimp only
    split
    · next hk => exact ⟨.cut, hm.toNear, hm.control hk, h.lastError⟩
    · exact fail_near hm

end Engine

end QuestScript
