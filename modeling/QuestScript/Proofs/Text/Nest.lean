import QuestScript.Proofs.Text.Standing

/-!
# Texts with all brackets closed

`Standing` counts the brackets of each kind, as the readers of texts do; it does not see that `([)]`
closes its brackets in the wrong order. `Nest` knows in which order they are to be closed, and fails at a
bracket that does not fit. A text is closed if it can be followed to its end and nothing is open there.

Of a closed text the counts say no less than the order does (`Nest.standing_after`).
-/

namespace QuestScript.Text

/-- The bracket that closes another one. -/
def closerOf? (c : Char) : Option Char :=
  if c == '(' then some ')' else if c == '[' then some ']' else if c == '{' then some '}' else none

theorem closerOf?_eq_some {c e : Char} (h : closerOf? c = some e) :
    (c = '(' ∧ e = ')') ∨ (c = '[' ∧ e = ']') ∨ c = '{' ∧ e = '}' := by
  unfold closerOf? at h
  split at h
  · next hc => exact .inl ⟨by simpa using hc, (Option.some.inj h).symm⟩
  split at h
  · next hc => exact .inr (.inl ⟨by simpa using hc, (Option.some.inj h).symm⟩)
  split at h
  · next hc => exact .inr (.inr ⟨by simpa using hc, (Option.some.inj h).symm⟩)
  · cases h

/-- Whether a character closes a bracket. -/
def isCloser (c : Char) : Bool := c == ')' || c == ']' || c == '}'

/-- The quote of the literal that is open, and the brackets that are still to be closed, the innermost
first. -/
structure Nest where
  quote : Option Char := none
  closers : List Char := []
deriving DecidableEq, Repr

namespace Nest

/-- Read one character; a bracket that closes nothing, or something else, does not fit. -/
def step (n : Nest) (c : Char) : Option Nest :=
  match n.quote with
  | some q => some (if c == q then { n with quote := none } else n)
  | none =>
    if isQuote c then some { n with quote := some c }
    else
      match closerOf? c with
      | some e => some { n with closers := e :: n.closers }
      | none =>
        if isCloser c then
          match n.closers with
          | e :: rest => if e == c then some { n with closers := rest } else none
          | [] => none
        else some n

/-- Read a text. -/
def after (n : Nest) (cs : List Char) : Option Nest := cs.foldlM step n

@[simp] theorem after_nil (n : Nest) : n.after [] = some n := rfl

theorem after_cons (n : Nest) (c : Char) (cs : List Char) : n.after (c :: cs) = (n.step c).bind (·.after cs) :=
  List.foldlM_cons

theorem after_append (n : Nest) (as bs : List Char) : n.after (as ++ bs) = (n.after as).bind (·.after bs) :=
  List.foldlM_append

/-- A text that can be followed has beginnings that can. -/
theorem exists_after_of_append {n n' : Nest} {as bs : List Char} (h : n.after (as ++ bs) = some n') :
    ∃ n₁, n.after as = some n₁ ∧ n₁.after bs = some n' := by
  rw [after_append] at h
  exact Option.bind_eq_some_iff.mp h

variable {c q : Char} {l : List Char}

theorem step_quote (h : isQuote c = true) : step ⟨none, l⟩ c = some ⟨some c, l⟩ := by simp [step, h]

theorem step_close : step ⟨some q, l⟩ q = some ⟨none, l⟩ := by simp [step]

theorem step_inside (h : c ≠ q) : step ⟨some q, l⟩ c = some ⟨some q, l⟩ := by simp [step, h]

/-- What one character outside literals does. -/
theorem step_plain {n : Nest} (hq : isQuote c = false) (h : step ⟨none, l⟩ c = some n) :
    (∃ e, closerOf? c = some e ∧ n = ⟨none, e :: l⟩) ∨
      (∃ rest, closerOf? c = none ∧ isCloser c = true ∧ l = c :: rest ∧ n = ⟨none, rest⟩) ∨
      closerOf? c = none ∧ isCloser c = false ∧ n = ⟨none, l⟩ := by
  simp only [step, hq, Bool.false_eq_true, if_false] at h
  split at h
  · next e he =>
    cases h
    exact .inl ⟨e, he, rfl⟩
  · next he =>
    split at h
    · next hc =>
      split at h
      · next e rest =>
        split at h
        · next heq =>
          cases h
          exact .inr (.inl ⟨rest, he, hc, by rw [beq_iff_eq.mp heq], rfl⟩)
        · cases h
      · cases h
    · next hc =>
      cases h
      exact .inr (.inr ⟨he, by simpa using hc, rfl⟩)

/-- A closing bracket fits the innermost bracket. -/
theorem step_closer {n : Nest} (hc : isCloser c = true) (h : step ⟨none, l⟩ c = some n) :
    ∃ rest, l = c :: rest ∧ n = ⟨none, rest⟩ := by
  have hc' : c = ')' ∨ c = ']' ∨ c = '}' := by simpa [isCloser, or_assoc] using hc
  have hplain : isQuote c = false ∧ closerOf? c = none := by rcases hc' with rfl | rfl | rfl <;> decide
  rcases step_plain hplain.1 h with ⟨e, he, -⟩ | ⟨rest, -, -, hl, hn⟩ | ⟨-, hnot, -⟩
  · rw [hplain.2] at he
    cases he
  · exact ⟨rest, hl, hn⟩
  · rw [hc] at hnot
    cases hnot

/-! ## Counts -/

/-- The brackets of each kind that are open. -/
def depth (l : List Char) : Depth := ⟨l.count ')', l.count ']', l.count '}'⟩

/-- Where a text stands, with the brackets counted. -/
def standing (n : Nest) : Standing := ⟨n.quote, depth n.closers⟩

theorem standing_step {n n' : Nest} (h : n.step c = some n') : n.standing.step c = n'.standing := by
  obtain ⟨quote, l⟩ := n
  cases quote with
  | some q =>
    by_cases hc : c = q
    · subst hc
      rw [step_close] at h
      cases h
      exact Standing.step_close
    · rw [step_inside hc] at h
      cases h
      exact Standing.step_inside hc
  | none =>
    cases hq : isQuote c with
    | true =>
      rw [step_quote hq] at h
      cases h
      exact Standing.step_quote hq
    | false =>
      show Standing.step ⟨none, depth l⟩ c = _
      rw [Standing.step_plain hq]
      rcases step_plain hq h with ⟨e, he, rfl⟩ | ⟨rest, he, hc, rfl, rfl⟩ | ⟨he, hc, rfl⟩
      · rcases closerOf?_eq_some he with ⟨rfl, rfl⟩ | ⟨rfl, rfl⟩ | ⟨rfl, rfl⟩ <;>
          simp [standing, depth, Depth.track]
      · have h' : c = ')' ∨ c = ']' ∨ c = '}' := by simpa [isCloser, or_assoc] using hc
        rcases h' with rfl | rfl | rfl <;> simp [standing, depth, Depth.track]
      · have hne : ∀ x ∈ ['(', ')', '[', ']', '{', '}'], ¬ (c == x) = true := by
          intro x hx hcx
          obtain rfl : c = x := by simpa using hcx
          simp only [List.mem_cons, List.not_mem_nil, or_false] at hx
          rcases hx with rfl | rfl | rfl | rfl | rfl | rfl <;>
            first | exact absurd he (by decide) | exact absurd hc (by decide)
        unfold Depth.track
        rw [if_neg (hne _ (by decide)), if_neg (hne _ (by decide)), if_neg (hne _ (by decide)),
          if_neg (hne _ (by decide)), if_neg (hne _ (by decide)), if_neg (hne _ (by decide))]
        rfl

/-- Counting the brackets of a text that can be followed gives the counts of those still open. -/
theorem standing_after {n n' : Nest} {cs : List Char} (h : n.after cs = some n') :
    n.standing.after cs = n'.standing := by
  induction cs generalizing n with
  | nil =>
    cases h
    rfl
  | cons c cs ih =>
    rw [after_cons] at h
    obtain ⟨n₁, h₁, h₂⟩ := Option.bind_eq_some_iff.mp h
    rw [Standing.after_cons, standing_step h₁, ih h₂]

/-- Brackets around a text are left alone by it. -/
theorem step_frame {n n' : Nest} (h : n.step c = some n') (k : List Char) :
    step ⟨n.quote, n.closers ++ k⟩ c = some ⟨n'.quote, n'.closers ++ k⟩ := by
  obtain ⟨quote, l⟩ := n
  cases quote with
  | some q =>
    by_cases hc : c = q
    · subst hc
      rw [step_close] at h
      cases h
      exact step_close
    · rw [step_inside hc] at h
      cases h
      exact step_inside hc
  | none =>
    cases hq : isQuote c with
    | true =>
      rw [step_quote hq] at h
      cases h
      exact step_quote hq
    | false =>
      rcases step_plain hq h with ⟨e, he, rfl⟩ | ⟨rest, he, hc, rfl, rfl⟩ | ⟨he, hc, rfl⟩
      · simp [step, hq, he]
      · simp [step, hq, he, hc]
      · simp [step, hq, he, hc]

theorem after_frame {n n' : Nest} {cs : List Char} (h : n.after cs = some n') (k : List Char) :
    after ⟨n.quote, n.closers ++ k⟩ cs = some ⟨n'.quote, n'.closers ++ k⟩ := by
  induction cs generalizing n with
  | nil =>
    cases h
    rfl
  | cons c cs ih =>
    rw [after_cons] at h ⊢
    obtain ⟨n₁, h₁, h₂⟩ := Option.bind_eq_some_iff.mp h
    rw [step_frame h₁ k]
    exact ih h₂

/-! ## Literals and blocks -/

theorem after_quoted {body : List Char} (hq : isQuote q = true) (l : List Char) (h : Quoted q body) :
    after ⟨some q, l⟩ (body ++ [q]) = some ⟨none, l⟩ := by
  induction h with
  | nil => rw [List.nil_append, after_cons, step_close, Option.bind_some, after_nil]
  | double _ ih =>
    rw [List.cons_append, List.cons_append, after_cons, step_close, Option.bind_some, after_cons, step_quote hq]
    exact ih
  | char hne _ ih =>
    rw [List.cons_append, after_cons, step_inside hne]
    exact ih

/-- A literal changes nothing. -/
theorem after_closeQuote {cs body rest : List Char} (hq : isQuote q = true) (l : List Char)
    (h : closeQuote q cs = some (body, rest)) : after ⟨some q, l⟩ (body ++ [q]) = some ⟨none, l⟩ :=
  after_quoted hq l (quoted_of_closeQuote h).1

/-- Any other character leaves the braces alone, and what is around the innermost one. -/
theorem step_within_brace {n : Nest} {u : List Char} (hq : isQuote c = false) (ho : c ≠ '{') (hc : c ≠ '}')
    (h : step ⟨none, u ++ '}' :: l⟩ c = some n) :
    ∃ u', n = ⟨none, u' ++ '}' :: l⟩ ∧ u'.count '}' = u.count '}' := by
  rcases step_plain hq h with ⟨e, he, rfl⟩ | ⟨rest, -, -, heq, rfl⟩ | ⟨-, -, rfl⟩
  · have hne : e ≠ '}' := by
      rintro rfl
      rcases closerOf?_eq_some he with ⟨-, h⟩ | ⟨-, h⟩ | ⟨rfl, -⟩
      · cases h
      · cases h
      · exact ho rfl
    exact ⟨e :: u, rfl, by simp [hne]⟩
  · cases u with
    | nil => exact absurd (List.cons.inj heq).1.symm hc
    | cons x u =>
      obtain ⟨rfl, rfl⟩ := List.cons.inj heq
      exact ⟨u, rfl, by simp [hc]⟩
  · exact ⟨u, rfl, rfl⟩

theorem after_braced {k : Nat} {body u l : List Char} {n : Nest} (h : Braced k body) (hu : u.count '}' = k)
    (hn : after ⟨none, u ++ '}' :: l⟩ (body ++ ['}']) = some n) : n = ⟨none, l⟩ := by
  induction h generalizing u with
  | nil =>
    rw [List.nil_append, after_cons] at hn
    obtain ⟨n₁, h₁, h₂⟩ := Option.bind_eq_some_iff.mp hn
    cases h₂
    obtain ⟨rest, heq, rfl⟩ := step_closer (by decide) h₁
    cases u with
    | nil =>
      cases heq
      rfl
    | cons x u =>
      obtain ⟨rfl, -⟩ := List.cons.inj heq
      simp at hu
  | @literal k c lit body hq hlit _ _ ih =>
    rw [show c :: (lit ++ c :: body) ++ ['}'] = c :: ((lit ++ [c]) ++ (body ++ ['}'])) by simp, after_cons,
      step_quote hq, Option.bind_some, after_append, after_quoted hq _ hlit] at hn
    exact ih hu hn
  | opening _ ih =>
    rw [List.cons_append, after_cons] at hn
    exact ih (u := '}' :: u) (by simp [hu]) hn
  | closing _ ih =>
    rw [List.cons_append, after_cons] at hn
    obtain ⟨n₁, h₁, h₂⟩ := Option.bind_eq_some_iff.mp hn
    obtain ⟨rest, heq, rfl⟩ := step_closer (by decide) h₁
    cases u with
    | nil => simp at hu
    | cons x u =>
      obtain ⟨rfl, rfl⟩ := List.cons.inj heq
      exact ih (by simpa using hu) h₂
  | char hq ho hc _ ih =>
    rw [List.cons_append, after_cons] at hn
    obtain ⟨n₁, h₁, h₂⟩ := Option.bind_eq_some_iff.mp hn
    obtain ⟨u', rfl, hcount⟩ := step_within_brace hq ho hc h₁
    exact ih (hcount.trans hu) h₂

/-- A block that fits leaves the brackets around it as they were: its braces are counted, and at the
last of them no other bracket can be open in it. -/
theorem after_closeBlock {k : Nat} {cs body rest u l : List Char} {n : Nest}
    (h : closeBlock k cs = some (body, rest)) (hu : u.count '}' = k)
    (hn : after ⟨none, u ++ '}' :: l⟩ (body ++ ['}']) = some n) : n = ⟨none, l⟩ :=
  after_braced (braced_of_closeBlock h) hu hn

end Nest

/-- A text with all its brackets and literals closed, each bracket by its own counterpart. -/
def Closed (cs : List Char) : Prop := Nest.after {} cs = some {}

instance (cs : List Char) : Decidable (Closed cs) := inferInstanceAs (Decidable (_ = _))

/-! ## Parts of closed texts -/

/-- Whether a character neither opens nor closes anything. -/
def isNeutral (c : Char) : Bool := !isQuote c && (closerOf? c).isNone && !isCloser c

/-- What is open is a literal only if a quote has opened it. -/
theorem Nest.isQuote_of_step {n n' : Nest} {c : Char} (h : n.step c = some n')
    (hn : ∀ q ∈ n.quote, isQuote q = true) : ∀ q ∈ n'.quote, isQuote q = true := by
  obtain ⟨quote, l⟩ := n
  cases quote with
  | some q =>
    by_cases hc : c = q
    · subst hc
      rw [step_close] at h
      cases h
      exact nofun
    · rw [step_inside hc] at h
      cases h
      exact hn
  | none =>
    cases hq : isQuote c with
    | true =>
      rw [step_quote hq] at h
      cases h
      intro q hq'
      cases hq'
      exact hq
    | false =>
      rcases step_plain hq h with ⟨e, -, rfl⟩ | ⟨rest, -, -, -, rfl⟩ | ⟨-, -, rfl⟩
      all_goals exact nofun

theorem Nest.isQuote_of_after {n n' : Nest} {cs : List Char} (h : n.after cs = some n')
    (hn : ∀ q ∈ n.quote, isQuote q = true) : ∀ q ∈ n'.quote, isQuote q = true := by
  induction cs generalizing n with
  | nil =>
    cases h
    exact hn
  | cons c cs ih =>
    rw [after_cons] at h
    obtain ⟨n₁, h₁, h₂⟩ := Option.bind_eq_some_iff.mp h
    exact ih h₂ (isQuote_of_step h₁ hn)

theorem Nest.step_of_isNeutral {n : Nest} {c : Char} (hn : ∀ q ∈ n.quote, isQuote q = true)
    (hc : isNeutral c = true) : n.step c = some n := by
  simp only [isNeutral, Bool.and_eq_true, Bool.not_eq_true', Option.isNone_iff_eq_none] at hc
  obtain ⟨⟨hquote, hopen⟩, hclose⟩ := hc
  obtain ⟨quote, l⟩ := n
  cases quote with
  | some q =>
    refine step_inside ?_
    rintro rfl
    rw [hn c rfl] at hquote
    cases hquote
  | none => simp [step, hquote, hopen, hclose]

theorem Nest.after_of_isNeutral {n : Nest} {cs : List Char} (hn : ∀ q ∈ n.quote, isQuote q = true)
    (hcs : ∀ x ∈ cs, isNeutral x = true) : n.after cs = some n := by
  induction cs with
  | nil => rfl
  | cons c cs ih =>
    rw [after_cons, step_of_isNeutral hn (hcs c List.mem_cons_self)]
    exact ih fun x hx => hcs x (List.mem_cons_of_mem _ hx)

/-- A closed text stays closed without the characters at its ends that neither open nor close anything. -/
theorem Closed.of_append {pre cs post : List Char} (h : Closed (pre ++ (cs ++ post)))
    (hpre : ∀ x ∈ pre, isNeutral x = true) (hpost : ∀ x ∈ post, isNeutral x = true) : Closed cs := by
  have hstart : ∀ q ∈ ({} : Nest).quote, isQuote q = true := by simp
  unfold Closed at h ⊢
  rw [Nest.after_append, Nest.after_of_isNeutral hstart hpre, Option.bind_some] at h
  obtain ⟨n, hn, hend⟩ := Nest.exists_after_of_append h
  rw [Nest.after_of_isNeutral (Nest.isQuote_of_after hn hstart) hpost] at hend
  rw [hn, hend]

/-- A closed text ends outside literals and blocks. -/
theorem Closed.standing_after {cs : List Char} (h : Closed cs) : Standing.after {} cs = {} :=
  Nest.standing_after (n := {}) h

end QuestScript.Text
