import Mathlib.Order.Bounds.Basic
import QuestScript.Proofs.Text.Literal
import QuestScript.Text.Scan

/-!
# Where a text stands

After some of its characters a text stands inside a literal or outside, with brackets of three kinds
open. Several readers of texts keep track of this, each in its own way: some look ahead at the next
character to tell a closing quote from the first of two, some jump over a literal at once, and one
remembers a quote between two pieces of text.

`Standing` says the same one character at a time, without looking ahead: a quote closes the literal
it opened, and two quotes in a row close it and open it again. What the others do is compared with
it, here for the literals and blocks that are jumped over (`after_closeQuote`, `after_closeBlock`) and
for the search for a separator (`delimiterPos?_eq_some_iff`).
-/

namespace QuestScript.Text

/-- The quote of the literal that is open, and the brackets that have been opened outside literals. -/
structure Standing where
  quote : Option Char := none
  depth : Depth := {}
deriving DecidableEq, Repr

namespace Standing

/-- Read one character. -/
def step (s : Standing) (c : Char) : Standing :=
  match s.quote with
  | some q => if c == q then { s with quote := none } else s
  | none => if isQuote c then { s with quote := some c } else { s with depth := s.depth.track c }

/-- Read a text. -/
def after (s : Standing) (cs : List Char) : Standing := cs.foldl step s

/-- Outside literals and code blocks. -/
def isOutside (s : Standing) : Bool := s.quote.isNone && s.depth.curly == 0

@[simp] theorem after_nil (s : Standing) : s.after [] = s := rfl

@[simp] theorem after_cons (s : Standing) (c : Char) (cs : List Char) :
    s.after (c :: cs) = (s.step c).after cs := rfl

@[simp] theorem after_append (s : Standing) (as bs : List Char) :
    s.after (as ++ bs) = (s.after as).after bs := List.foldl_append

/-- Outside means: in no literal, and in no block of code. -/
theorem isOutside_iff {s : Standing} : s.isOutside = true ↔ s.quote = none ∧ s.depth.curly = 0 := by
  simp [isOutside]

variable {c q : Char} {d : Depth}

theorem step_quote (h : isQuote c = true) : step ⟨none, d⟩ c = ⟨some c, d⟩ := by simp [step, h]

theorem step_plain (h : isQuote c = false) : step ⟨none, d⟩ c = ⟨none, d.track c⟩ := by
  simp [step, h]

/-- The same quote closes a literal. -/
theorem step_close : step ⟨some q, d⟩ q = ⟨none, d⟩ := by simp [step]

/-- Nothing else is looked at inside of one. -/
theorem step_inside (h : c ≠ q) : step ⟨some q, d⟩ c = ⟨some q, d⟩ := by simp [step, h]

end Standing

/-! ## Brackets -/

/-- On top no bracket is open. -/
theorem Depth.isTop_iff {d : Depth} : d.isTop = true ↔ d = {} := by
  cases d
  simp [isTop, and_assoc]

/-- The depth changes at brackets only. -/
theorem Depth.track_of_not_isDelimiter (d : Depth) {c : Char} (h : isDelimiter c = false) :
    d.track c = d := by
  have hne (b : Char) (hb : isDelimiter b = true) : ¬ (c == b) = true := by
    simp only [beq_iff_eq]
    rintro rfl
    rw [h] at hb
    cases hb
  unfold track
  rw [if_neg (hne _ (by decide)), if_neg (hne _ (by decide)), if_neg (hne _ (by decide)),
    if_neg (hne _ (by decide)), if_neg (hne _ (by decide)), if_neg (hne _ (by decide))]

theorem isQuote_of_not_isDelimiter {c : Char} (h : isDelimiter c = false) : isQuote c = false := by
  cases hq : isQuote c with
  | false => rfl
  | true => rw [isDelimiter_of_isQuote hq] at h; cases h

theorem Standing.step_of_not_isDelimiter {c : Char} (h : isDelimiter c = false) (d : Depth) :
    step ⟨none, d⟩ c = ⟨none, d⟩ := by
  rw [step_plain (isQuote_of_not_isDelimiter h), d.track_of_not_isDelimiter h]

/-- A text without quotes and brackets is passed as it stands. -/
theorem Standing.after_of_not_isDelimiter {cs : List Char} (h : ∀ c ∈ cs, isDelimiter c = false)
    (d : Depth) : after ⟨none, d⟩ cs = ⟨none, d⟩ := by
  induction cs with
  | nil => rfl
  | cons c cs ih =>
    rw [after_cons, step_of_not_isDelimiter (h c (by simp)), ih fun x hx => h x (by simp [hx])]

/-! ## Literals -/

section Literals

variable {q : Char} {cs body rest : List Char}

/-- A literal is left where its closing quote is, at the depth at which it was entered. -/
theorem Standing.after_quoted (hq : isQuote q = true) (d : Depth) (h : Quoted q body) :
    after ⟨some q, d⟩ (body ++ [q]) = ⟨none, d⟩ := by
  induction h with
  | nil => rw [List.nil_append, after_cons, step_close, after_nil]
  | double _ ih =>
    rw [List.cons_append, List.cons_append, after_cons, after_cons, step_close, step_quote hq]
    exact ih
  | char hne _ ih =>
    rw [List.cons_append, after_cons, step_inside hne]
    exact ih

/-- A literal ends where it is closed, and no bracket in it counts. -/
theorem Standing.after_closeQuote (hq : isQuote q = true) (d : Depth)
    (h : closeQuote q cs = some (body, rest)) : after ⟨some q, d⟩ (body ++ [q]) = ⟨none, d⟩ :=
  after_quoted hq d (quoted_of_closeQuote h).1

/-- A literal that nothing closes is open to the end. -/
theorem Standing.after_of_closeQuote_eq_none (hq : isQuote q = true) (d : Depth)
    (h : closeQuote q cs = none) : after ⟨some q, d⟩ cs = ⟨some q, d⟩ := by
  fun_induction closeQuote q cs with
  | case1 => rfl
  | case2 c hc x xs hx ih =>
    obtain rfl : c = q := by simpa using hc
    obtain rfl : x = c := by simpa using hx
    rw [after_cons, after_cons, step_close, step_quote hq]
    exact ih (by simpa using h)
  | case3 => cases h
  | case4 => cases h
  | case5 c cs hc ih =>
    rw [after_cons, step_inside (by simpa using hc)]
    exact ih (by simpa using h)

end Literals

/-! ## Code blocks -/

section Blocks

variable {k : Nat} {d : Depth} {cs body rest : List Char}

theorem Depth.curly_track_open (d : Depth) : (d.track '{').curly = d.curly + 1 := rfl

theorem Depth.curly_track_close (d : Depth) : (d.track '}').curly = d.curly - 1 := rfl

/-- Other characters leave the number of open blocks alone. -/
theorem Depth.curly_track (d : Depth) {c : Char} (ho : ¬ (c == '{') = true) (hc : ¬ (c == '}') = true) :
    (d.track c).curly = d.curly := by
  unfold track
  rw [if_neg ho, if_neg hc]
  split
  · rfl
  split
  · rfl
  split
  · rfl
  split
  · rfl
  · rfl

/-- All blocks that are open are closed in the end. Other brackets inside of them may stay open. -/
theorem Standing.after_braced (h : Braced k body) (hd : d.curly = k + 1) :
    ∃ d', after ⟨none, d⟩ (body ++ ['}']) = ⟨none, d'⟩ ∧ d'.curly = 0 := by
  induction h generalizing d with
  | nil =>
    refine ⟨d.track '}', ?_, by rw [Depth.curly_track_close, hd]⟩
    rw [List.nil_append, after_cons, after_nil, step_plain (by decide)]
  | @literal k c lit body hq hlit _ _ ih =>
    obtain ⟨d', hd', hcurly⟩ := ih hd
    refine ⟨d', ?_, hcurly⟩
    rw [← hd', show c :: (lit ++ c :: body) ++ ['}'] = c :: ((lit ++ [c]) ++ (body ++ ['}'])) by simp, after_cons,
      step_quote hq, after_append, after_quoted hq d hlit]
  | opening _ ih =>
    rw [List.cons_append, after_cons, step_plain (by decide)]
    exact ih (by rw [Depth.curly_track_open, hd])
  | closing _ ih =>
    rw [List.cons_append, after_cons, step_plain (by decide)]
    exact ih (by rw [Depth.curly_track_close, hd]; rfl)
  | char hq ho hc _ ih =>
    rw [List.cons_append, after_cons, step_plain hq]
    exact ih (by rw [Depth.curly_track _ (by simpa using ho) (by simpa using hc), hd])

/-- A code block ends where it is closed. -/
theorem Standing.after_closeBlock (h : closeBlock k cs = some (body, rest)) (hd : d.curly = k + 1) :
    ∃ d', after ⟨none, d⟩ (body ++ ['}']) = ⟨none, d'⟩ ∧ d'.curly = 0 :=
  after_braced (braced_of_closeBlock h) hd

/-- A code block that nothing closes is open to the end. -/
theorem Standing.isOutside_of_closeBlock_eq_none (h : closeBlock k cs = none) (hd : d.curly = k + 1) :
    (after ⟨none, d⟩ cs).isOutside = false := by
  fun_induction closeBlock k cs generalizing d with
  | case1 k => simp [isOutside, hd]
  | case2 k c cs hq hlit =>
    rw [after_cons, step_quote hq, after_of_closeQuote_eq_none hq d hlit]
    rfl
  | case3 k c cs hq lit r hlit ih =>
    have hskip := after_closeQuote hq d hlit
    rw [closeQuote_eq_some hlit, show c :: (lit ++ c :: r) = c :: ((lit ++ [c]) ++ r) by simp, after_cons,
      step_quote hq, after_append, hskip]
    exact ih (by simpa using h) hd
  | case4 k c cs hq ho ih =>
    obtain rfl : c = '{' := by simpa using ho
    rw [after_cons, step_plain (by simpa using hq)]
    exact ih (by simpa using h) (by rw [Depth.curly_track_open, hd])
  | case5 => cases h
  | case6 c cs hq ho hc k ih =>
    obtain rfl : c = '}' := by simpa using hc
    rw [after_cons, step_plain (by simpa using hq)]
    exact ih (by simpa using h) (by rw [Depth.curly_track_close, hd]; rfl)
  | case7 k c cs hq ho hc ih =>
    rw [after_cons, step_plain (by simpa using hq)]
    exact ih (by simpa using h) (by rw [Depth.curly_track _ ho hc, hd])

end Blocks

/-! ## The search for a separator -/

namespace Standing

/-- The byte offsets at which `ch` stands outside literals and, with itself counted, outside brackets
in a text that is read from `s`. -/
def places (s : Standing) (ch : Char) (cs : List Char) : Set Nat :=
  { n | ∃ before rest, cs = before ++ ch :: rest ∧ byteSize before = n ∧
    (s.after before).quote = none ∧ ((s.after before).depth.track ch).isTop = true }

/-- The first of these places, counted from `pos`. -/
def find? (s : Standing) (ch : Char) (pos : Nat) : List Char → Option Nat
  | [] => none
  | c :: cs =>
    if s.quote.isNone && ((s.depth.track c).isTop && c == ch) then some pos
    else (s.step c).find? ch (pos + c.utf8Size) cs

variable {s : Standing} {ch q : Char} {pos n : Nat} {cs : List Char}

theorem places_nil : s.places ch [] = ∅ := by
  ext n
  simp [places]

/-- A separator stands at the first character, or further on from where that leads. -/
theorem mem_places_cons {c : Char} :
    n ∈ s.places ch (c :: cs) ↔
      (n = 0 ∧ c = ch ∧ s.quote = none ∧ (s.depth.track ch).isTop = true) ∨
        ∃ k ∈ (s.step c).places ch cs, n = c.utf8Size + k := by
  constructor
  · rintro ⟨before, rest, heq, rfl, hquote, htop⟩
    cases before with
    | nil =>
      simp only [List.nil_append, List.cons.injEq] at heq
      exact .inl ⟨rfl, heq.1, hquote, htop⟩
    | cons x before =>
      simp only [List.cons_append, List.cons.injEq] at heq
      obtain ⟨rfl, rfl⟩ := heq
      exact .inr ⟨byteSize before, ⟨before, rest, rfl, rfl, hquote, htop⟩, rfl⟩
  · rintro (⟨rfl, rfl, hquote, htop⟩ | ⟨k, ⟨before, rest, rfl, rfl, hquote, htop⟩, rfl⟩)
    · exact ⟨[], cs, rfl, rfl, hquote, htop⟩
    · exact ⟨c :: before, rest, rfl, rfl, hquote, htop⟩

/-- What is found is the first place, and nothing is found only if there is none. -/
theorem find?_places (s : Standing) (ch : Char) (pos : Nat) (cs : List Char) :
    (s.find? ch pos cs = none ∧ s.places ch cs = ∅) ∨
      ∃ n, s.find? ch pos cs = some (pos + n) ∧ IsLeast (s.places ch cs) n := by
  induction cs generalizing s pos with
  | nil => exact .inl ⟨rfl, places_nil⟩
  | cons c cs ih =>
    rw [find?]
    by_cases hc : (s.quote.isNone && ((s.depth.track c).isTop && c == ch)) = true
    · rw [if_pos hc]
      simp only [Bool.and_eq_true, Option.isNone_iff_eq_none, beq_iff_eq] at hc
      obtain ⟨hquote, htop, rfl⟩ := hc
      exact .inr ⟨0, rfl, mem_places_cons.mpr (.inl ⟨rfl, rfl, hquote, htop⟩), fun n _ => Nat.zero_le n⟩
    · rw [if_neg hc]
      have hlater : ∀ n, n ∈ s.places ch (c :: cs) ↔
          ∃ k ∈ (s.step c).places ch cs, n = c.utf8Size + k := by
        intro n
        rw [mem_places_cons, or_iff_right]
        rintro ⟨-, rfl, hquote, htop⟩
        simp [hquote, htop] at hc
      rcases ih (s.step c) (pos + c.utf8Size) with ⟨hnone, hempty⟩ | ⟨n, hsome, hmem, hleast⟩
      · refine .inl ⟨hnone, ?_⟩
        ext n
        simp [hlater, hempty]
      · refine .inr ⟨c.utf8Size + n, by rw [hsome, Nat.add_assoc], (hlater _).mpr ⟨n, hmem, rfl⟩, ?_⟩
        intro k hk
        obtain ⟨j, hj, rfl⟩ := (hlater k).mp hk
        exact Nat.add_le_add_left (hleast hj) _

/-- The search counts from where it starts. -/
theorem find?_pos (s : Standing) (ch : Char) (pos : Nat) (cs : List Char) :
    s.find? ch pos cs = (s.find? ch 0 cs).map (pos + ·) := by
  induction cs generalizing s pos with
  | nil => rfl
  | cons c cs ih =>
    rw [find?, find?]
    split
    · rfl
    · rw [ih _ (pos + c.utf8Size), ih _ (0 + c.utf8Size), Option.map_map]
      congr 1
      funext n
      simp [Nat.add_assoc]

/-- To search two parts is to search the second one if nothing is found in the first one. -/
theorem find?_append (s : Standing) (ch : Char) (pos : Nat) (as bs : List Char) :
    s.find? ch pos (as ++ bs)
      = (s.find? ch pos as).or ((s.after as).find? ch (pos + byteSize as) bs) := by
  induction as generalizing s pos with
  | nil => rfl
  | cons c as ih =>
    rw [List.cons_append, find?, find?]
    split
    · rfl
    · rw [ih, after_cons, byteSize_cons, Nat.add_assoc]

/-- Inside a literal nothing is found before it is closed. -/
theorem find?_inside (hq : isQuote q = true) (hch : isQuote ch = false) (d : Depth) (pos : Nat)
    (cs : List Char) : find? ⟨some q, d⟩ ch pos cs =
      (closeQuote q cs).bind fun (body, rest) =>
        find? ⟨none, d⟩ ch (pos + byteSize body + q.utf8Size) rest := by
  have hne : ¬ (q == ch) = true := by
    simp only [beq_iff_eq]
    rintro rfl
    rw [hq] at hch
    cases hch
  fun_induction closeQuote q cs generalizing pos with
  | case1 => rfl
  | case2 c hc x xs hx ih =>
    obtain rfl : c = q := by simpa using hc
    obtain rfl : x = c := by simpa using hx
    simp [find?, step_close, step_quote hq, hne, ih, Option.bind_map, Nat.add_assoc]
  | case3 c hc x xs hx =>
    obtain rfl : c = q := by simpa using hc
    simp [find?, step_close]
  | case4 c hc =>
    obtain rfl : c = q := by simpa using hc
    simp [find?]
  | case5 c cs hc ih =>
    simp [find?, step_inside (by simpa using hc), ih, Option.bind_map, Nat.add_assoc]

end Standing

/-- The search that jumps over literals finds what the search character by character does. -/
theorem delimiterFrom?_eq_find? {ch : Char} (hch : isQuote ch = false) (d : Depth) (pos : Nat)
    (cs : List Char) : delimiterFrom? ch d pos cs = Standing.find? ⟨none, d⟩ ch pos cs := by
  fun_induction delimiterFrom? ch d pos cs with
  | case1 => rfl
  | case2 d pos c cs hq hnone =>
    have hne : ¬ c = ch := by
      rintro rfl
      rw [hq] at hch
      cases hch
    simp [Standing.find?, hne, Standing.step_quote hq, Standing.find?_inside hq hch, hnone]
  | case3 d pos c cs hq body rest hsome ih =>
    have hne : ¬ c = ch := by
      rintro rfl
      rw [hq] at hch
      cases hch
    simp [Standing.find?, hne, Standing.step_quote hq, Standing.find?_inside hq hch, hsome, ih]
  | case4 d pos c cs hq htop => simp [Standing.find?, htop]
  | case5 d pos c cs hq htop ih =>
    rw [Standing.find?, if_neg (by simpa using htop), Standing.step_plain (by simpa using hq), ih]

section Search

variable {ch : Char} {cs : List Char}

/-- **The search finds the first place outside literals and brackets.** -/
theorem delimiterPos?_eq_some_iff (hch : isQuote ch = false) {p : Nat} :
    delimiterPos? cs ch = some p ↔ IsLeast (Standing.places {} ch cs) p := by
  rw [delimiterPos?, delimiterFrom?_eq_find? hch]
  rcases Standing.find?_places {} ch 0 cs with ⟨hnone, hempty⟩ | ⟨n, hsome, hleast⟩
  · rw [hnone, hempty]
    exact ⟨nofun, fun h => absurd h.1 (Set.notMem_empty p)⟩
  · rw [hsome, Nat.zero_add, Option.some.injEq]
    exact ⟨fun h => h ▸ hleast, fun h => hleast.unique h⟩

/-- Nothing is found only if there is no such place. -/
theorem delimiterPos?_eq_none_iff (hch : isQuote ch = false) :
    delimiterPos? cs ch = none ↔ Standing.places {} ch cs = ∅ := by
  rw [delimiterPos?, delimiterFrom?_eq_find? hch]
  rcases Standing.find?_places {} ch 0 cs with ⟨hnone, hempty⟩ | ⟨n, hsome, hmem, -⟩
  · simp [hnone, hempty]
  · rw [hsome]
    refine ⟨nofun, fun hempty => ?_⟩
    rw [hempty] at hmem
    exact absurd hmem (Set.notMem_empty n)

/-- A part of a text that leaves nothing open and holds no place to stop at is passed over. -/
theorem delimiterPos?_append (hch : isQuote ch = false) {as bs : List Char}
    (hclosed : Standing.after {} as = {}) (hnone : delimiterPos? as ch = none) :
    delimiterPos? (as ++ bs) ch = (delimiterPos? bs ch).map (byteSize as + ·) := by
  rw [delimiterPos?, delimiterFrom?_eq_find? hch] at hnone
  rw [delimiterPos?, delimiterFrom?_eq_find? hch, Standing.find?_append, hnone, Option.none_or, hclosed,
    Standing.find?_pos, Nat.zero_add, delimiterPos?, delimiterFrom?_eq_find? hch]

end Search

end QuestScript.Text
