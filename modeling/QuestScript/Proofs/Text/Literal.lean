import QuestScript.Text.Literal

/-!
# What closes a literal

`closeQuote` looks for the quote that closes a literal, `closeBlock` for the brace that closes a block.
`Quoted` and `Braced` say what the contents in front of it are, and nothing of a search: the search ends
behind contents of this kind, and behind all of them (`closeQuote_eq_some_iff`, `closeBlock_eq_some_iff`).
So whatever is said about literals and blocks is an induction on their contents.
-/

namespace QuestScript.Text

/-! ## Literals -/

/-- The contents of a literal: each quote in it stands twice. -/
inductive Quoted (q : Char) : List Char → Prop
  | nil : Quoted q []
  | double {body : List Char} (rest : Quoted q body) : Quoted q (q :: q :: body)
  | char {c : Char} {body : List Char} (ne : c ≠ q) (rest : Quoted q body) : Quoted q (c :: body)

section Literals

variable {q : Char} {cs body rest : List Char}

theorem Quoted.closeQuote_append (h : Quoted q body) (hr : rest.head? ≠ some q) :
    closeQuote q (body ++ q :: rest) = some (body, rest) := by
  induction h with
  | nil =>
    cases rest with
    | nil => simp [closeQuote]
    | cons x xs =>
      have hx : ¬ x = q := by simpa using hr
      simp [closeQuote, hx]
  | double _ ih => simp [closeQuote, ih]
  | char hne _ ih =>
    rw [List.cons_append, closeQuote.eq_def]
    simp [hne, ih]

theorem quoted_of_closeQuote (h : closeQuote q cs = some (body, rest)) :
    Quoted q body ∧ rest.head? ≠ some q := by
  fun_induction closeQuote q cs generalizing body rest with
  | case1 => cases h
  | case2 c hc x xs hx ih =>
    obtain ⟨⟨b, r⟩, hb, heq⟩ := Option.map_eq_some_iff.mp h
    cases heq
    obtain rfl : c = q := by simpa using hc
    obtain rfl : x = c := by simpa using hx
    exact ⟨.double (ih hb).1, (ih hb).2⟩
  | case3 c hc x xs hx =>
    cases h
    exact ⟨.nil, by simpa using hx⟩
  | case4 c hc =>
    cases h
    exact ⟨.nil, by simp⟩
  | case5 c cs hc ih =>
    obtain ⟨⟨b, r⟩, hb, heq⟩ := Option.map_eq_some_iff.mp h
    cases heq
    exact ⟨.char (by simpa using hc) (ih hb).1, (ih hb).2⟩

/-- **A literal is closed by the first quote that is not one of two in a row.** -/
theorem closeQuote_eq_some_iff : closeQuote q cs = some (body, rest) ↔
    cs = body ++ q :: rest ∧ Quoted q body ∧ rest.head? ≠ some q := by
  constructor
  · exact fun h => ⟨closeQuote_eq_some h, quoted_of_closeQuote h⟩
  · rintro ⟨rfl, hbody, hr⟩
    exact hbody.closeQuote_append hr

/-- A closing quote is not followed by a quote of its kind. -/
theorem head?_of_closeQuote (h : closeQuote q cs = some (body, rest)) : rest.head? ≠ some q :=
  (quoted_of_closeQuote h).2

/-- A literal is closed at the same quote whatever follows, unless that is another quote. -/
theorem closeQuote_append (h : closeQuote q cs = some (body, rest)) {rest' : List Char}
    (hr : rest'.head? ≠ some q) : closeQuote q (body ++ q :: rest') = some (body, rest') :=
  (quoted_of_closeQuote h).1.closeQuote_append hr

/-- A literal that is closed in a text is closed there whatever follows the text, unless that is
another quote. -/
theorem closeQuote_append_more (h : closeQuote q cs = some (body, rest)) {more : List Char}
    (hmore : more.head? ≠ some q) : closeQuote q (cs ++ more) = some (body, rest ++ more) := by
  have hhead : (rest ++ more).head? ≠ some q := by
    cases rest with
    | nil => exact hmore
    | cons x xs =>
      have hne := head?_of_closeQuote h
      exact hne
  rw [closeQuote_eq_some h, List.append_assoc, List.cons_append]
  exact closeQuote_append h hhead

end Literals

/-! ## Blocks -/

/-- The contents of a block, in which `depth` blocks more than those it opens are closed. -/
inductive Braced : Nat → List Char → Prop
  | nil : Braced 0 []
  | literal {depth : Nat} {c : Char} {lit body : List Char} (quote : isQuote c = true) (quoted : Quoted c lit)
      (closed : body.head? ≠ some c) (rest : Braced depth body) : Braced depth (c :: (lit ++ c :: body))
  | opening {depth : Nat} {body : List Char} (rest : Braced (depth + 1) body) : Braced depth ('{' :: body)
  | closing {depth : Nat} {body : List Char} (rest : Braced depth body) : Braced (depth + 1) ('}' :: body)
  | char {depth : Nat} {c : Char} {body : List Char} (quote : isQuote c = false) (opening : c ≠ '{')
      (closing : c ≠ '}') (rest : Braced depth body) : Braced depth (c :: body)

section Blocks

variable {depth : Nat} {cs body rest : List Char}

theorem Braced.closeBlock_append (h : Braced depth body) (rest : List Char) :
    closeBlock depth (body ++ '}' :: rest) = some (body, rest) := by
  induction h with
  | nil =>
    rw [List.nil_append, closeBlock]
    rfl
  | @literal depth c lit body hq hlit hclosed _ ih =>
    have hhead : (body ++ '}' :: rest).head? ≠ some c := by
      cases body with
      | nil =>
        rintro ⟨⟩
        cases hq
      | cons x body => exact hclosed
    have hclose := hlit.closeQuote_append hhead
    rw [List.cons_append, List.append_assoc, List.cons_append, closeBlock.eq_def]
    dsimp only
    rw [if_pos hq]
    split
    · next hnone =>
      rw [hclose] at hnone
      cases hnone
    · next hsome =>
      rw [hclose] at hsome
      cases hsome
      rw [ih, Option.map_some, List.cons_append]
  | opening _ ih =>
    rw [List.cons_append, closeBlock.eq_def]
    dsimp only
    rw [if_neg (by decide), if_pos (by decide), ih]
    rfl
  | closing _ ih =>
    rw [List.cons_append, closeBlock, if_neg (by decide), if_neg (by decide), if_pos (by decide)]
    dsimp only
    rw [ih]
    rfl
  | char hq ho hc _ ih =>
    rw [List.cons_append, closeBlock.eq_def]
    dsimp only
    rw [if_neg (by simp [hq]), if_neg (by simpa using ho), if_neg (by simpa using hc), ih]
    rfl

theorem braced_of_closeBlock (h : closeBlock depth cs = some (body, rest)) : Braced depth body := by
  fun_induction closeBlock depth cs generalizing body rest with
  | case1 => cases h
  | case2 => cases h
  | case3 depth c cs hq lit r hlit ih =>
    obtain ⟨⟨b, r'⟩, hb, heq⟩ := Option.map_eq_some_iff.mp h
    cases heq
    obtain ⟨hquoted, hhead⟩ := quoted_of_closeQuote hlit
    refine .literal hq hquoted ?_ (ih hb)
    rw [closeBlock_eq_some hb] at hhead
    cases b with
    | nil => simp
    | cons x b => exact hhead
  | case4 depth c cs hq ho ih =>
    obtain ⟨⟨b, r⟩, hb, heq⟩ := Option.map_eq_some_iff.mp h
    cases heq
    obtain rfl : c = '{' := by simpa using ho
    exact .opening (ih hb)
  | case5 c cs hq ho hc =>
    cases h
    exact .nil
  | case6 c cs hq ho hc depth ih =>
    obtain ⟨⟨b, r⟩, hb, heq⟩ := Option.map_eq_some_iff.mp h
    cases heq
    obtain rfl : c = '}' := by simpa using hc
    exact .closing (ih hb)
  | case7 depth c cs hq ho hc ih =>
    obtain ⟨⟨b, r⟩, hb, heq⟩ := Option.map_eq_some_iff.mp h
    cases heq
    exact .char (by simpa using hq) (by simpa using ho) (by simpa using hc) (ih hb)

/-- **A block is closed by the first brace, outside literals, that closes no block inside it.** -/
theorem closeBlock_eq_some_iff :
    closeBlock depth cs = some (body, rest) ↔ cs = body ++ '}' :: rest ∧ Braced depth body := by
  constructor
  · exact fun h => ⟨closeBlock_eq_some h, braced_of_closeBlock h⟩
  · rintro ⟨rfl, hbody⟩
    exact hbody.closeBlock_append rest

/-- A block is closed at the same brace whatever follows. -/
theorem closeBlock_append (h : closeBlock depth cs = some (body, rest)) (rest' : List Char) :
    closeBlock depth (body ++ '}' :: rest') = some (body, rest') :=
  (braced_of_closeBlock h).closeBlock_append rest'

end Blocks

end QuestScript.Text
