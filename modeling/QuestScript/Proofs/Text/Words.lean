import QuestScript.Proofs.Text.Standing

/-!
# Words in joined texts

A word is looked for outside literals and brackets, and only where it stands between delimiters. In two
texts that are joined it is found in the second one as it would be there alone, if the first does not
hold it and leaves nothing open, and if it cannot start in the first and end in the second:
`wordFrom?_append`.
-/

namespace QuestScript.Text

/-- Whether a word that is looked for may start behind a text: `fresh` if the text is empty. -/
def freshAfter (fresh : Bool) (as : List Char) : Bool := (as.getLast?.map isDelimiter).getD fresh

theorem freshAfter_append (fresh : Bool) (as : List Char) (c : Char) (cs : List Char) :
    freshAfter fresh (as ++ c :: cs) = freshAfter (isDelimiter c) cs := by
  unfold freshAfter
  rw [List.getLast?_append, List.getLast?_cons, Option.some_or, Option.map_some, Option.getD_some]
  cases cs.getLast? with
  | none => rfl
  | some l => rfl

/-- Only the end of the text matters. -/
theorem freshAfter_congr {fresh fresh' : Bool} {as : List Char} (h : as = [] → fresh = fresh') :
    freshAfter fresh as = freshAfter fresh' as := by
  cases as with
  | nil => exact h rfl
  | cons c as => rw [← List.nil_append (c :: as), freshAfter_append, freshAfter_append]

/-- A word that starts in one text does not end in the next, with a delimiter between the two. -/
theorem not_prefix_append {word as bs : List Char} (hword : ∀ c ∈ word, isDelimiter c = false)
    (hne : as ≠ []) (hlong : as.length < word.length)
    (hjoin : atBoundary bs = true ∨ ∀ c ∈ as.getLast?, isDelimiter c = true) : ¬ word <+: as ++ bs := by
  intro h
  have has : as <+: word := List.prefix_of_prefix_length_le (List.prefix_append _ _) h (by omega)
  obtain ⟨more, rfl⟩ := has
  rcases hjoin with hbs | hlast
  · rw [List.prefix_append_right_inj] at h
    cases more with
    | nil => simp at hlong
    | cons c more =>
      obtain ⟨rest, rfl⟩ := h
      have hc : isDelimiter c = true := hbs
      rw [hword c (by simp)] at hc
      cases hc
  · have hc := hlast (as.getLast hne) (List.getLast?_eq_some_getLast hne)
    rw [hword _ (List.mem_append_left _ (List.getLast_mem hne))] at hc
    cases hc

theorem atBoundary_of_append {as bs : List Char} (h : atBoundary (as ++ bs) = true) : atBoundary as = true := by
  cases as with
  | nil => rfl
  | cons c as => exact h

theorem atBoundary_append {as bs : List Char} (ha : atBoundary as = true) (hb : atBoundary bs = true) :
    atBoundary (as ++ bs) = true := by
  cases as with
  | nil => exact hb
  | cons c as => exact ha

/-- Whether an isolated word stands at the start of a text. -/
def startsWord (fresh : Bool) (word as : List Char) : Bool :=
  fresh && word.isPrefixOf as && atBoundary (as.drop word.length)

/-- One step of the search for an isolated word. -/
theorem wordFrom?_cons (word : List Char) (d : Depth) (fresh : Bool) (pos : Nat) {c : Char} (cs : List Char)
    (hq : isQuote c = false) :
    wordFrom? word true d fresh pos (c :: cs)
      = if (d.track c).isTop = false then wordFrom? word true (d.track c) fresh (pos + c.utf8Size) cs
        else if isDelimiter c then wordFrom? word true (d.track c) true (pos + c.utf8Size) cs
        else if startsWord fresh word (c :: cs) then some pos
        else wordFrom? word true (d.track c) false (pos + c.utf8Size) cs := by
  rw [wordFrom?, if_neg (by simp [hq])]
  simp [startsWord]

theorem wordFrom?_open (word : List Char) (isolated : Bool) (d : Depth) (fresh : Bool) (pos : Nat) {c : Char}
    {cs : List Char} (hq : isQuote c = true) (hopen : closeQuote c cs = none) :
    wordFrom? word isolated d fresh pos (c :: cs) = none := by
  rw [wordFrom?, if_pos hq]
  split
  · rfl
  · next h =>
    rw [hopen] at h
    cases h

theorem wordFrom?_quote (word : List Char) (isolated : Bool) (d : Depth) (fresh : Bool) (pos : Nat) {c : Char}
    {cs body rest : List Char} (hq : isQuote c = true) (hclose : closeQuote c cs = some (body, rest)) :
    wordFrom? word isolated d fresh pos (c :: cs)
      = wordFrom? word isolated d true (pos + c.utf8Size + byteSize body + c.utf8Size) rest := by
  rw [wordFrom?, if_pos hq]
  split
  · next h =>
    rw [hclose] at h
    cases h
  · next h =>
    rw [hclose] at h
    cases h
    rfl

/-- A word at the start of joined texts stands in the first of them. -/
theorem startsWord_of_append {word as bs : List Char} {fresh : Bool}
    (hword : ∀ c ∈ word, isDelimiter c = false) (hne : as ≠ [])
    (hjoin : atBoundary bs = true ∨ ∀ c ∈ as.getLast?, isDelimiter c = true)
    (h : startsWord fresh word (as ++ bs) = true) : startsWord fresh word as = true := by
  simp only [startsWord, Bool.and_eq_true, List.isPrefixOf_iff_prefix] at h ⊢
  obtain ⟨⟨hfresh, hprefix⟩, hends⟩ := h
  have hlength : word.length ≤ as.length := by
    by_contra hlong
    exact not_prefix_append hword hne (by omega) hjoin hprefix
  refine ⟨⟨hfresh, List.prefix_of_prefix_length_le hprefix (List.prefix_append as bs) hlength⟩, ?_⟩
  rw [List.drop_append_of_le_length hlength] at hends
  exact atBoundary_of_append hends

/-- **The search for a word goes on behind a text that does not hold it**, if nothing is left open and
the word can not start in this text and end behind it. -/
theorem wordFrom?_append {word : List Char} (hword : ∀ c ∈ word, isDelimiter c = false)
    {as bs : List Char} {d : Depth} {fresh : Bool} {pos : Nat}
    (hnone : wordFrom? word true d fresh pos as = none) (hclosed : Standing.after ⟨none, d⟩ as = {})
    (hquote : ∀ c ∈ bs.head?, isQuote c = false)
    (hjoin : atBoundary bs = true ∨ ∀ c ∈ as.getLast?, isDelimiter c = true) :
    wordFrom? word true d fresh pos (as ++ bs)
      = wordFrom? word true {} (freshAfter fresh as) (pos + byteSize as) bs := by
  have hlater (before : List Char) {cs : List Char}
      (h : atBoundary bs = true ∨ ∀ x ∈ (before ++ cs).getLast?, isDelimiter x = true) :
      atBoundary bs = true ∨ ∀ x ∈ cs.getLast?, isDelimiter x = true :=
    h.imp_right fun hlast x hx => hlast x (by rw [List.getLast?_append, hx]; rfl)
  fun_induction wordFrom? word true d fresh pos as with
  | case1 d fresh pos =>
    cases hclosed
    rfl
  | case2 d fresh pos c cs hq hopen =>
    rw [Standing.after_cons, Standing.step_quote hq, Standing.after_of_closeQuote_eq_none hq d hopen] at hclosed
    cases hclosed
  | case3 d fresh pos c cs hq body rest hclose ih =>
    -- the literal ends in the first text, so the second one does not double its quote
    have hmore : bs.head? ≠ some c := by
      intro hb
      rw [hquote c hb] at hq
      cases hq
    have hjoined := closeQuote_append_more hclose hmore
    obtain rfl := closeQuote_eq_some hclose
    have htext : c :: (body ++ c :: rest) = (c :: body ++ [c]) ++ rest := by simp
    have hrest : Standing.after ⟨none, d⟩ rest = {} := by
      rw [← hclosed, htext, Standing.after_append, List.cons_append, Standing.after_cons,
        Standing.step_quote hq, Standing.after_closeQuote hq d hclose]
    rw [List.cons_append, wordFrom?_quote word true d fresh pos hq hjoined,
      ih hnone hrest (hlater (c :: body ++ [c]) (by rwa [← htext])), ← List.cons_append, freshAfter_append,
      isDelimiter_of_isQuote hq, Text.byteSize_append, Text.byteSize_cons, Text.byteSize_cons]
    congr 1
    omega
  | case4 d fresh pos c cs hq depth htop ih =>
    have hq : isQuote c = false := by simpa using hq
    have htop : (d.track c).isTop = false := by simpa using htop
    rw [Standing.after_cons, Standing.step_plain hq] at hclosed
    -- something is still open, so there is more of the first text, and that decides
    have hfresh : freshAfter fresh cs = freshAfter fresh ([] ++ c :: cs) := by
      rw [freshAfter_append]
      refine freshAfter_congr ?_
      rintro rfl
      rw [Standing.after_nil, Standing.mk.injEq] at hclosed
      rw [hclosed.2] at htop
      cases htop
    rw [List.cons_append, wordFrom?_cons word d fresh pos (cs ++ bs) hq, if_pos htop,
      ih hnone hclosed (hlater [c] hjoin), hfresh, byteSize_cons, Nat.add_assoc]
    rfl
  | case7 d fresh pos c cs hq depth htop _ hdel ih =>
    have hq : isQuote c = false := by simpa using hq
    have htop : ¬ (d.track c).isTop = false := by simpa using htop
    rw [Standing.after_cons, Standing.step_plain hq] at hclosed
    rw [List.cons_append, wordFrom?_cons word d fresh pos (cs ++ bs) hq, if_neg htop, if_pos hdel,
      ih hnone hclosed (hlater [c] hjoin), ← List.nil_append (c :: cs), freshAfter_append, hdel,
      List.nil_append, byteSize_cons, Nat.add_assoc]
  | case8 => cases hnone
  | case9 d fresh pos c cs hq depth found htop _ hdel hfound ih =>
    have hq : isQuote c = false := by simpa using hq
    have htop : ¬ (d.track c).isTop = false := by simpa using htop
    rw [Standing.after_cons, Standing.step_plain hq] at hclosed
    -- a word that begins in the first text would have to be all in it
    have hnot : ¬ startsWord fresh word (c :: (cs ++ bs)) = true :=
      mt (startsWord_of_append hword (List.cons_ne_nil c cs) hjoin) hfound
    rw [List.cons_append, wordFrom?_cons word d fresh pos (cs ++ bs) hq, if_neg htop, if_neg hdel,
      if_neg hnot, ih hnone hclosed (hlater [c] hjoin), ← List.nil_append (c :: cs), freshAfter_append,
      Bool.not_eq_true _ |>.mp hdel, List.nil_append, byteSize_cons, Nat.add_assoc]
  | case5 d fresh pos c cs hq depth found htop hiso => cases hiso
  | case6 d fresh pos c cs hq depth found htop hiso => cases hiso

end QuestScript.Text
