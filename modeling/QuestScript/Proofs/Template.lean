import Mathlib.Data.List.Infix
import QuestScript.Machine.Block
import QuestScript.Proofs.Discipline
import QuestScript.Proofs.Text.Words

/-!
# Expressions inside a text

A text with expressions is some text, then each expression between its marks with the text behind it.
`Template` is such a text taken apart, and `written` puts it together.

If nothing of it can be taken for a mark (`WellFormed`), cutting the written text gives the template
back (`parts_written`), so formatting is nothing but evaluating the expressions from left to right
(`formatText_written`): what they put in their places is not looked at, and the first one that fails
ends it.
-/

namespace QuestScript

namespace Text

/-! ## Opening marks -/

theorem cutAtOpening?_eq_none {text : List Char} (h : ¬ ['<', '<'] <:+: text) : cutAtOpening? text = none := by
  fun_induction cutAtOpening? text with
  | case1 => rfl
  | case2 cs => exact absurd ⟨[], cs, rfl⟩ h
  | case3 c cs _ ih =>
    rw [ih fun hin => h (hin.trans (List.suffix_cons c cs).isInfix)]
    rfl

/-- The mark is found behind a text that holds none, if it cannot start in this text. -/
theorem cutAtOpening?_append {text : List Char} (h : ¬ ['<', '<'] <:+: text)
    (hlast : text.getLast? ≠ some '<') (rest : List Char) :
    cutAtOpening? (text ++ '<' :: '<' :: rest) = some (text, rest) := by
  induction text with
  | nil => rw [List.nil_append, cutAtOpening?]
  | cons c cs ih =>
    have hnext : cutAtOpening? (cs ++ '<' :: '<' :: rest) = some (cs, rest) := by
      refine ih (fun hin => h (hin.trans (List.suffix_cons c cs).isInfix)) fun hc => hlast ?_
      rw [List.getLast?_cons, hc]
      rfl
    rw [List.cons_append, cutAtOpening?.eq_def]
    split
    · next heq => cases heq
    · next heq =>
      -- the text would start with a mark, or be a single `<`
      obtain ⟨rfl, htail⟩ := List.cons_eq_cons.mp heq
      cases cs with
      | nil => exact absurd rfl hlast
      | cons x xs =>
        have hx : x = '<' := List.head_eq_of_cons_eq htail
        exact absurd ⟨[], xs, by rw [hx]; rfl⟩ h
    · next heq =>
      obtain ⟨rfl, rfl⟩ := List.cons_eq_cons.mp heq
      rw [hnext]
      rfl

/-! ## Closing marks -/

/-- A text that is read from `s` and ends with everything closed, in which no mark stands outside
literals and brackets and behind which a mark does not start early. -/
structure Enclosed (s : Standing) (source : List Char) : Prop where
  closed : s.after source = {}
  unmarked : ∀ before rest, source = before ++ '>' :: '>' :: rest → s.after before ≠ {}
  last : source.getLast? ≠ some '>'

/-- What stands behind a part of such a text is such a text. -/
theorem Enclosed.of_append {s : Standing} {as bs : List Char} (h : Enclosed s (as ++ bs)) :
    Enclosed (s.after as) bs where
  closed := by rw [← h.closed, Standing.after_append]
  unmarked before rest heq := by
    have hnot := h.unmarked (as ++ before) rest (by rw [heq, List.append_assoc])
    rwa [Standing.after_append] at hnot
  last hlast := by
    refine h.last ?_
    rw [List.getLast?_append, hlast]
    rfl

theorem enclosed_iff {s : Standing} {source : List Char} :
    Enclosed s source ↔ s.after source = {} ∧
      (∀ n < source.length, ['>', '>'] <+: source.drop n → s.after (source.take n) ≠ {}) ∧
      source.getLast? ≠ some '>' := by
  constructor
  · rintro ⟨hclosed, hmark, hlast⟩
    refine ⟨hclosed, ?_, hlast⟩
    rintro n - ⟨rest, hrest⟩
    refine hmark (source.take n) rest ?_
    calc source = source.take n ++ source.drop n := (List.take_append_drop n source).symm
      _ = source.take n ++ '>' :: '>' :: rest := by rw [← hrest]; rfl
  · rintro ⟨hclosed, hmark, hlast⟩
    refine ⟨hclosed, ?_, hlast⟩
    rintro before rest rfl
    have hnot := hmark before.length (by simp) (by simp)
    rwa [List.take_left] at hnot

instance (s : Standing) (source : List Char) : Decidable (Enclosed s source) := decidable_of_iff' _ enclosed_iff

/-- The mark is found behind the text, at its first place outside literals and brackets. -/
theorem wordFrom?_mark {source : List Char} {d : Depth} {fresh : Bool} {pos : Nat}
    (h : Enclosed ⟨none, d⟩ source) (rest : List Char) :
    wordFrom? ['>', '>'] false d fresh pos (source ++ '>' :: '>' :: rest) = some (pos + byteSize source) := by
  fun_induction wordFrom? ['>', '>'] false d fresh pos source with
  | case1 d fresh pos =>
    cases h.closed
    rw [List.nil_append, wordFrom?]
    rfl
  | case2 d fresh pos c cs hq hopen =>
    have hclosed := h.closed
    rw [Standing.after_cons, Standing.step_quote hq, Standing.after_of_closeQuote_eq_none hq d hopen] at hclosed
    cases hclosed
  | case3 d fresh pos c cs hq body tail hclose ih =>
    have hmore : ('>' :: '>' :: rest).head? ≠ some c := by
      rintro ⟨⟩
      cases hq
    have hjoined := closeQuote_append_more hclose hmore
    obtain rfl := closeQuote_eq_some hclose
    have htext : c :: (body ++ c :: tail) = c :: (body ++ [c]) ++ tail := by simp
    have htail : Enclosed ⟨none, d⟩ tail := by
      rw [htext] at h
      have hlater := h.of_append
      rwa [Standing.after_cons, Standing.step_quote hq, Standing.after_closeQuote hq d hclose] at hlater
    rw [List.cons_append, wordFrom?_quote _ false d fresh pos hq hjoined, ih htail, htext]
    simp only [byteSize_cons, byteSize_append, byteSize_nil, List.cons_append, Option.some.injEq]
    omega
  | case4 d fresh pos c cs hq depth htop ih =>
    have htail := Enclosed.of_append (show Enclosed ⟨none, d⟩ ([c] ++ cs) from h)
    rw [Standing.after_cons, Standing.step_plain (by simpa using hq)] at htail
    rw [List.cons_append, wordFrom?, if_neg hq, if_pos htop, ih htail, byteSize_cons, Nat.add_assoc]
  | case5 d fresh pos c cs hq depth found htop _ hfound =>
    -- a mark at the top is found in the text itself
    obtain ⟨after, heq⟩ := List.isPrefixOf_iff_prefix.mp hfound
    obtain ⟨rfl, rfl⟩ := List.cons_eq_cons.mp heq
    have hd : d = {} := Depth.isTop_iff.mp (by simpa [depth, Depth.track] using htop)
    exact absurd (by rw [hd]; rfl) (h.unmarked [] after rfl)
  | case6 d fresh pos c cs hq depth found htop hiso hfound ih =>
    have htail := Enclosed.of_append (show Enclosed ⟨none, d⟩ ([c] ++ cs) from h)
    rw [Standing.after_cons, Standing.step_plain (by simpa using hq)] at htail
    have hnot : ¬ List.isPrefixOf ['>', '>'] (c :: (cs ++ '>' :: '>' :: rest)) = true := by
      intro hpre
      cases cs with
      | nil =>
        obtain ⟨after, heq⟩ := List.isPrefixOf_iff_prefix.mp hpre
        cases heq
        exact h.last rfl
      | cons x xs => exact hfound hpre
    rw [List.cons_append, wordFrom?, if_neg hq, if_neg htop, if_pos hiso, if_neg hnot, ih htail, byteSize_cons,
      Nat.add_assoc]
  | case7 d fresh pos c cs hq depth htop hiso => exact absurd rfl hiso
  | case8 d fresh pos c cs hq depth found htop hiso => exact absurd rfl hiso
  | case9 d fresh pos c cs hq depth found htop hiso => exact absurd rfl hiso

theorem cutAtClosing?_append {source : List Char} (h : Enclosed {} source) (rest : List Char) :
    cutAtClosing? (source ++ '>' :: '>' :: rest) = some (source, rest) := by
  have hpos : wordPos? (source ++ '>' :: '>' :: rest) ['>', '>'] false = some (byteSize source) := by
    rw [wordPos?, if_neg (by decide), wordFrom?_mark h, Nat.zero_add]
  rw [cutAtClosing?, hpos]
  simp only [Option.bind_eq_bind, Option.bind_some, splitBytes_append]
  rfl

/-! ## Templates -/

/-- An expression in a text, and the text behind it. -/
structure Insert where
  source : List Char
  text : List Char
deriving DecidableEq, Repr

/-- A text with expressions in it. -/
structure Template where
  first : List Char
  inserts : List Insert
deriving DecidableEq, Repr

namespace Template

/-- The texts outside the expressions. -/
def texts (t : Template) : List (List Char) := t.first :: t.inserts.map (·.text)

/-- The expressions. -/
def sources (t : Template) : List (List Char) := t.inserts.map (·.source)

/-- The text with each expression between its marks. -/
def written (t : Template) : List Char :=
  t.first ++ t.inserts.flatMap fun i => ['<', '<'] ++ i.source ++ ['>', '>'] ++ i.text

/-- The text with values in the places of the expressions. -/
def filled (t : Template) (vs : List Value) : List Char :=
  t.first ++ (vs.zip t.inserts).flatMap fun (v, i) => v.display.toList ++ i.text

/-- Nothing but the marks around an expression can be taken for a mark. -/
structure WellFormed (t : Template) : Prop where
  unopened : ∀ text ∈ t.texts, ¬ ['<', '<'] <:+: text
  last : ∀ text ∈ t.texts.dropLast, text.getLast? ≠ some '<'
  enclosed : ∀ source ∈ t.sources, Enclosed {} source

theorem wellFormed_iff {t : Template} :
    t.WellFormed ↔ (∀ text ∈ t.texts, ¬ ['<', '<'] <:+: text) ∧
      (∀ text ∈ t.texts.dropLast, text.getLast? ≠ some '<') ∧ ∀ source ∈ t.sources, Enclosed {} source :=
  ⟨fun ⟨h₁, h₂, h₃⟩ => ⟨h₁, h₂, h₃⟩, fun ⟨h₁, h₂, h₃⟩ => ⟨h₁, h₂, h₃⟩⟩

instance (t : Template) : Decidable t.WellFormed := decidable_of_iff' _ wellFormed_iff

variable {t : Template} {first : List Char} {i : Insert} {is : List Insert}

theorem WellFormed.tail (h : WellFormed ⟨first, i :: is⟩) : WellFormed ⟨i.text, is⟩ where
  unopened text htext := h.unopened text (List.mem_cons_of_mem _ htext)
  last text htext := h.last text (by simpa [texts] using .inr htext)
  enclosed source hsource := h.enclosed source (List.mem_cons_of_mem _ hsource)

/-- The parts of a template. -/
def parts (t : Template) : List Part :=
  .plain t.first :: t.inserts.flatMap fun i => [.code i.source, .plain i.text]

end Template

/-- **Cutting a written template gives its parts.** -/
theorem parts_written {t : Template} (h : t.WellFormed) : parts t.written = t.parts := by
  obtain ⟨first, inserts⟩ := t
  induction inserts generalizing first with
  | nil =>
    have hnone : cutAtOpening? first = none := cutAtOpening?_eq_none (h.unopened first (by simp [Template.texts]))
    rw [Template.written, List.flatMap_nil, List.append_nil, parts]
    split
    · rfl
    · next hsome => 
      rw [hnone] at hsome
      cases hsome
  | cons i is ih =>
    have hopen := cutAtOpening?_append (h.unopened first (by simp [Template.texts]))
      (h.last first (by simp [Template.texts]))
    have hclose := cutAtClosing?_append (h.enclosed i.source (by simp [Template.sources]))
    have htext : Template.written ⟨first, i :: is⟩
        = first ++ '<' :: '<' :: (i.source ++ '>' :: '>' :: Template.written ⟨i.text, is⟩) := by
      simp [Template.written]
    rw [htext, parts]
    split
    · next hnone => 
      rw [hopen] at hnone
      cases hnone
    · next hsome =>
      rw [hopen] at hsome
      cases hsome
      split
      · next hnone =>
        rw [hclose] at hnone
        cases hnone
      · next hsome =>
        rw [hclose] at hsome
        cases hsome
        rw [ih i.text h.tail]
        rfl

end Text

namespace Run

variable {α β : Type} {x : Run α} {f : α → β} {m m' : Machine}

theorem bind_pure_eq_done {b : β} :
    (x >>= fun a => pure (f a)) m = .done b m' ↔ ∃ a, x m = .done a m' ∧ f a = b := by
  constructor
  · intro h
    obtain ⟨a, m₁, ha, h⟩ := bind_eq_done h
    cases h
    exact ⟨a, ha, rfl⟩
  · rintro ⟨a, ha, rfl⟩
    exact bind_of_done ha

theorem bind_pure_eq_failed {e : Error} :
    (x >>= fun a => pure (f a)) m = .failed e m' ↔ x m = .failed e m' := by
  constructor
  · intro h
    rcases bind_eq_failed h with h | ⟨a, m₁, -, h⟩
    · exact h
    · cases h
  · exact bind_of_failed

theorem bind_pure_eq_outOfFuel : (x >>= fun a => pure (f a)) m = .outOfFuel ↔ x m = .outOfFuel := by
  constructor
  · intro h
    cases hx : x m with
    | done a m₁ =>
      rw [bind_of_done hx] at h
      cases h
    | failed e m₁ =>
      rw [bind_of_failed hx] at h
      cases h
    | outOfFuel => rfl
  · exact bind_of_outOfFuel

end Run

namespace Machine

open Text

/-- Expressions that are evaluated one after the other, each in the state that the one before it leaves. -/
inductive EvaluatesAll (c : Calls) : Machine → List (List Char) → List Value → Machine → Prop
  | nil (m : Machine) : EvaluatesAll c m [] [] m
  | cons {m m₁ m₂ : Machine} {source : List Char} {sources : List (List Char)} {v : Value} {vs : List Value}
      (h : c.eval source m = .done v m₁) (hs : EvaluatesAll c m₁ sources vs m₂) :
      EvaluatesAll c m (source :: sources) (v :: vs) m₂

/-- Evaluating some expressions one after the other comes to the expression `source`, in the machine `m'`. -/
def Arrives (c : Calls) (m : Machine) (sources : List (List Char)) (source : List Char) (m' : Machine) : Prop :=
  ∃ before after vs, sources = before ++ source :: after ∧ EvaluatesAll c m before vs m'

theorem arrives_cons {c : Calls} {m m' : Machine} {first source : List Char} {sources : List (List Char)} :
    Arrives c m (first :: sources) source m' ↔
      (source = first ∧ m' = m) ∨ ∃ v m₁, c.eval first m = .done v m₁ ∧ Arrives c m₁ sources source m' := by
  constructor
  · rintro ⟨before, after, vs, heq, hall⟩
    cases hall with
    | nil => 
      cases heq
      exact .inl ⟨rfl, rfl⟩
    | cons h hs =>
      cases heq
      exact .inr ⟨_, _, h, _, after, _, rfl, hs⟩
  · rintro (⟨rfl, rfl⟩ | ⟨v, m₁, h, before, after, vs, rfl, hs⟩)
    · exact ⟨[], sources, [], rfl, .nil m'⟩
    · exact ⟨first :: before, after, v :: vs, rfl, .cons h hs⟩

/-- Filling the parts of a template is evaluating its expressions. -/
theorem fill_parts (c : Calls) (t : Template) :
    fill c t.parts = do
      let vs ← t.sources.mapM c.eval
      return String.ofList (t.filled vs) := by
  obtain ⟨first, inserts⟩ := t
  induction inserts generalizing first with
  | nil => simp [Template.parts, Template.sources, Template.filled, fill]
  | cons i is ih =>
    have hparts : Template.parts ⟨first, i :: is⟩ = .plain first :: .code i.source :: Template.parts ⟨i.text, is⟩ := rfl
    have hsources : Template.sources ⟨first, i :: is⟩ = i.source :: Template.sources ⟨i.text, is⟩ := rfl
    have hfilled (v : Value) (vs : List Value) : String.ofList (Template.filled ⟨first, i :: is⟩ (v :: vs))
        = String.ofList first ++ (v.display ++ String.ofList (Template.filled ⟨i.text, is⟩ vs)) := by
      simp [Template.filled, String.ofList_append]
    simp only [hparts, hsources, fill, ih, List.mapM_cons, bind_assoc, pure_bind, hfilled]

section

variable {c : Calls} {m m' : Machine} {sources : List (List Char)}

theorem mapM_eval_eq_done {vs : List Value} :
    sources.mapM c.eval m = .done vs m' ↔ EvaluatesAll c m sources vs m' := by
  constructor
  · intro h
    induction sources generalizing m vs with
    | nil =>
      cases h
      exact .nil _
    | cons source sources ih =>
      rw [List.mapM_cons] at h
      obtain ⟨v, m₁, hv, h⟩ := Run.bind_eq_done h
      obtain ⟨vs, m₂, hvs, h⟩ := Run.bind_eq_done h
      cases h
      exact .cons hv (ih hvs)
  · intro h
    induction h with
    | nil => rfl
    | cons hv _ ih => rw [List.mapM_cons, Run.bind_of_done hv, Run.bind_of_done ih]; rfl

/-- The evaluation stops at the first expression or, if that has a value, at one of the others. -/
theorem stops_cons {first : List Char} (P : Outcome Value → Prop) :
    (∃ source m₂, Arrives c m (first :: sources) source m₂ ∧ P (c.eval source m₂)) ↔
      P (c.eval first m) ∨ ∃ v m₁, c.eval first m = .done v m₁ ∧
        ∃ source m₂, Arrives c m₁ sources source m₂ ∧ P (c.eval source m₂) := by
  simp only [arrives_cons]
  constructor
  · rintro ⟨source, m₂, ⟨rfl, rfl⟩ | ⟨v, m₁, h, hs⟩, hm⟩
    · exact .inl hm
    · exact .inr ⟨v, m₁, h, source, m₂, hs, hm⟩
  · rintro (hm | ⟨v, m₁, h, source, m₂, hs, hm⟩)
    · exact ⟨first, m, .inl ⟨rfl, rfl⟩, hm⟩
    · exact ⟨source, m₂, .inr ⟨v, m₁, h, hs⟩, hm⟩

theorem not_stops_nil (P : Outcome Value → Prop) :
    ¬ ∃ source m₁, Arrives c m [] source m₁ ∧ P (c.eval source m₁) := by
  rintro ⟨source, m₁, ⟨before, after, vs, heq, -⟩, -⟩
  simp at heq

theorem mapM_eval_eq_failed {e : Error} :
    sources.mapM c.eval m = .failed e m' ↔
      ∃ source m₁, Arrives c m sources source m₁ ∧ c.eval source m₁ = .failed e m' := by
  induction sources generalizing m with
  | nil => exact ⟨(nomatch ·), fun h => absurd h (not_stops_nil (· = .failed e m'))⟩
  | cons source sources ih =>
    rw [stops_cons (· = .failed e m'), List.mapM_cons]
    cases h : c.eval source m with
    | done v m₁ => 
      rw [Run.bind_of_done h, Run.bind_pure_eq_failed, ih]
      simp
    | failed e₁ m₁ => simp [Run.bind_of_failed h]
    | outOfFuel => simp [Run.bind_of_outOfFuel h]

theorem mapM_eval_eq_outOfFuel :
    sources.mapM c.eval m = .outOfFuel ↔
      ∃ source m₁, Arrives c m sources source m₁ ∧ c.eval source m₁ = .outOfFuel := by
  induction sources generalizing m with
  | nil => exact ⟨(nomatch ·), fun h => absurd h (not_stops_nil (· = .outOfFuel))⟩
  | cons source sources ih =>
    rw [stops_cons (· = .outOfFuel), List.mapM_cons]
    cases h : c.eval source m with
    | done v m₁ => 
      rw [Run.bind_of_done h, Run.bind_pure_eq_outOfFuel, ih]
      simp
    | failed e₁ m₁ => simp [Run.bind_of_failed h]
    | outOfFuel => simp [Run.bind_of_outOfFuel h]

end

/-- **Formatting evaluates the expressions once, from left to right.** It gives the text with their
values in their places; it fails exactly when one of them fails, with the error of the first one that
does and in the state which that one leaves; and it is out of fuel exactly when the first one without
a value is. -/
theorem formatText_written (c : Calls) {t : Template} (h : t.WellFormed) (m : Machine) :
    (∀ text m', formatText c (String.ofList t.written) m = .done text m' ↔
      ∃ vs, EvaluatesAll c m t.sources vs m' ∧ text = String.ofList (t.filled vs)) ∧
    (∀ e m', formatText c (String.ofList t.written) m = .failed e m' ↔
      ∃ source m₁, Arrives c m t.sources source m₁ ∧ c.eval source m₁ = .failed e m') ∧
    (formatText c (String.ofList t.written) m = .outOfFuel ↔
      ∃ source m₁, Arrives c m t.sources source m₁ ∧ c.eval source m₁ = .outOfFuel) := by
  have hformat : formatText c (String.ofList t.written) = do
      let vs ← t.sources.mapM c.eval
      return String.ofList (t.filled vs) := by
    rw [formatText, String.toList_ofList, parts_written h, fill_parts]
  rw [hformat]
  refine ⟨fun text m' => ?_, fun e m' => ?_, ?_⟩
  · rw [Run.bind_pure_eq_done]
    simp only [mapM_eval_eq_done, eq_comm (a := text)]
  · rw [Run.bind_pure_eq_failed, mapM_eval_eq_failed]
  · rw [Run.bind_pure_eq_outOfFuel, mapM_eval_eq_outOfFuel]

/-- The value of the first expression opens what looks like a third one, and the second expression holds
the mark that would close it. -/
theorem formatText_written_sample :
    let t : Template := ⟨[], [⟨"'<' & '<'".toList, "1".toList⟩, ⟨"'>>'".toList, " <".toList⟩]⟩
    let m := Machine.new {} {}
    t.WellFormed ∧ String.ofList t.written = "<<'<' & '<'>>1<<'>>'>> <" ∧
      ∃ vs m', EvaluatesAll (Calls.ofFuel 2) m t.sources vs m' ∧
        formatText (Calls.ofFuel 2) "<<'<' & '<'>>1<<'>>'>> <" m = .done "<<1>> <" m' ∧
        String.ofList (t.filled vs) = "<<1>> <" := by
  intro t m
  have ht : t.WellFormed := by decide
  have hwritten : String.ofList t.written = "<<'<' & '<'>>1<<'>>'>> <" := by decide
  have hvalue : (formatText (Calls.ofFuel 2) (String.ofList t.written) m).result? = some "<<1>> <" := by
    decide +kernel
  obtain ⟨m', h⟩ := Outcome.exists_of_result? hvalue
  obtain ⟨vs, hall, htext⟩ := ((formatText_written (Calls.ofFuel 2) ht m).1 _ _).mp h
  exact ⟨ht, hwritten, vs, m', hall, hwritten ▸ h, htext.symm⟩

end Machine

end QuestScript
