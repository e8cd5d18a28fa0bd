import QuestScript.Proofs.Expr.Display
import QuestScript.Proofs.Expr.Placed
import QuestScript.Proofs.Target

/-!
# Names of variables as tokens

A variable is named in two places: before the sign of an assignment, where the name is read by
`VarName.read`, and in an expression, where it is a token. A variable that could be named in one of
them only could be written and never read, or read and never written.

A word (`Token.IsWord`) is what the reader of tokens takes for a name. Without line breaks, a text that
names a variable is a word between blanks, and so it is one token. Conversely a word names a variable
unless it is the sign of a type with no name behind it (`VarName.Unnamed`): the reader of tokens takes a
sign for a letter, so `$` and `$7` are words, but the sign has to be followed by a name of its own.
-/

namespace QuestScript

open Text (byteSize isBlank isDelimiter trim)

/-! ## Words -/

/-- The characters of a name in an expression. -/
structure Token.IsWord (cs : List Char) : Prop where
  first : ∃ c ∈ cs.head?, Number.isDigit c = false
  letters : ∀ x ∈ cs, isNameChar x = true

namespace Token

theorem not_isNameChar_of_isBlank {x : Char} (h : isBlank x = true) : isNameChar x = false := by
  rw [isNameChar, Text.isDelimiter_of_isBlank h]
  rfl

variable {cs : List Char}

/-- Every token that is a name is a word. -/
theorem isWord_of_mem {tokens : List (Token × Span)} {s : String} {span : Span} (h : tokenize cs = .ok tokens)
    (hmem : (.name s, span) ∈ tokens) : IsWord s.toList := by
  obtain ⟨c, tail, hs⟩ := (tokenize_eq_ok_iff.mp h).exists_spelled hmem
  generalize htoken : Token.name s = token at hs
  cases hs with
  | name first letter letters =>
    cases htoken
    rw [String.toList_ofList]
    exact ⟨⟨c, rfl, first⟩, List.forall_mem_cons.mpr ⟨letter, letters⟩⟩
  | symbol one =>
    unfold symbol? at one
    split at one <;> cases one <;> cases htoken
  | symbols two =>
    unfold symbol? at two
    split at two <;> cases two <;> cases htoken
  | _ => cases htoken

/-- There is no blank to trim off letters. -/
theorem trim_eq_of_letters (h : ∀ x ∈ cs, isNameChar x = true) : trim cs = cs := by
  have hblank : ∀ x ∈ cs, isBlank x = false := by
    intro x hx
    rw [Bool.eq_false_iff]
    intro hb
    have hletter := h x hx
    rw [not_isNameChar_of_isBlank hb] at hletter
    cases hletter
  exact Text.trim_eq_self_iff.mpr ⟨fun x hx => hblank x (List.mem_of_mem_head? hx),
    fun x hx => hblank x (List.mem_of_getLast? hx)⟩

/-- A word is spelled like a name. -/
theorem IsWord.spelled (h : IsWord cs) :
    ∃ c tail, cs = c :: tail ∧ Spelled c tail (.name (String.ofList cs)) := by
  obtain ⟨c, hc, hdigit⟩ := h.first
  obtain ⟨tail, rfl⟩ := List.head?_eq_some_iff.mp hc
  obtain ⟨hletter, htail⟩ := List.forall_mem_cons.mp h.letters
  exact ⟨c, tail, rfl, .name hdigit hletter htail⟩

/-- A word between blanks is one token. -/
theorem IsWord.tokenize_eq (h : IsWord cs) {before after : List Char} (hbefore : ∀ x ∈ before, isBlank x = true)
    (hafter : ∀ x ∈ after, isBlank x = true) :
    tokenize (before ++ (cs ++ after))
      = .ok [(.name (String.ofList cs), ⟨byteSize before, byteSize before + byteSize cs⟩)] := by
  obtain ⟨c, tail, rfl, hspelled⟩ := h.spelled
  have hstop : ∀ x ∈ after.head?, prolongs c (.name (String.ofList (c :: tail))) x = false :=
    fun x hx => not_isNameChar_of_isBlank (hafter x (List.mem_of_mem_head? hx))
  have hend (pos : Nat) : tokenizeFrom pos after = .ok [] := by
    have hblanks := tokenizeFrom_blanks (fun x hx => isSpace_of_isBlank (hafter x hx)) pos []
    rwa [List.append_nil, tokenizeFrom] at hblanks
  rw [tokenize, tokenizeFrom_blanks (fun x hx => isSpace_of_isBlank (hbefore x hx)), Nat.zero_add,
    List.cons_append, tokenizeFrom_lexeme hspelled hstop, hend]
  rfl

end Token

/-! ## Names behind a sign -/

namespace VarName

/-- Whether a character is the sign of a type. -/
def isSign (c : Char) : Bool := c == '$' || c == '%'

/-- A sign with no name behind it: nothing follows, or a digit. -/
def Unnamed (cs : List Char) : Prop :=
  ∃ sign rest, cs = sign :: rest ∧ isSign sign = true ∧ ∀ c ∈ rest.head?, Number.isDigit c = true

variable {cs : List Char}

/-- Behind a sign stands the name, and without a sign all is the name. -/
theorem bare_cons (c : Char) (tail : List Char) :
    bare (.ofName (c :: tail)) (c :: tail) = if isSign c then tail else c :: tail := by
  unfold ValueType.ofName
  split
  · next heq => cases heq; rfl
  · next heq => cases heq; rfl
  · next hdollar hpercent =>
    rw [if_neg]
    · rfl
    · simp only [isSign, Bool.or_eq_true, beq_iff_eq, not_or]
      exact ⟨fun h => hdollar tail (h ▸ rfl), fun h => hpercent tail (h ▸ rfl)⟩

theorem isValid_iff : isValid cs = true ↔
    (∃ c ∈ cs.head?, Number.isDigit c = false) ∧ ∀ x ∈ cs, isDelimiter x = false := by
  cases cs with
  | nil => simp [isValid]
  | cons c tail =>
    rw [isValid, Bool.and_eq_true, Bool.not_eq_true', Bool.not_eq_true', List.any_eq_false]
    simp

theorem exists_read_iff : (∃ v, read cs = .ok v) ↔ isValid (bare (.ofName (trim cs)) (trim cs)) = true := by
  unfold read
  dsimp only
  split
  · next h => exact ⟨fun _ => h, fun _ => ⟨_, rfl⟩⟩
  · next h => exact ⟨nofun, fun h' => absurd h' h⟩

/-- **Words that name variables** are those that are not just a sign. -/
theorem exists_read_iff_of_isWord (h : Token.IsWord cs) : (∃ v, read cs = .ok v) ↔ ¬ Unnamed cs := by
  obtain ⟨c, hc, hdigit⟩ := h.first
  obtain ⟨tail, rfl⟩ := List.head?_eq_some_iff.mp hc
  have hplain : ∀ x ∈ c :: tail, isDelimiter x = false :=
    fun x hx => Token.isDelimiter_of_isNameChar (h.letters x hx)
  rw [exists_read_iff, Token.trim_eq_of_letters h.letters, bare_cons]
  cases hsign : isSign c with
  | true =>
    have hunnamed : Unnamed (c :: tail) ↔ ∀ x ∈ tail.head?, Number.isDigit x = true := by
      constructor
      · rintro ⟨sign, rest, heq, -, hrest⟩
        cases heq
        exact hrest
      · exact fun hrest => ⟨c, tail, rfl, hsign, hrest⟩
    rw [if_pos rfl, isValid_iff, hunnamed, and_iff_left fun x hx => hplain x (List.mem_cons_of_mem c hx)]
    push Not
    simp only [Bool.not_eq_true]
  | false =>
    rw [if_neg Bool.false_ne_true, isValid_iff]
    refine iff_of_true ⟨⟨c, rfl, hdigit⟩, hplain⟩ ?_
    rintro ⟨sign, rest, heq, hsign', -⟩
    cases heq
    rw [hsign] at hsign'
    cases hsign'

/-- What is left of the name of a variable when its blanks are trimmed is a word. -/
theorem isWord_of_read {v : VarName} (hline : ∀ x ∈ cs, x ≠ '\r' ∧ x ≠ '\n') (h : read cs = .ok v) :
    Token.IsWord (trim cs) := by
  have hvalid := exists_read_iff.mp ⟨v, h⟩
  obtain ⟨after, hcs, -⟩ := Text.exists_trim cs
  have hmem : ∀ x ∈ trim cs, x ∈ cs := by
    intro x hx
    rw [hcs]
    exact List.mem_append_right _ (List.mem_append_left _ hx)
  cases htrim : trim cs with
  | nil =>
    rw [htrim] at hvalid
    cases hvalid
  | cons c tail =>
    rw [htrim, bare_cons] at hvalid
    have hsign : ∀ x, isSign x = true → Number.isDigit x = false ∧ isDelimiter x = false := by
      intro x hx
      have hx' : x = '$' ∨ x = '%' := by simpa [isSign] using hx
      rcases hx' with rfl | rfl <;> decide
    obtain ⟨hfirst, hplain⟩ : Number.isDigit c = false ∧ ∀ x ∈ c :: tail, isDelimiter x = false := by
      cases hc : isSign c with
      | true =>
        rw [hc, if_pos rfl, isValid_iff] at hvalid
        exact ⟨(hsign c hc).1, List.forall_mem_cons.mpr ⟨(hsign c hc).2, hvalid.2⟩⟩
      | false =>
        rw [hc, if_neg Bool.false_ne_true, isValid_iff] at hvalid
        obtain ⟨⟨x, hx, hdigit⟩, hall⟩ := hvalid
        cases hx
        exact ⟨hdigit, hall⟩
    refine ⟨⟨c, rfl, hfirst⟩, fun x hx => ?_⟩
    obtain ⟨hreturn, hbreak⟩ := hline x (hmem x (htrim ▸ hx))
    simp [Token.isNameChar, hplain x hx, hreturn, hbreak]

/-- **Variables have the same names everywhere.** A text of one line that is read as the name of a variable
is one token, the name without the blanks around it; and a name among the tokens of any text is read as the
name of a variable unless it is a sign with nothing or a digit behind it. -/
theorem read_agrees_tokenize :
    (∀ cs v, (∀ x ∈ cs, x ≠ '\r' ∧ x ≠ '\n') → read cs = .ok v →
      Token.tokenize cs = .ok [(.name (String.ofList (trim cs)),
        ⟨byteSize (cs.takeWhile isBlank), byteSize (cs.takeWhile isBlank) + byteSize (trim cs)⟩)]) ∧
    ∀ cs tokens s span, Token.tokenize cs = .ok tokens → (.name s, span) ∈ tokens →
      ((∃ v, read s.toList = .ok v) ↔ ¬ Unnamed s.toList) := by
  constructor
  · intro cs v hline hread
    obtain ⟨after, hcs, hafter⟩ := Text.exists_trim cs
    have hword := isWord_of_read hline hread
    conv_lhs => rw [hcs]
    exact hword.tokenize_eq (fun x hx => List.mem_takeWhile_imp hx) hafter
  · intro cs tokens s span htokens hmem
    exact exists_read_iff_of_isWord (Token.isWord_of_mem htokens hmem)

/-- A name between blanks is one token; of the two names in `$7 + é7`, the second one names a variable. -/
theorem read_agrees_tokenize_sample :
    Token.tokenize " $hero\t".toList = .ok [(.name "$hero", ⟨1, 6⟩)] ∧
      (¬ ∃ v, read "$7".toList = .ok v) ∧ ∃ v, read "é7".toList = .ok v := by
  have hread : read " $hero\t".toList = .ok ⟨"HERO", .text⟩ := by decide +kernel
  have htokens : Token.tokenize "$7 + é7".toList
      = .ok [(.name "$7", ⟨0, 2⟩), (.plus, ⟨3, 4⟩), (.name "é7", ⟨5, 8⟩)] := by decide +kernel
  have hline : ∀ x ∈ " $hero\t".toList, x ≠ '\r' ∧ x ≠ '\n' := by simp
  refine ⟨read_agrees_tokenize.1 _ _ hline hread, ?_, ?_⟩
  · rw [read_agrees_tokenize.2 _ _ _ ⟨0, 2⟩ htokens List.mem_cons_self, not_not]
    refine ⟨'$', ['7'], rfl, rfl, fun c hc => ?_⟩
    cases hc
    rfl
  · rw [read_agrees_tokenize.2 _ _ _ ⟨5, 8⟩ htokens (List.mem_of_getLast? rfl)]
    rintro ⟨sign, rest, heq, hsign, -⟩
    cases heq
    cases hsign

end VarName

end QuestScript
