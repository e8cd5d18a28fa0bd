import QuestScript.Proofs.Expr.Bracketed
import QuestScript.Proofs.Expr.Display

/-!
# Expressions that read an item

The instructions of `name[index]` are those of the index, and then those that read the variable
(`compile_item`, `compile_items`). So evaluating it is evaluating the index and reading the variable at its
value (`runCode_snoc`): the jumps of the index lead to its end at most.
-/

namespace QuestScript

open Text (byteSize isBlank Closed Nest Standing)

/-! ## The text of an item -/

namespace Token

variable {pos : Nat} {cs : List Char} {tokens : List (Token × Span)}

/-- Only a text of white space has no tokens. -/
theorem Lexes.isSpace_of_nil (h : Lexes pos cs []) : ∀ x ∈ cs, Token.isSpace x = true := by
  generalize htokens : ([] : List (Token × Span)) = tokens at h
  induction h with
  | nil => exact nofun
  | space hspace _ ih => exact List.forall_mem_cons.mpr ⟨hspace, ih htokens⟩
  | lexeme => cases htokens

/-- No text with its brackets closed starts with a bracket that closes one. -/
theorem Lexes.head_ne_closeSquare (h : Lexes pos cs tokens) (hclosed : Closed cs) :
    ∀ t ∈ tokens.head?, t.1 ≠ .closeSquare := by
  rintro t ht htoken
  obtain ⟨l, hl, -⟩ := h.nestAll hclosed
  cases tokens with
  | nil => cases ht
  | cons u us =>
    cases ht
    rw [List.map_cons, nestAll_cons, htoken] at hl
    cases hl

/-- A comma at the end of the tokens stands at the end of the text, but for white space. -/
theorem Lexes.getLast?_of_comma (h : Lexes pos cs tokens) (hc : (tokens.map (·.1)).getLast? = some .comma)
    (hspace : ∀ x ∈ cs.getLast?, Token.isSpace x = false) : cs.getLast? = some ',' := by
  induction h with
  | nil => cases hc
  | @space pos x cs tokens hx _ ih =>
    cases cs with
    | nil =>
      rw [hspace x rfl] at hx
      cases hx
    | cons y ys =>
      rw [List.getLast?_cons_cons] at hspace ⊢
      exact ih hc hspace
  | @lexeme pos x tail rest token tokens hs hstop hlexes ih =>
    cases tokens with
    | nil =>
      have hall := hlexes.isSpace_of_nil
      have hrest : rest = [] := by
        cases hlast : rest.getLast? with
        | none => exact List.getLast?_eq_none_iff.mp hlast
        | some y =>
          have hy := hspace y (by rw [← List.cons_append, List.getLast?_append, hlast]; rfl)
          rw [hall y (List.mem_of_getLast? hlast)] at hy
          cases hy
      have htoken : token = .comma := Option.some.inj hc
      subst htoken
      obtain ⟨rfl, rfl⟩ := hs.separator (show (',', comma) ∈ separators by decide)
      rw [hrest]
      rfl
    | cons u us =>
      have hrest : rest ≠ [] := by
        rintro rfl
        cases hlexes
      obtain ⟨y, ys, rfl⟩ := List.exists_cons_of_ne_nil hrest
      rw [← List.cons_append, List.getLast?_append] at hspace ⊢
      obtain ⟨z, hz⟩ : ∃ z, (y :: ys).getLast? = some z := ⟨_, List.getLast?_eq_some_getLast (by simp)⟩
      rw [hz] at hspace ⊢
      rw [← ih hc (by rw [hz]; exact hspace), hz]
      rfl

/-- Where a comma stands outside literals and brackets, one is found. -/
theorem Lexes.topComma_eq (h : Lexes pos cs tokens) (hclosed : Closed cs) :
    topComma [] (tokens.map (·.1)) = (Text.delimiterPos? cs ',').isSome := by
  have htrack : ∀ d : Text.Depth, d.track ',' = d := track_separator (show (',', comma) ∈ separators by decide)
  rw [Bool.eq_iff_iff, ← h.topComma_iff (l := []) nofun hclosed, Option.isSome_iff_ne_none, ne_eq,
    Text.delimiterPos?_eq_none_iff (by decide), ← ne_eq, ← Set.nonempty_iff_ne_empty]
  constructor
  · rintro ⟨before, after, hcs, hquote, htop⟩
    exact ⟨_, before, after, hcs, rfl, hquote, by rw [htrack]; exact htop⟩
  · rintro ⟨n, before, after, hcs, -, hquote, htop⟩
    exact ⟨before, after, hcs, hquote, by rw [htrack] at htop; exact htop⟩

end Token

namespace Compiler

open Token (Lexes Beside tokenizeFrom)

variable {c : Char} {tail pre cs bs : List Char} {s : String}

/-! ## The instructions of an item -/

/-- A name, the bracket behind it and what stands in it. -/
def itemText (name inner : List Char) : List Char := name ++ '[' :: inner

/-- Up to its index, an item is a name and a bracket. -/
theorem tokenize_item (hs : Token.Spelled c tail (.name s)) (hpre : ∀ x ∈ pre, isBlank x = true) (bs : List Char) :
    ∃ sp sp', Token.tokenize (itemText (c :: tail) (pre ++ bs)) = (do
      let ts ← tokenizeFrom (byteSize (c :: tail) + 1 + byteSize pre) bs
      return (.name s, sp) :: (.openSquare, sp') :: ts) := by
  have hbracket : Token.Spelled '[' [] .openSquare := .symbol rfl
  refine ⟨⟨0, 0 + byteSize (c :: tail)⟩, ⟨0 + byteSize (c :: tail), 0 + byteSize (c :: tail) + byteSize ['[']⟩, ?_⟩
  rw [Token.tokenize, itemText, List.cons_append,
    Token.tokenizeFrom_lexeme hs (fun x hx => hs.not_prolongs_of_halts (by cases hx; rfl)),
    show '[' :: (pre ++ bs) = '[' :: ([] ++ (pre ++ bs)) from rfl,
    Token.tokenizeFrom_lexeme hbracket (fun _ _ => rfl),
    Token.tokenizeFrom_blanks fun x hx => Token.isSpace_of_isBlank (hpre x hx), Nat.zero_add]
  show _ = tokenizeFrom (byteSize (c :: tail) + byteSize ['['] + byteSize pre) bs >>= _
  cases tokenizeFrom (byteSize (c :: tail) + byteSize ['['] + byteSize pre) bs with
  | error e => rfl
  | ok ts => rfl

/-- The name of a variable and a bracket wait for the index. -/
theorem run_item_open {r : List Char} {sp sp' : Span} {ts : List (Token × Span)} (hat : s.toList.head? ≠ some '@')
    (hfun : Function.find? s = none) (hts : ∀ t ∈ ts.head?, t.1 ≠ .closeSquare) :
    run r false { stack := ground } ((.name s, sp) :: (.openSquare, sp') :: ts)
      = run r false ⟨#[], indexGround s⟩ ts := by
  have hafter : ts[0]?.map (·.1) ≠ some .closeSquare := by
    cases ts with
    | nil => exact nofun
    | cons t ts => exact fun h => hts t rfl (Option.some.inj h)
  rw [run]
  show nameValue { stack := ground } r s (some .openSquare) (ts[0]?.map (·.1)) sp >>= _ = _
  rw [nameValue_of_ne hat, hfun]
  simp only [variableRead, if_neg hafter]
  rfl

/-- An index without anything in it is the last item. -/
theorem run_item_last {r : List Char} {sp sp' sp'' : Span} (hat : s.toList.head? ≠ some '@')
    (hfun : Function.find? s = none) :
    run r false { stack := ground } [(.name s, sp), (.openSquare, sp'), (.closeSquare, sp'')]
      = .ok #[{ op := .lastVar, literal := some (.text s) }] := by
  rw [run]
  show nameValue { stack := ground } r s (some .openSquare) (some .closeSquare) sp >>= _ = _
  rw [nameValue_of_ne hat, hfun]
  show run r true ⟨#[{ op := .lastVar, literal := some (.text s) }], ground⟩ [] = _
  rw [run]
  rfl

section

variable {R : Code → Code → Prop} {tokens : List (Token × Span)}

/-- An expression that is a text of its own, and the same one in the brackets of an item: it is enough to
compare how their tokens are compiled. -/
theorem compile_tracks (hs : Token.Spelled c tail (.name s)) (hat : s.toList.head? ≠ some '@')
    (hfun : Function.find? s = none) (hpre : ∀ x ∈ pre, isBlank x = true) (hclosed : Closed cs)
    (hbs : ∀ x ∈ bs.head?, Token.halts x = true)
    (hend : ∀ pos, ∃ us, tokenizeFrom pos bs = .ok us ∧
      ∀ ts ts', Lexes 0 cs ts → Beside cs (itemText (c :: tail) (pre ++ (cs ++ bs))) ts ts' →
        (∀ t ∈ (ts' ++ us).head?, t.1 ≠ .closeSquare) ∧
        Tracks R (run cs false ⟨#[], [] ++ ground⟩ ts)
          (run (itemText (c :: tail) (pre ++ (cs ++ bs))) false ⟨#[], [] ++ indexGround s⟩ (ts' ++ us))) :
    Tracks R (compile cs) (compile (itemText (c :: tail) (pre ++ (cs ++ bs)))) := by
  have hout : (Standing.after {} cs).isOutside = true := by
    rw [hclosed.standing_after]
    rfl
  obtain ⟨sp, sp', htokens⟩ := tokenize_item hs hpre (cs ++ bs)
  -- the place of the index in the longer text
  have hpos : byteSize (c :: tail) + 1 + byteSize pre = byteSize (c :: tail ++ '[' :: pre) := by
    rw [Text.byteSize_append, Text.byteSize_cons (c := '['), ← Nat.add_assoc]
    rfl
  rw [Token.tokenizeFrom_append (s := {}) rfl hout hbs, hpos] at htokens
  obtain ⟨us, hus, htracks⟩ := hend (byteSize (c :: tail ++ '[' :: pre) + byteSize cs)
  rw [compile, compile, htokens]
  cases hlex : Token.tokenize cs with
  | error e =>
    -- what is no text of tokens is none there either
    cases hlex' : tokenizeFrom (byteSize (c :: tail ++ '[' :: pre)) cs with
    | error e' => exact .error _ _
    | ok ts' =>
      obtain ⟨ts, hts, -⟩ := (Token.tokenizeFrom_eq_ok_iff.mp hlex').of_moved 0 _ (Nat.zero_add _).symm
      rw [Token.tokenize_eq_ok_iff.mpr hts] at hlex
      cases hlex
  | ok ts =>
    have hts := Token.tokenize_eq_ok_iff.mp hlex
    obtain ⟨ts', hts', hbeside⟩ := hts.beside (w := cs) (r := itemText (c :: tail) (pre ++ (cs ++ bs)))
      [] (c :: tail ++ '[' :: pre) [] bs (by simp) rfl (by simp [itemText])
    obtain ⟨hfirst, hrun⟩ := htracks ts ts' hts hbeside
    rw [Token.tokenizeFrom_eq_ok_iff.mpr hts', hus]
    show Tracks R (run cs false ⟨#[], ground⟩ ts) (run _ false { stack := ground } (_ :: _ :: (ts' ++ us)))
    rw [run_item_open hat hfun hfirst]
    exact hrun

/-- The tokens of a closed text close their brackets, and know of its commas. -/
theorem markAll_of_lexes {ts : List (Token × Span)} (hts : Lexes 0 cs ts) (hclosed : Closed cs) :
    Token.markAll (outline []) (ts.map (·.1)) = some ([], (Text.delimiterPos? cs ',').isSome) := by
  obtain ⟨l, hl, hnil⟩ := hts.nestAll hclosed
  cases hnil
  show Token.markAll ([], false) _ = _
  rw [Token.markAll_eq hl, hts.topComma_eq hclosed, Bool.false_or]

theorem head?_append_of_lexes {w r : List Char} {ts ts' us : List (Token × Span)} (hts : Lexes 0 cs ts)
    (hclosed : Closed cs) (hbeside : Beside w r ts ts') (hus : ts = [] → ∀ t ∈ us.head?, t.1 ≠ .closeSquare) :
    ∀ t ∈ (ts' ++ us).head?, t.1 ≠ .closeSquare := by
  cases hbeside with
  | nil => exact hus rfl
  | @cons token sp sp' ts ts' _ _ =>
    intro t ht
    cases ht
    exact hts.head_ne_closeSquare hclosed (token, sp) rfl

theorem tokenizeFrom_blanks_symbol {post : List Char} {x : Char} {token : Token}
    (hpost : ∀ x ∈ post, isBlank x = true) (hx : Token.Spelled x [] token) (pos : Nat) :
    ∃ sp, tokenizeFrom pos (post ++ [x]) = .ok [(token, sp)] := by
  rw [Token.tokenizeFrom_blanks fun y hy => Token.isSpace_of_isBlank (hpost y hy)]
  refine ⟨⟨pos + byteSize post, pos + byteSize post + byteSize [x]⟩, ?_⟩
  rw [show [x] = x :: ([] ++ []) from rfl, Token.tokenizeFrom_lexeme hx (by simp), tokenizeFrom]
  rfl

theorem halts_of_blanks {post : List Char} (hpost : ∀ x ∈ post, isBlank x = true) :
    ∀ x ∈ (post ++ [']']).head?, Token.halts x = true := by
  intro x hx
  cases post with
  | nil =>
    cases hx
    rfl
  | cons y ys =>
    obtain rfl : y = x := Option.some.inj hx
    have h' : y = ' ' ∨ y = '\t' := by simpa [isBlank] using hpost y List.mem_cons_self
    rcases h' with rfl | rfl <;> rfl

/-- **An item**: the instructions of its index, and then the variable is read. -/
theorem compile_item (hs : Token.Spelled c tail (.name s)) (hat : s.toList.head? ≠ some '@')
    (hfun : Function.find? s = none) (hpre : ∀ x ∈ pre, isBlank x = true) {post : List Char}
    (hpost : ∀ x ∈ post, isBlank x = true) (hclosed : Closed cs) (hne : ∃ x ∈ cs, Token.isSpace x = false)
    (hdangles : ∀ ts, Lexes 0 cs ts → Token.dangles (ts.map (·.1)) = false) :
    Tracks (ReadsItem s false) (compile cs) (compile (itemText (c :: tail) (pre ++ (cs ++ (post ++ [']']))))) := by
  refine compile_tracks hs hat hfun hpre hclosed (halts_of_blanks hpost) fun pos => ?_
  obtain ⟨sp, hus⟩ := tokenizeFrom_blanks_symbol hpost (x := ']') (.symbol rfl) pos
  refine ⟨_, hus, fun ts ts' hts hbeside => ⟨head?_append_of_lexes hts hclosed hbeside fun hnil => ?_, ?_⟩⟩
  · rw [hnil] at hts
    obtain ⟨x, hx, hspace⟩ := hne
    rw [hts.isSpace_of_nil x hx] at hspace
    cases hspace
  · refine run_tracks (d := false) (indexGround_ground s) (Nat.le_add_left 1 2) (fun u hu => ?_)
      (fun ready out S hS => ?_) hbeside ⟨markAll_of_lexes hts hclosed, fun hhang => ?_⟩
    · cases hu
      exact .inl rfl
    · refine run_item (Prod.ext_iff.mp hS.outline_eq).1 ?_
      cases hh : hangs ready S [] with
      | false => rfl
      | true => exact absurd (hS.hang hh) nofun
    · rw [hangs, hdangles ts hts] at hhang
      cases hhang

/-- **An item with a trailing comma in its index**: if there is another comma, the instructions of the other
items, and then the variable is read; otherwise a tuple is made of the one item first. -/
theorem compile_items (hs : Token.Spelled c tail (.name s)) (hat : s.toList.head? ≠ some '@')
    (hfun : Function.find? s = none) (hpre : ∀ x ∈ pre, isBlank x = true) {post : List Char}
    (hpost : ∀ x ∈ post, isBlank x = true) (hclosed : Closed cs) :
    Tracks (ReadsItem s !(Text.delimiterPos? cs ',').isSome) (compile cs)
      (compile (itemText (c :: tail) (pre ++ (cs ++ (',' :: (post ++ [']'])))))) := by
  refine compile_tracks hs hat hfun hpre hclosed (fun x hx => by cases hx; rfl) fun pos => ?_
  obtain ⟨sp, hus⟩ := tokenizeFrom_blanks_symbol hpost (x := ']') (.symbol rfl) (pos + byteSize [','])
  have hcomma : tokenizeFrom pos (',' :: (post ++ [']']))
      = .ok [(.comma, ⟨pos, pos + byteSize [',']⟩), (.closeSquare, sp)] := by
    rw [show ',' :: (post ++ [']']) = ',' :: ([] ++ (post ++ [']'])) from rfl,
      Token.tokenizeFrom_lexeme (.symbol rfl) (fun _ _ => rfl), hus]
    rfl
  refine ⟨_, hcomma, fun ts ts' hts hbeside => ⟨head?_append_of_lexes hts hclosed hbeside fun _ t ht => ?_, ?_⟩⟩
  · cases ht
    exact nofun
  · refine run_tracks (d := true) (indexGround_ground s) (Nat.le_add_left 1 2) (fun u hu => ?_)
      (fun ready out S hS => run_items hS.outline_eq) hbeside ⟨markAll_of_lexes hts hclosed, fun _ => rfl⟩
    cases hu
    exact .inr rfl

end

end Compiler

end QuestScript
