import QuestScript.Proofs.Expr.Balance
import QuestScript.Text.Template

/-!
# Literals inside expressions

A literal of an expression may hold further expressions between `<<` and `>>`, whose literals may
hold expressions again. All of them are parts of the text they were read from, and each is shorter
than the one around it (`length_inner_lt`), so looking into them comes to an end.

`Uses` says that an expression, or one inside its literals, has a certain operation. Because of the
lengths this can be decided.
-/

namespace QuestScript

/-! ## Lengths of parts -/

namespace Text

/-- What stands before the closing mark is a part of the text. -/
theorem length_cutAtClosing?_fst_le {cs before after : List Char}
    (h : cutAtClosing? cs = some (before, after)) : before.length ≤ cs.length := by
  unfold cutAtClosing? at h
  obtain ⟨pos, -, h⟩ := Option.bind_eq_some_iff.mp h
  obtain ⟨⟨a, b⟩, hs, h⟩ := Option.bind_eq_some_iff.mp h
  cases h
  rw [(splitBytes_eq_some hs).1]
  simp

/-- An expression in a text is shorter than the text. -/
theorem length_lt_of_code_mem_parts {cs inner : List Char} (h : Part.code inner ∈ parts cs) :
    inner.length < cs.length := by
  fun_induction parts cs with
  | case1 cs _ => simp at h
  | case2 cs before inner' _ _ => simp at h
  | case3 cs before inner' hopen source rest hclose ih =>
    have hinner := length_cutAtOpening?_lt hopen
    have hsource := length_cutAtClosing?_fst_le hclose
    have hrest := length_cutAtClosing?_le hclose
    simp only [List.mem_cons, reduceCtorEq, Part.code.injEq, false_or] at h
    rcases h with rfl | h
    · omega
    · have := ih h
      omega

/-- Doubled quotes become one, so a literal does not grow. -/
theorem length_unquote_le (q : Char) (cs : List Char) : (unquote q cs).length ≤ cs.length := by
  fun_induction unquote q cs with
  | case1 => exact Nat.le_refl _
  | case2 => exact Nat.le_refl _
  | case3 => simp only [List.length_cons]; omega
  | case4 => simp only [List.length_cons] at *; omega

end Text

namespace Token

/-- A symbol is no literal. -/
theorem symbol?_ne_text {c : Char} {next : Option Char} {token : Token} {two : Bool}
    (h : symbol? c next = some (token, two)) (s : String) : token ≠ .text s := by
  unfold symbol? at h
  split at h <;> cases h <;> exact nofun

/-- A literal is shorter than the text it is read from. -/
theorem length_le_of_read {c : Char} {cs : List Char} {l : Lexeme} {s : String}
    (h : read c cs = .ok l) (hs : l.token = .text s) : s.length ≤ cs.length := by
  unfold read at h
  split at h
  · unfold readNumber at h
    dsimp only at h
    split at h <;> cases h
    cases hs
  split at h
  · unfold readText at h
    split at h
    · next body rest hq =>
      cases h
      cases hs
      have hbody := Text.length_unquote_le c body
      rw [Text.closeQuote_eq_some hq]
      simp only [String.length_ofList, List.length_append, List.length_cons]
      omega
    · cases h
  split at h
  · unfold readCode at h
    split at h <;> cases h
    cases hs
  split at h
  · cases h
    cases hs
  · unfold readSymbol at h
    split at h
    · next hsym => cases h; exact absurd hs (symbol?_ne_text hsym s)
    · next hsym => cases h; exact absurd hs (symbol?_ne_text hsym s)
    · cases h

/-- The quotes around a literal make the text longer than what is in them. -/
theorem length_lt_of_mem_tokenizeFrom {pos : Nat} {cs : List Char} {tokens : List (Token × Span)}
    {s : String} {sp : Span} (h : tokenizeFrom pos cs = .ok tokens)
    (hmem : (Token.text s, sp) ∈ tokens) : s.length < cs.length := by
  fun_induction tokenizeFrom pos cs generalizing tokens with
  | case1 => cases h; cases hmem
  | case2 pos c cs _ ih =>
    have := ih h hmem
    simp only [List.length_cons]
    omega
  | case3 => cases h
  | case4 pos c cs _ l hread ih =>
    obtain ⟨rest, hrest, h₁⟩ := bind_eq_ok h
    cases h₁
    simp only [List.mem_cons, Prod.mk.injEq] at hmem
    simp only [List.length_cons]
    rcases hmem with ⟨hs, -⟩ | hmem
    · have := length_le_of_read hread hs.symm
      omega
    · have := ih hrest hmem
      have := read_rest_length_le hread
      omega

end Token

/-! ## Texts of compiled expressions -/

namespace Compiler

variable {P : String → Prop} {source : List Char} {sp : Span} {p : Pending} {S : List Pending}

/-- All texts that an instruction looks for expressions in have the property `P`. -/
def Drawn (P : String → Prop) (out : Code) : Prop :=
  ∀ i ∈ out.toList, i.op = .format → ∃ s, P s ∧ i.literal = some (.text s)

/-- Nothing that waits is such a text. -/
def Plain (S : List Pending) : Prop := ∀ p ∈ S, p.kind ≠ .op .format

theorem plain_cons : Plain (p :: S) ↔ p.kind ≠ .op .format ∧ Plain S := List.forall_mem_cons

/-- What waits on top may change in all but its kind. -/
theorem Plain.replace {p' : Pending} (h : Plain (p :: S)) (hk : p'.kind = p.kind) :
    Plain (p' :: S) := by
  obtain ⟨hp, hS⟩ := plain_cons.mp h
  exact plain_cons.mpr ⟨hk ▸ hp, hS⟩

/-- A state of the compiler in which both hold. -/
structure Traced (P : String → Prop) (c : Compiler) : Prop where
  drawn : Drawn P c.out
  plain : Plain c.stack

/-- An instruction that is emitted has to say where its text is from, if it looks for expressions in it. -/
theorem Drawn.emit {out out' : Code} {i : Instruction} (hd : Drawn P out)
    (h : emit out i sp = .ok out') (hi : i.op = .format → ∃ s, P s ∧ i.literal = some (.text s)) :
    Drawn P out' := by
  intro j hj
  rw [toList_of_emit h, List.mem_append, List.mem_singleton] at hj
  rcases hj with hj | rfl
  · exact hd j hj
  · exact hi

/-- The target of a jump is all that changes later. -/
theorem retargeted_eq_format {target : Nat} {i : Instruction} (h : (retargeted target i).op = .format) :
    i.op = .format := by
  obtain ⟨op, literal, argCount⟩ := i
  cases op <;> first | rfl | cases h

theorem Drawn.patch {out : Code} (hd : Drawn P out) (index : Option Nat) :
    Drawn P (patch out index) := by
  cases index with
  | none => exact hd
  | some index =>
    obtain ⟨out⟩ := out
    rw [patch_toArray]
    intro i hi
    obtain ⟨n, hn⟩ := List.getElem?_of_mem hi
    obtain ⟨j, hj, ⟨-, rfl⟩ | ⟨-, rfl⟩⟩ := getElem?_of_patched hn
    · exact fun hf => hd j (List.mem_of_getElem? hj) (retargeted_eq_format hf)
    · exact hd _ (List.mem_of_getElem? hj)

theorem Drawn.emitOp {out out' : Code} {op : Op} (hd : Drawn P out) (hop : op ≠ .format)
    (h : emitOp out p op sp = .ok out') : Drawn P out' := by
  unfold Compiler.emitOp at h
  split at h
  · obtain ⟨out₁, h₁, h₂⟩ := bind_eq_ok h
    cases h₂
    exact (hd.emit h₁ nofun).patch _
  · obtain ⟨out₁, h₁, h₂⟩ := bind_eq_ok h
    cases h₂
    exact (hd.emit h₁ nofun).patch _
  · cases h
    exact hd.patch _
  · exact hd.emit h fun hf => absurd hf hop

/-- What waits is no text, so what it becomes needs no origin. -/
theorem Drawn.emitPending {out out' : Code} (hd : Drawn P out) (hp : p.kind ≠ .op .format)
    (h : emitPending out p sp = .ok out') : Drawn P out' := by
  unfold Compiler.emitPending at h
  split at h
  · next op hk =>
    obtain ⟨out₁, h₁, h₂⟩ := bind_eq_ok h
    have hd₁ : Drawn P out₁ := hd.emitOp (fun hf => hp (hf ▸ hk)) h₁
    split at h₂
    · exact hd₁.emit h₂ nofun
    · cases h₂
      exact hd₁
  · cases h

/-- By induction on the stack: reducing emits what waits. -/
theorem traced_reduce {r : Nat} {out : Code} {c : Compiler} (hd : Drawn P out) (hS : Plain S)
    (h : reduce r sp S out = .ok c) : Traced P c := by
  induction S generalizing out with
  | nil =>
    cases h
    exact ⟨hd, hS⟩
  | cons p S ih =>
    rw [reduce] at h
    split at h
    · cases h
      exact ⟨hd, hS⟩
    · obtain ⟨out₁, h₁, h₂⟩ := bind_eq_ok h
      obtain ⟨hp, hS'⟩ := plain_cons.mp hS
      exact ih (hd.emitPending hp h₁) hS' h₂

/-! ### Operator position -/

namespace Traced

variable {c c' : Compiler} {step : Step}

theorem push (hc : Traced P c) (hp : p.kind ≠ .op .format) :
    Traced P { c with stack := p :: c.stack } := ⟨hc.drawn, plain_cons.mpr ⟨hp, hc.plain⟩⟩

theorem countIndex {out : Code} (hc : Traced P ⟨out, S⟩) : Traced P ⟨out, countIndex S⟩ := by
  rcases countIndex_cases S with ⟨-, heq⟩ | ⟨v, rest, rfl, hv, heq⟩
  · rw [heq]
    exact hc
  · rw [heq]
    exact ⟨hc.drawn, hc.plain.replace rfl⟩

theorem closeTuple (hc : Traced P c) (h : closeTuple c sp = .ok c') : Traced P c' := by
  obtain ⟨out, S⟩ := c
  unfold Compiler.closeTuple at h
  split at h
  · next p ps heq =>
    replace heq : S = p :: ps := heq
    subst heq
    split at h
    · split at h
      · cases h
      · obtain ⟨out', h₁, h₂⟩ := bind_eq_ok h
        cases h₂
        exact ⟨hc.drawn.emit h₁ nofun, (plain_cons.mp hc.plain).2⟩
    · cases h
      exact hc
  · cases h
    exact hc

/-- A bracket that is closed leaves the stack or is counted for its function. -/
theorem closeRound (hc : Traced P c) (h : closeRound c sp = .ok c') : Traced P c' := by
  obtain ⟨b, S, hstack, -, hcases⟩ := closeRound_eq_ok h
  have hplain := hc.plain
  rw [hstack] at hplain
  obtain ⟨-, hS⟩ := plain_cons.mp hplain
  rcases hcases with ⟨-, rfl⟩ | ⟨f, rest, op, rfl, -, -, -, -, rfl⟩
  · exact ⟨hc.drawn, hS⟩
  · exact ⟨hc.drawn, hS.replace rfl⟩

theorem closeSquare (hc : Traced P c) (h : closeSquare c sp = .ok c') : Traced P c' := by
  obtain ⟨b, S, hstack, -, rfl⟩ := closeSquare_eq_ok h
  have hplain := hc.plain
  rw [hstack] at hplain
  exact countIndex ⟨hc.drawn, (plain_cons.mp hplain).2⟩

/-- A comma in a call may emit a jump. No text comes with it. -/
theorem functionComma {b f : Pending} {op : Op} {out : Code} (hc : Traced P ⟨out, b :: f :: S⟩)
    (h : functionComma out b f op S sp = .ok c') : Traced P c' := by
  have hplain (args : Nat) (patch : Option Nat) : Plain (b :: { f with args, patch } :: S) := by
    obtain ⟨hb, hS⟩ := plain_cons.mp hc.plain
    exact plain_cons.mpr ⟨hb, hS.replace rfl⟩
  unfold Compiler.functionComma at h
  dsimp only at h
  split at h
  · cases h
  split at h
  · split at h
    · obtain ⟨out₁, h₁, h₂⟩ := bind_eq_ok h
      cases h₂
      exact ⟨hc.drawn.emit h₁ nofun, hplain _ _⟩
    · obtain ⟨out₁, h₁, h₂⟩ := bind_eq_ok h
      cases h₂
      exact ⟨(hc.drawn.emit h₁ nofun).patch _, hplain _ _⟩
  · cases h
    exact ⟨hc.drawn, hplain _ _⟩

/-- All the commas there are, by the bracket that they stand in. -/
theorem comma (hc : Traced P c) (h : comma c sp = .ok c') : Traced P c' := by
  obtain ⟨out, S⟩ := c
  rcases comma_eq_ok h with ⟨b, f, rest, op, rfl, -, -, -, h₁⟩ | h₁
  · exact functionComma hc h₁
  · rcases tupleComma_eq_ok h₁ with ⟨p, ps, rfl, -, rfl⟩ | ⟨-, rfl⟩
    · exact ⟨hc.drawn, hc.plain.replace rfl⟩
    · exact hc.push nofun

/-- No operator between two values looks into a text. -/
theorem binary {op : Op} (hc : Traced P c) (hop : op ∈ Op.binaries) (h : binary c op sp = .ok c') :
    Traced P c' := by
  have hall : ∀ op ∈ Op.binaries, op ≠ .format := by decide
  have hkind : Pending.Kind.op op ≠ .op .format := fun heq => hall op hop (Pending.Kind.op.inj heq)
  obtain ⟨⟨out⟩, S⟩ := c
  rcases binary_cases h with ⟨jump, hjump, rfl⟩ | ⟨-, -, rfl⟩
  · refine ⟨?_, plain_cons.mpr ⟨hkind, hc.plain⟩⟩
    intro i hi
    simp only [List.mem_append, List.mem_singleton] at hi
    rcases hi with hi | rfl
    · exact hc.drawn i hi
    · cases hjump <;> exact nofun
  · exact hc.push hkind

/-- A step in operator position, when the token has been read. -/
theorem arrive {inc : Incoming} {flag : Bool} (hc : Traced P c)
    (hop : ∀ op, inc = .binary op → op ∈ Op.binaries) (h : arrive inc c sp = .ok (flag, c')) :
    Traced P c' := by
  cases inc with
  | closeRound =>
    obtain ⟨c₁, h₁, h₂⟩ := bind_eq_ok h
    obtain ⟨c₂, h₃, h₄⟩ := bind_eq_ok h₂
    cases h₄
    exact (hc.closeTuple h₁).closeRound h₃
  | closeSquare =>
    obtain ⟨c₁, h₁, h₂⟩ := bind_eq_ok h
    obtain ⟨c₂, h₃, h₄⟩ := bind_eq_ok h₂
    cases h₄
    exact (hc.closeTuple h₁).closeSquare h₃
  | comma =>
    obtain ⟨c₁, h₁, h₂⟩ := bind_eq_ok h
    cases h₂
    exact hc.comma h₁
  | binary op =>
    obtain ⟨c₁, h₁, h₂⟩ := bind_eq_ok h
    cases h₂
    exact hc.binary (hop op rfl) h₁

/-! ### Value position -/

/-- In value position a text is emitted, and this is where it comes from. -/
theorem value {i : Instruction} (hc : Traced P c) (h : value c i sp = .ok step)
    (hi : i.op = .format → ∃ s, P s ∧ i.literal = some (.text s)) : Traced P step.compiler := by
  obtain ⟨out', h₁, h₂⟩ := bind_eq_ok h
  cases h₂
  exact ⟨hc.drawn.emit h₁ hi, hc.plain⟩

theorem numberValue {n : Number} (hc : Traced P c) (h : numberValue c n sp = .ok step) :
    Traced P step.compiler := by
  obtain ⟨out, S⟩ := c
  unfold Compiler.numberValue at h
  split at h
  · next p ps heq =>
    replace heq : S = p :: ps := heq
    subst heq
    split at h
    · exact value (c := ⟨out, ps⟩) ⟨hc.drawn, (plain_cons.mp hc.plain).2⟩ h nofun
    · exact hc.value h nofun
  · exact hc.value h nofun

theorem emptyRound (hc : Traced P c) (h : emptyRound c sp = .ok step) : Traced P step.compiler := by
  obtain ⟨b, S, hstack, -, hcases⟩ := emptyRound_eq_ok h
  have hplain := hc.plain
  rw [hstack] at hplain
  have hclosed : Traced P { c with stack := S } := ⟨hc.drawn, (plain_cons.mp hplain).2⟩
  rcases hcases with ⟨-, h₁⟩ | ⟨f, rest, op, -, -, -, -, rfl⟩
  · exact hclosed.value h₁ nofun
  · exact hclosed

theorem emptySquare (hc : Traced P c) (h : emptySquare c sp = .ok step) : Traced P step.compiler := by
  obtain ⟨p, b, S, out', hstack, -, -, hemit, rfl⟩ := emptySquare_eq_ok h
  have hplain := hc.plain
  rw [hstack] at hplain
  obtain ⟨-, hplain⟩ := plain_cons.mp hplain
  exact countIndex ⟨hc.drawn.emit hemit nofun, (plain_cons.mp hplain).2⟩

/-- A name may become a text that is pushed, but none that is looked into. -/
theorem nameValue {s : String} {next after : Option Token} (hc : Traced P c)
    (h : nameValue c source s next after sp = .ok step) : Traced P step.compiler := by
  rcases nameValue_cases h with ⟨-, location, h₁⟩ | ⟨f, hf, h₁⟩ | ⟨-, h₁⟩
  · obtain ⟨code, hemit, hcases⟩ := locationCall_eq_ok h₁
    have hc₁ : Traced P ⟨code, c.stack⟩ := ⟨hc.drawn.emit hemit nofun, hc.plain⟩
    rcases hcases with ⟨-, rfl⟩ | rfl
    · exact (hc₁.push (p := { kind := .op (.func none), args := 1 }) nofun).push nofun
    · exact hc₁.push nofun
  · have hop : Pending.Kind.op f.op ≠ .op .format := fun heq =>
      Op.ne_of_isFunction (Function.isFunction_of_find? hf) rfl (Pending.Kind.op.inj heq)
    rcases functionCall_eq_ok h₁ with ⟨-, rfl⟩ | ⟨-, -, rfl⟩ | ⟨-, -, rfl⟩
    · exact (hc.push (p := { kind := .op f.op, cast := f.cast }) hop).push nofun
    · exact hc.push hop
    · exact hc.push hop
  · rcases variableRead_eq_ok h₁ with ⟨op, step', hop, hv⟩ | ⟨-, rfl⟩
    · rcases hop with ⟨rfl, -, -, rfl⟩ | ⟨rfl, rfl⟩
      · exact (hc.value hv nofun :)
      · exact hc.value hv nofun
    · exact (hc.push (p := { kind := .op .var, literal := some (.text s) }) nofun).push nofun

/-- The one case that asks for `P` is the literal. -/
theorem valueStep {token : Token} {next after : Option Token} (hc : Traced P c)
    (htext : ∀ s, token = .text s → P s) (h : valueStep source token sp next after c = .ok step) :
    Traced P step.compiler := by
  cases token with
  | number n => exact hc.numberValue h
  | text s => exact hc.value h fun _ => ⟨s, htext s rfl, rfl⟩
  | code s => exact hc.value h nofun
  | minus =>
    cases opening_eq_ok h
    exact hc.push nofun
  | plus =>
    cases h
    exact hc
  | openRound =>
    cases opening_eq_ok h
    exact hc.push nofun
  | closeRound => exact hc.emptyRound h
  | openSquare =>
    obtain ⟨c₁, h₁, h₂⟩ := bind_eq_ok h
    cases push_eq_ok h₁
    cases opening_eq_ok h₂
    exact (hc.push (p := { kind := .openSquare }) nofun).push nofun
  | closeSquare => exact hc.emptySquare h
  | name s => exact hc.nameValue h
  | _ => cases h

end Traced

/-- All texts of the code are literals among the tokens. -/
theorem drawn_run {ready : Bool} {c : Compiler} {tokens : List (Token × Span)} {code : Code}
    (hc : Traced P c) (htexts : ∀ s sp, (Token.text s, sp) ∈ tokens → P s)
    (h : run source ready c tokens = .ok code) : Drawn P code := by
  -- a name may take along the tokens after it, so the induction is on their number
  induction hlen : tokens.length using Nat.strongRecOn generalizing ready c tokens with
  | ind n ih =>
    cases tokens with
    | nil =>
      cases ready with
      | false =>
        rw [run] at h
        cases h
      | true =>
        obtain ⟨c₁, c₂, hr, ht, -, rfl⟩ := run_nil_iff.mp h
        exact ((traced_reduce hc.drawn hc.plain hr).closeTuple ht).drawn
    | cons t rest =>
      obtain ⟨token, sp⟩ := t
      have hrest : ∀ s sp, (Token.text s, sp) ∈ rest → P s := fun s sp hs =>
        htexts s sp (List.mem_cons_of_mem _ hs)
      subst hlen
      cases ready with
      | true =>
        obtain ⟨inc, c₁, flag, c₂, hi, hr, ha, h₁⟩ := run_operator_iff.mp h
        have hc₁ := traced_reduce hc.drawn hc.plain hr
        exact ih rest.length (by simp) (hc₁.arrive (incoming_cases hi).2 ha) hrest h₁ rfl
      | false =>
        obtain ⟨step, hs, h₁⟩ := run_value h
        have htext : ∀ s, token = .text s → P s := by
          rintro s rfl
          exact htexts s sp List.mem_cons_self
        refine ih _ ?_ (hc.valueStep htext hs) ?_ h₁ rfl
        · simp only [List.length_drop, List.length_cons]
          omega
        · exact fun s sp hs => hrest s sp (List.mem_of_mem_drop hs)

end Compiler

/-- A literal of a compiled expression is shorter than the expression. -/
theorem length_lt_of_compile {source : List Char} {code : Code} {i : Instruction}
    (h : compile source = .ok code) (hi : i ∈ code.toList) (hop : i.op = .format) :
    ∃ s : String, s.length < source.length ∧ i.literal = some (.text s) := by
  obtain ⟨tokens, htokens, hrun⟩ := bind_eq_ok h
  have hstart : Compiler.Traced (fun s => s.length < source.length) { stack := [{ kind := .start }] } :=
    ⟨nofun, by simp [Compiler.Plain]⟩
  exact Compiler.drawn_run hstart (fun s sp => Token.length_lt_of_mem_tokenizeFrom htokens) hrun i hi hop

/-! ## Expressions inside expressions -/

namespace Text

/-- The expression a part of a text is. -/
def Part.source? : Part → Option (List Char)
  | .code source => some source
  | _ => none

/-- The expressions a text holds. -/
def expressions (text : String) : List (List Char) := (parts text.toList).filterMap Part.source?

/-- The expressions of a text are its parts that are code. -/
theorem mem_expressions {text : String} {source : List Char} :
    source ∈ expressions text ↔ .code source ∈ parts text.toList := by
  simp only [expressions, List.mem_filterMap]
  constructor
  · rintro ⟨part, hpart, hsource⟩
    cases part with
    | code inner => cases hsource; exact hpart
    | plain text => cases hsource
    | unclosed => cases hsource
  · exact fun h => ⟨_, h, rfl⟩

end Text

/-- The expressions that an instruction evaluates within its literal. -/
def Instruction.inner (i : Instruction) : List (List Char) :=
  match i.op, i.literal with
  | .format, some (.text s) => Text.expressions s
  | _, _ => []

/-- **The expressions inside an expression are shorter.** -/
theorem length_inner_lt {source inner : List Char} {code : Code} {i : Instruction}
    (h : compile source = .ok code) (hi : i ∈ code.toList) (hinner : inner ∈ i.inner) :
    inner.length < source.length := by
  unfold Instruction.inner at hinner
  split at hinner
  · next hop hlit =>
    obtain ⟨s, hs, heq⟩ := length_lt_of_compile h hi hop
    rw [hlit] at heq
    cases heq
    exact Nat.lt_trans (Text.length_lt_of_code_mem_parts (Text.mem_expressions.mp hinner)) hs
  · cases hinner

/-- An expression, or one inside it, has an operation with the property `p`. -/
inductive Uses (p : Op → Bool) : List Char → Prop
  | itself {source : List Char} {code : Code} {i : Instruction} (compiled : compile source = .ok code)
      (mem : i ∈ code.toList) (op : p i.op = true) : Uses p source
  | inside {source inner : List Char} {code : Code} {i : Instruction}
      (compiled : compile source = .ok code) (mem : i ∈ code.toList) (inside : inner ∈ i.inner)
      (uses : Uses p inner) : Uses p source

/-- `Uses`, looked for at most `n` levels deep. -/
def usesWithin (p : Op → Bool) : Nat → List Char → Bool
  | 0, _ => false
  | n + 1, source =>
    match compile source with
    | .ok code => code.toList.any fun i => p i.op || i.inner.any (usesWithin p n)
    | .error _ => false

/-- There are no more levels than characters. -/
theorem uses_iff {p : Op → Bool} {source : List Char} {n : Nat} (hn : source.length < n) :
    Uses p source ↔ usesWithin p n source = true := by
  induction n generalizing source with
  | zero => omega
  | succ n ih =>
    unfold usesWithin
    constructor
    · intro h
      cases h with
      | itself hcompile hi hop =>
        rw [hcompile]
        exact List.any_eq_true.mpr ⟨_, hi, by rw [hop]; rfl⟩
      | inside hcompile hi hinner huses =>
        have hlt := length_inner_lt hcompile hi hinner
        have hany := List.any_eq_true.mpr ⟨_, hinner, (ih (by omega)).mp huses⟩
        rw [hcompile]
        exact List.any_eq_true.mpr ⟨_, hi, by rw [hany, Bool.or_true]⟩
    · intro h
      split at h
      · next code hcompile =>
        obtain ⟨i, hi, h⟩ := List.any_eq_true.mp h
        rcases Bool.or_eq_true_iff.mp h with hop | hany
        · exact .itself hcompile hi hop
        · obtain ⟨inner, hinner, hwithin⟩ := List.any_eq_true.mp hany
          have hlt := length_inner_lt hcompile hi hinner
          exact .inside hcompile hi hinner ((ih (by omega)).mpr hwithin)
      · cases h

instance (p : Op → Bool) (source : List Char) : Decidable (Uses p source) :=
  decidable_of_iff _ (uses_iff (Nat.lt_succ_self source.length)).symm

end QuestScript
