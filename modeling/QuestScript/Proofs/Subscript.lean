import QuestScript.Proofs.Expr.Identifier
import QuestScript.Proofs.Expr.Indexed
import QuestScript.Proofs.Expr.Piece
import QuestScript.Proofs.Likeness.Recached
import QuestScript.Proofs.Nesting
import QuestScript.Proofs.Target

/-!
# Reading what an assignment writes

An assignment to `name[index]` cuts the index out of the text and evaluates it alone; the expression
`name[index]` evaluates it in its brackets. Both find the same item (`targetIndex_readsBack`), for one
index, several or none, with or without a trailing comma.

Only plus signs behind the trailing comma make a difference: in brackets they are skipped, but alone they
are an error (`targetIndex_trailing_plus`).
-/

namespace QuestScript

open Text (Closed isBlank isNeutral Standing)

/-! ## Texts with blanks around them -/

namespace Text

variable {cs : List Char} {x : Char}

/-- A text is what trimming leaves of it, between blanks. -/
theorem exists_blanks (cs : List Char) :
    ∃ pre post, cs = pre ++ (trim cs ++ post) ∧ (∀ x ∈ pre, isBlank x = true) ∧ (∀ x ∈ post, isBlank x = true) ∧
      (∀ x ∈ (trim cs).head?, isBlank x = false) ∧ ∀ x ∈ (trim cs).getLast?, isBlank x = false := by
  have hback : dropBlanks cs = trim cs ++ ((dropBlanks cs).reverse.takeWhile isBlank).reverse := by
    rw [trim, dropTrailing, ← List.reverse_append, List.takeWhile_append_dropWhile, List.reverse_reverse]
  refine ⟨cs.takeWhile isBlank, ((dropBlanks cs).reverse.takeWhile isBlank).reverse, ?_, Token.of_mem_takeWhile,
    fun x hx => Token.of_mem_takeWhile x (List.mem_reverse.mp hx), ?_, ?_⟩
  · rw [← hback, dropBlanks, List.takeWhile_append_dropWhile]
  · intro x hx
    refine Token.head?_dropWhile_stop isBlank cs x ?_
    show x ∈ (dropBlanks cs).head?
    rw [hback]
    cases htrim : trim cs with
    | nil =>
      rw [htrim] at hx
      cases hx
    | cons y ys =>
      rw [htrim] at hx
      exact hx
  · intro x hx
    rw [trim, dropTrailing, List.getLast?_reverse] at hx
    exact Token.head?_dropWhile_stop isBlank _ x hx

theorem isNeutral_of_isSpace (h : Token.isSpace x = true) : isNeutral x = true := by
  have h' : x = ' ' ∨ x = '\t' ∨ x = '\r' ∨ x = '\n' := by simpa [Token.isSpace, or_assoc] using h
  rcases h' with rfl | rfl | rfl | rfl <;> rfl

theorem isNeutral_of_isBlank (h : isBlank x = true) : isNeutral x = true :=
  isNeutral_of_isSpace (Token.isSpace_of_isBlank h)

/-- No line break stands outside literals and blocks. -/
def Unbroken (cs : List Char) : Prop :=
  ∀ before x after, cs = before ++ x :: after → x = '\r' ∨ x = '\n' → (Standing.after {} before).isOutside = false

/-- White space that stands outside literals and blocks in a text without line breaks there is blank. -/
theorem Unbroken.not_isSpace (h : Unbroken cs) {before after : List Char} (hcs : cs = before ++ x :: after)
    (hclosed : Closed before) (hx : isBlank x = false) : Token.isSpace x = false := by
  cases hspace : Token.isSpace x with
  | false => rfl
  | true =>
    have hbreak : x = '\r' ∨ x = '\n' := by
      have h' : x = ' ' ∨ x = '\t' ∨ x = '\r' ∨ x = '\n' := by simpa [Token.isSpace, or_assoc] using hspace
      rcases h' with rfl | rfl | h'
      · cases hx
      · cases hx
      · exact h'
    have hout := h before x after hcs hbreak
    rw [hclosed.standing_after] at hout
    cases hout

end Text

/-! ## Commas at the end -/

namespace Token

/-- Whether the tokens end with a comma and plus signs behind it. -/
def trailsPlus : List Token → Bool
  | [] => false
  | token :: rest => token == .comma && rest.head? == some .plus && rest.all (· == .plus) || trailsPlus rest

theorem dangles_cases {tokens : List Token} (h : dangles tokens = true) :
    trailsPlus tokens = true ∨ tokens.getLast? = some .comma := by
  induction tokens with
  | nil => cases h
  | cons token rest ih =>
    rw [dangles, Bool.or_eq_true, Bool.and_eq_true, beq_iff_eq] at h
    rcases h with ⟨rfl, hplus⟩ | h
    · cases rest with
      | nil => exact .inr rfl
      | cons u us =>
        have hu : u = .plus := by simpa using List.all_eq_true.mp hplus u List.mem_cons_self
        refine .inl ?_
        rw [trailsPlus, hplus, hu]
        rfl
    · rcases ih h with htrails | hlast
      · exact .inl (by rw [trailsPlus, htrails, Bool.or_true])
      · refine .inr ?_
        cases rest with
        | nil => cases hlast
        | cons u us => exact hlast

/-- Blanks around a text do not change its tokens. -/
theorem tokenize_blanks {pre cs post : List Char} {ts : List (Token × Span)} (hts : Lexes 0 cs ts)
    (hclosed : Closed cs) (hpre : ∀ x ∈ pre, isBlank x = true) (hpost : ∀ x ∈ post, isBlank x = true) :
    ∃ tokens, tokenize (pre ++ (cs ++ post)) = .ok tokens ∧ tokens.map (·.1) = ts.map (·.1) := by
  have hout : (Standing.after {} cs).isOutside = true := by
    rw [hclosed.standing_after]
    rfl
  obtain ⟨ts', hts', hbeside⟩ := hts.beside (w := cs) (r := pre ++ (cs ++ post)) [] pre [] post (by simp) rfl rfl
  have hblanks : tokenizeFrom (Text.byteSize pre + Text.byteSize cs) post = .ok [] := by
    have h := tokenizeFrom_blanks (fun x hx => isSpace_of_isBlank (hpost x hx))
      (Text.byteSize pre + Text.byteSize cs) []
    rw [List.append_nil] at h
    rw [h, tokenizeFrom]
  have hhalts : ∀ x ∈ post.head?, halts x = true := by
    intro x hx
    have h' : x = ' ' ∨ x = '\t' := by simpa [isBlank] using hpost x (List.mem_of_mem_head? hx)
    rcases h' with rfl | rfl <;> rfl
  refine ⟨ts', ?_, hbeside.map_fst.symm⟩
  rw [tokenize, tokenizeFrom_blanks fun x hx => isSpace_of_isBlank (hpre x hx), Nat.zero_add,
    tokenizeFrom_append (s := {}) rfl hout hhalts, tokenizeFrom_eq_ok_iff.mpr hts', hblanks]
  exact congrArg Except.ok (List.append_nil ts')

end Token

/-! ## Running the instructions of an item -/

namespace Machine

variable {c : Calls}

/-- An instruction that replaces the value an expression leaves does so whichever way the expression
comes to its end. -/
theorem runCode_snoc {i : Instruction} {f : Value → Run Value}
    (hi : ∀ (stamp : Nat) (v : Value) (stack : List Value),
      step c stamp i (v :: stack) = (f v >>= fun w => pure (w :: stack, none)))
    (hpops : 0 < i.pops) {stamp pc resume : Nat} {code : List Instruction} (stack : List Value)
    (hresume : resume ≤ pc + code.length)
    (hjumps : ∀ j ∈ code, ∀ target k, j.jumps = some (target, k) → target ≤ pc + code.length) :
    runCode c stamp pc resume stack (code ++ [i]) = (runCode c stamp pc resume stack code >>= f) := by
  induction code generalizing pc resume stack with
  | nil =>
    rw [List.nil_append, runCode_cons stack i [] (show resume ≤ pc from hresume)]
    cases stack with
    | nil =>
      rw [step_of_lt_pops (show ([] : List Value).length < i.pops from hpops)]
      rfl
    | cons v stack =>
      rw [hi, bind_assoc]
      exact bind_pure (f v)
  | cons j code ih =>
    have hlen : pc + (j :: code).length = pc + 1 + code.length := by
      rw [List.length_cons]
      omega
    rw [hlen] at hresume hjumps
    have hrest : ∀ j ∈ code, ∀ target k, j.jumps = some (target, k) → target ≤ pc + 1 + code.length :=
      fun j hj => hjumps j (List.mem_cons_of_mem _ hj)
    by_cases hskip : pc < resume
    · rw [List.cons_append, runCode, runCode, if_pos hskip, if_pos hskip]
      exact ih stack hresume hrest
    · have hle : resume ≤ pc := Nat.not_lt.mp hskip
      rw [List.cons_append, runCode_cons stack j _ hle, runCode_cons stack j _ hle, bind_assoc]
      funext m
      refine Run.bind_congr_of_done fun s m' hs => ?_
      -- a jump leads to the end of the expression at most
      have htarget : s.2.getD 0 ≤ pc + 1 + code.length := by
        have hshifts := step_shifts stack hs
        obtain ⟨stack', target⟩ := s
        cases target with
        | none => exact Nat.zero_le _
        | some target =>
          obtain ⟨k, hk, -⟩ := hshifts
          exact hjumps j List.mem_cons_self target k hk
      rw [ih s.1 htarget hrest]

/-- The item of a variable. -/
def readItem (s : String) (v : Value) : Run Value := do
  let n ← Run.name s.toList
  Run.read (·.vars.get n v)

/-- The value of an index, or the tuple of which it is the only item. -/
def asIndex (single : Bool) (v : Value) : Value := if single then .tuple [v] else v

open Compiler (Tracks ReadsItem indexTail Forward)

/-- Behind the instructions of an index, its value is turned into an item. -/
theorem runCode_indexTail {stamp : Nat} {code : List Instruction} (hf : Forward code []) (s : String)
    (single : Bool) :
    runCode c stamp 0 0 [] (code ++ indexTail s single)
      = (runCode c stamp 0 0 [] code >>= fun v => readItem s (asIndex single v)) := by
  have hjumps : ∀ j ∈ code, ∀ target k, j.jumps = some (target, k) → target ≤ code.length := by
    intro j hj target k hk
    obtain ⟨n, hn⟩ := List.mem_iff_getElem?.mp hj
    exact (hf hn List.not_mem_nil hk).2
  have hvar : ∀ (stamp : Nat) (v : Value) (stack : List Value),
      step c stamp { op := .var, literal := some (.text s), argCount := 1 } (v :: stack)
        = (readItem s v >>= fun w => pure (w :: stack, none)) := by
    intro stamp v stack
    rw [readItem, bind_assoc]
    rfl
  cases single with
  | false =>
    refine runCode_snoc hvar Nat.one_pos [] (Nat.zero_le _) ?_
    rwa [Nat.zero_add]
  | true =>
    have htuple : runCode c stamp 0 0 [] (code ++ [{ op := .tuple, argCount := 1 }])
        = (runCode c stamp 0 0 [] code >>= fun v => pure (.tuple [v])) := by
      refine runCode_snoc (i := { op := .tuple, argCount := 1 }) (fun _ _ _ => rfl) Nat.one_pos [] (Nat.zero_le _) ?_
      rwa [Nat.zero_add]
    show runCode c stamp 0 0 [] (code ++ ([_] ++ [_])) = _
    rw [← List.append_assoc, runCode_snoc hvar Nat.one_pos [] (Nat.zero_le _), htuple, bind_assoc]
    · rfl
    · intro j hj target k hk
      rw [Nat.zero_add, List.length_append]
      rcases List.mem_append.mp hj with hj | hj
      · exact Nat.le_add_right_of_le (hjumps j hj target k hk)
      · rw [List.mem_singleton.mp hj] at hk
        cases hk

/-- How a run goes that goes on with the value of another one, in a machine with another cache. -/
inductive Follows (f : Value → Run Value) : Outcome Value → Outcome Value → Prop
  | done (v : Value) {m₁ m₂ : Machine} (h : m₁.Recached m₂) : Follows f (.done v m₁) (f v m₂)
  | failed (e e' : Error) (m₁ m₂ : Machine) : Follows f (.failed e m₁) (.failed e' m₂)
  | outOfFuel : Follows f .outOfFuel .outOfFuel

theorem follows_bind {x y : Run Value} {m m' : Machine} (h : (x m).Alike recached (y m')) (f : Value → Run Value) :
    Follows f (x m) ((y >>= f) m') := by
  show Follows f (x m) (Run.andThen y f m')
  unfold Run.andThen
  generalize x m = r at h
  generalize y m' = r' at h
  cases h with
  | done v h => exact .done v h
  | failed e h => exact .failed e e _ _
  | outOfFuel => exact .outOfFuel

theorem evalSource_ok {source : List Char} {code : Code} (h : compile source = .ok code) (m : Machine) :
    ∃ m', m.Recached m' ∧ evalSource c source m = evaluate c code m' := by
  obtain ⟨m', hcompiled, hm'⟩ := Run.compiled_ok h m
  refine ⟨m', hm', ?_⟩
  show Run.andThen (Run.compiled source) _ m = _
  rw [Run.andThen, hcompiled]

theorem evalSource_error {source : List Char} {e : SourceError} (h : compile source = .error e) (m : Machine) :
    ∃ m', evalSource c source m = .failed e.error m' := by
  obtain ⟨m', hcompiled, -⟩ := Run.compiled_error h m
  refine ⟨m', ?_⟩
  show Run.andThen (Run.compiled source) _ m = _
  rw [Run.andThen, hcompiled]

/-- An expression that reads an item gives the item at the value of its index, and fails where that
fails. -/
theorem evalSource_reads {w r : List Char} {s : String} {single : Bool}
    (h : Tracks (ReadsItem s single) (compile w) (compile r))
    (hlimit : ∀ e, compile r = .error e → e.isLimit = false) (hc : c.Alike recached c) (m : Machine) :
    Follows (fun v => readItem s (asIndex single v)) (evalSource c w m) (evalSource c r m) := by
  cases hw : compile w with
  | error e =>
    rw [hw] at h
    obtain ⟨e', hr⟩ := h.of_error
    obtain ⟨m₁, hm₁⟩ := evalSource_error (c := c) hw m
    obtain ⟨m₂, hm₂⟩ := evalSource_error (c := c) hr m
    rw [hm₁, hm₂]
    exact .failed _ _ _ _
  | ok code =>
    rw [hw] at h
    obtain ⟨code', hr, hreads⟩ := h.of_ok hlimit
    obtain ⟨m₁, hm₁, heval₁⟩ := evalSource_ok (c := c) hw m
    obtain ⟨m₂, hm₂, heval₂⟩ := evalSource_ok (c := c) hr m
    have hm₁₂ : m₁.Recached m₂ := hm₁.symm.trans hm₂
    rw [heval₁, heval₂, evaluate, evaluate, hreads, runCode_indexTail (compile_forward hw)]
    exact follows_bind (runCode_alike hc ⟨m₁, m₂, hm₁₂, rfl, rfl⟩ 0 0 [] code.toList m₁ m₂ hm₁₂) _

end Machine

/-! ## Indexes that are closed -/

/-- A closed text is all that stands between its brackets. -/
theorem Target.inner_of_closed {cs : List Char} (h : Closed cs) : Inner cs := by
  have hopen : ∀ {before : List Char} {n : Text.Nest}, Text.Nest.after {} before = some n →
      Standing.after {} ('[' :: before) = ⟨n.quote, Text.Nest.depth (n.closers ++ [']'])⟩ := by
    intro before n hn
    exact Text.Nest.standing_after (Text.Nest.after_frame hn [']'])
  constructor
  · rw [Shuts, hopen h]
    exact ⟨rfl, rfl⟩
  · rintro before rest rfl ⟨hquote, htop⟩
    obtain ⟨⟨quote, l⟩, hn, hrest⟩ := Text.Nest.exists_after_of_append (show Text.Nest.after {} _ = some {} from h)
    rw [hopen hn] at hquote htop
    obtain rfl : quote = none := hquote
    -- the bracket closes one of the text, so that the first one is still open
    rw [Text.Nest.after_cons] at hrest
    obtain ⟨n₁, h₁, -⟩ := Option.bind_eq_some_iff.mp hrest
    rcases Text.Nest.step_plain (by decide) h₁ with ⟨e, he, -⟩ | ⟨l', -, -, rfl, -⟩ | ⟨-, hc, -⟩
    · cases he
    · rw [Text.Depth.isTop_iff] at htop
      have hsquare := congrArg Text.Depth.square htop
      simp [Text.Nest.depth, Text.Depth.track] at hsquare
    · cases hc

/-- What stands in the brackets of a target: nothing, an expression, or one with a comma behind it. -/
inductive Target.Stands : List Char → Target.Index → Prop
  | append {index : List Char} (blank : ∀ x ∈ index, isBlank x = true) : Stands index .append
  | item {pre cs post : List Char} (hpre : ∀ x ∈ pre, isBlank x = true) (hpost : ∀ x ∈ post, isBlank x = true)
      (closed : Closed cs) (text : ∃ x ∈ cs, Token.isSpace x = false)
      (last : ∀ x ∈ cs.getLast?, Token.isSpace x = false ∧ x ≠ ',') :
      Stands (pre ++ (cs ++ post)) (.value cs)
  | items {pre cs post : List Char} (hpre : ∀ x ∈ pre, isBlank x = true) (hpost : ∀ x ∈ post, isBlank x = true)
      (closed : Closed cs) :
      Stands (pre ++ (cs ++ (',' :: post))) (if (Text.delimiterPos? cs ',').isSome then .value cs else .single cs)

/-- A closed index without line breaks is read as what stands in the brackets. -/
theorem Target.stands_read {index : List Char} (hclosed : Closed index) (hline : Text.Unbroken index) :
    Stands index (Index.read index) := by
  obtain ⟨pre, post, hindex, hpre, hpost, hfirst, hlast⟩ := Text.exists_blanks index
  have hpre' : ∀ x ∈ pre, isNeutral x = true := fun x hx => Text.isNeutral_of_isBlank (hpre x hx)
  have hpost' : ∀ x ∈ post, isNeutral x = true := fun x hx => Text.isNeutral_of_isBlank (hpost x hx)
  have hcore : Closed (Text.trim index) := Closed.of_append (hindex ▸ hclosed) hpre' hpost'
  unfold Index.read
  generalize Text.trim index = core at hindex hfirst hlast hcore
  dsimp only
  rcases List.eq_nil_or_concat core with rfl | ⟨init, x, rfl⟩
  · rw [hindex]
    refine .append fun x hx => ?_
    rcases List.mem_append.mp hx with hx | hx
    · exact hpre x hx
    · exact hpost x hx
  · rw [List.concat_eq_append] at *
    rw [if_neg (by simp), List.getLast?_append, List.dropLast_concat]
    -- the first and the last character are no white space
    have hinit : isNeutral x = true → Closed init := fun hx =>
      Closed.of_append (show Closed ([] ++ (init ++ [x])) from hcore) nofun (by simpa using hx)
    have hx : Token.isSpace x = false := by
      cases hspace : Token.isSpace x with
      | false => rfl
      | true =>
        have hbefore : Closed (pre ++ init) := by
          have happend : Closed ([] ++ ((pre ++ init) ++ x :: post)) := by simpa [hindex] using hclosed
          refine happend.of_append nofun ?_
          exact List.forall_mem_cons.mpr ⟨Text.isNeutral_of_isSpace hspace, hpost'⟩
        have hplace : index = (pre ++ init) ++ x :: post := by simp [hindex]
        rw [← hspace]
        exact hline.not_isSpace hplace hbefore (hlast x (by simp))
    by_cases hcomma : x = ','
    · subst hcomma
      rw [if_pos (by rfl), hindex]
      have hsplit : pre ++ (init ++ [','] ++ post) = pre ++ (init ++ (',' :: post)) := by simp
      rw [hsplit]
      exact .items hpre hpost (hinit rfl)
    · rw [if_neg (by simpa using hcomma), hindex]
      refine .item hpre hpost hcore ⟨x, by simp, hx⟩ fun y hy => ?_
      obtain rfl : x = y := by simpa using hy
      exact ⟨hx, hcomma⟩

/-- A name of a variable in one word is read as one token. -/
theorem VarName.spelled_of_read {name : List Char} {n : VarName} (h : read name = .ok n)
    (hword : ∀ x ∈ name, Token.isNameChar x = true) :
    ∃ c tail, name = c :: tail ∧ Token.Spelled c tail (.name (String.ofList name)) := by
  have hline : ∀ x ∈ name, x ≠ '\r' ∧ x ≠ '\n' := by
    intro x hx
    have hletter := hword x hx
    refine ⟨?_, ?_⟩
    · rintro rfl
      cases hletter
    · rintro rfl
      cases hletter
  have hspelled := (isWord_of_read hline h).spelled
  rwa [Token.trim_eq_of_letters hword] at hspelled

/-! ## The item an assignment writes to -/

namespace Machine

open Compiler (itemText)

/-- The variable and the index of a target; no index is that of a new item. -/
def targetIndex (c : Calls) (target : List Char) : Run (VarName × Option Value) := do
  let (name, index) ← Run.ofExcept (Target.read target)
  return (name, ← indexValue c index)

/-- Write to an item of a variable: the one at an index, or a new one. -/
def writeItem (op : AssignOp) (v : Value) : VarName × Option Value → Run Unit
  | (name, some index) => Run.onVars (·.assignIndex name index op v)
  | (name, none) => Run.onVars fun vars => vars.assign name (some (vars.size name.key)) op v

/-- An assignment writes to the item of its target. -/
theorem assignTarget_eq (c : Calls) (target : List Char) (op : AssignOp) (v : Value) :
    assignTarget c target op v = targetIndex c target >>= writeItem op v := by
  unfold assignTarget targetIndex
  rw [bind_assoc]
  refine bind_congr fun t => ?_
  rw [bind_assoc]
  refine bind_congr fun index => ?_
  rw [pure_bind]
  cases index with
  | some index => rfl
  | none => rfl

/-- How an expression goes by how a target is resolved: it reads the item that would be written, or the last
item where one would be appended. -/
inductive ReadsBack : Outcome (VarName × Option Value) → Outcome Value → Prop
  | item (n : VarName) (index : Value) {m m' : Machine} (h : m.Recached m') :
      ReadsBack (.done (n, some index) m) (.done (m.vars.get n index) m')
  | last (n : VarName) {m m' : Machine} (h : m.Recached m') :
      ReadsBack (.done (n, none) m) (.done (m.vars.getLast n) m')
  | failed (e e' : Error) (m m' : Machine) : ReadsBack (.failed e m) (.failed e' m')
  | outOfFuel : ReadsBack .outOfFuel .outOfFuel

variable {name index : List Char} {n : VarName}

theorem readsBack_of_follows {s : String} {single : Bool} (hname : VarName.read s.toList = .ok n) {x : Run Value}
    {m : Machine} {y : Outcome Value} (h : Follows (fun v => readItem s (asIndex single v)) (x m) y) :
    ReadsBack ((x >>= fun v => pure (n, some (asIndex single v))) m) y := by
  show ReadsBack (Run.andThen x _ m) y
  unfold Run.andThen
  generalize x m = r at h
  cases h with
  | @done v m₁ m₂ h =>
    have hitem : readItem s (asIndex single v) m₂ = .done (m₁.vars.get n (asIndex single v)) m₂ := by
      obtain ⟨cache, rfl⟩ := h
      unfold readItem Run.name
      rw [hname]
      rfl
    rw [hitem]
    exact .item n (asIndex single v) h
  | failed e e' m₁ m₂ => exact .failed e e' m₁ m₂
  | outOfFuel => exact .outOfFuel

/-- The index of a target is the value of its text, or a tuple with this item alone. -/
theorem indexValue_value (c : Calls) (source : List Char) :
    (indexValue c (some (.value source)) >>= fun i => pure (n, i))
      = (c.eval source >>= fun v => pure (n, some (asIndex false v))) := by
  rw [indexValue, bind_assoc]
  rfl

theorem indexValue_single (c : Calls) (source : List Char) :
    (indexValue c (some (.single source)) >>= fun i => pure (n, i))
      = (c.eval source >>= fun v => pure (n, some (asIndex true v))) := by
  rw [indexValue, bind_assoc]
  rfl

/-- The instructions of an item with nothing but blanks in its brackets. -/
theorem compile_last {c : Char} {tail : List Char} {s : String} (hs : Token.Spelled c tail (.name s))
    (hat : s.toList.head? ≠ some '@') (hfun : Function.find? s = none) (hblank : ∀ x ∈ index, isBlank x = true) :
    compile (itemText (c :: tail) (index ++ [']'])) = .ok #[{ op := .lastVar, literal := some (.text s) }] := by
  obtain ⟨sp, sp', htokens⟩ := Compiler.tokenize_item hs hblank [']']
  obtain ⟨sp'', hclose⟩ := Compiler.tokenizeFrom_blanks_symbol
    (show ∀ x ∈ ([] : List Char), isBlank x = true from nofun) (show Token.Spelled ']' [] .closeSquare from .symbol rfl)
    (Text.byteSize (c :: tail) + 1 + Text.byteSize index)
  rw [compile, htokens, show [']'] = [] ++ [']'] from rfl, hclose]
  exact Compiler.run_item_last hat hfun

/-- With nothing but blanks in the brackets the last item is read. -/
theorem eval_last {ch : Char} {tail : List Char} {s : String} (hs : Token.Spelled ch tail (.name s))
    (hname : VarName.read s.toList = .ok n) (hat : s.toList.head? ≠ some '@') (hfun : Function.find? s = none)
    (hblank : ∀ x ∈ index, isBlank x = true) (c : Calls) (m : Machine) :
    ∃ m', m.Recached m' ∧
      evalSource c (itemText (ch :: tail) (index ++ [']'])) m = .done (m.vars.getLast n) m' := by
  obtain ⟨m', hm', heval⟩ := evalSource_ok (c := c) (compile_last hs hat hfun hblank) m
  have hrun : Run.name s.toList = pure n := by
    unfold Run.name
    rw [hname]
    rfl
  have hlast : evaluate c #[{ op := .lastVar, literal := some (.text s) }] m' = .done (m.vars.getLast n) m' := by
    obtain ⟨cache, rfl⟩ := hm'
    show ((do
      let n ← Run.name s.toList
      let v ← Run.read (·.vars.getLast n)
      pure ([v], none)) >>= _) _ = _
    rw [hrun]
    rfl
  exact ⟨m', hm', heval.trans hlast⟩

/-- An index that ends with neither plus signs behind a comma nor a comma leaves no tuple waiting. -/
theorem not_dangles {pre cs post : List Char} {ts : List (Token × Span)} (hts : Token.Lexes 0 cs ts)
    (hclosed : Closed cs) (hpre : ∀ x ∈ pre, isBlank x = true) (hpost : ∀ x ∈ post, isBlank x = true)
    (hlast : ∀ x ∈ cs.getLast?, Token.isSpace x = false ∧ x ≠ ',')
    (hplus : ∀ tokens, Token.tokenize (pre ++ (cs ++ post)) = .ok tokens →
      Token.trailsPlus (tokens.map (·.1)) = false) : Token.dangles (ts.map (·.1)) = false := by
  obtain ⟨tokens, htokens, hmap⟩ := Token.tokenize_blanks hts hclosed hpre hpost
  rw [Bool.eq_false_iff]
  intro hd
  rcases Token.dangles_cases hd with htrails | hcomma
  · rw [← hmap, hplus tokens htokens] at htrails
    cases htrails
  · have hend := hts.getLast?_of_comma hcomma fun x hx => (hlast x hx).1
    exact (hlast ',' hend).2 rfl

/-- **Reading finds the item that writing writes to**: for every index whose brackets and literals are closed
and that has no line break outside of them, the target `name[index]` and the expression `name[index]` fail
together, or the expression gives the item at the index of the target, or the last item if the target has
none. This is so unless plus signs stand behind a comma at the end of the index. -/
theorem targetIndex_readsBack (hname : VarName.read name = .ok n) (hword : ∀ x ∈ name, Token.isNameChar x = true)
    (hfun : Function.find? (String.ofList name) = none) (hat : name.head? ≠ some '@') (hclosed : Closed index)
    (hline : Text.Unbroken index)
    (hplus : ∀ tokens, Token.tokenize index = .ok tokens → Token.trailsPlus (tokens.map (·.1)) = false)
    (hlimit : ∀ e, compile (itemText name (index ++ [']'])) = .error e → e.isLimit = false) (fuel : Nat)
    (m : Machine) :
    ReadsBack (targetIndex (Calls.ofFuel (fuel + 1)) (itemText name (index ++ [']'])) m)
      ((Calls.ofFuel (fuel + 1)).eval (itemText name (index ++ [']'])) m) := by
  have hread : Target.read (itemText name (index ++ [']'])) = .ok (n, some (Target.Index.read index)) := by
    rw [itemText, Target.read_item (VarName.not_mem_of_read hname) (Target.inner_of_closed hclosed), hname]
    rfl
  have htarget : targetIndex (Calls.ofFuel (fuel + 1)) (itemText name (index ++ [']']))
      = indexValue (Calls.ofFuel (fuel + 1)) (some (Target.Index.read index)) >>= fun i => pure (n, i) := by
    rw [targetIndex, hread]
    rfl
  obtain ⟨c, tail, hcons, hs⟩ := VarName.spelled_of_read hname hword
  have hat' : (String.ofList name).toList.head? ≠ some '@' := by rwa [String.toList_ofList]
  have hname' : VarName.read (String.ofList name).toList = .ok n := by rwa [String.toList_ofList]
  have hcalls := Calls.ofFuel_alike recached fuel
  show ReadsBack _ (evalSource (Calls.ofFuel fuel) _ m)
  rw [htarget]
  generalize hindex : Target.Index.read index = i
  have hstands := Target.stands_read hclosed hline
  rw [hindex] at hstands
  -- what stands in the brackets decides how the target reads its index
  cases hstands with
  | append hblank =>
    obtain ⟨m', hm', heval⟩ := eval_last hs hname' hat' hfun hblank (Calls.ofFuel fuel) m
    rw [← hcons] at heval
    rw [heval]
    exact .last n hm'
  | @item pre cs post hpre hpost hcs htext hlast =>
    have htracks := Compiler.compile_item hs hat' hfun hpre hpost hcs htext fun ts hts =>
      not_dangles hts hcs hpre hpost hlast hplus
    rw [← hcons, show pre ++ (cs ++ (post ++ [']'])) = pre ++ (cs ++ post) ++ [']'] by simp] at htracks
    rw [indexValue_value]
    exact readsBack_of_follows hname' (evalSource_reads htracks hlimit hcalls m)
  | @items pre cs post hpre hpost hcs =>
    have htracks := Compiler.compile_items hs hat' hfun hpre hpost hcs
    rw [← hcons, show pre ++ (cs ++ (',' :: (post ++ [']']))) = pre ++ (cs ++ (',' :: post)) ++ [']'] by simp]
      at htracks
    have hback := readsBack_of_follows hname' (evalSource_reads htracks hlimit hcalls m)
    cases hcomma : (Text.delimiterPos? cs ',').isSome with
    | true =>
      rw [hcomma] at hback
      rw [if_pos rfl, indexValue_value]
      exact hback
    | false =>
      rw [hcomma] at hback
      rw [if_neg Bool.false_ne_true, indexValue_single]
      exact hback

/-- A nested tuple, a second item and a comma behind them. -/
theorem targetIndex_readsBack_sample :
    let m := ((Engine.new {} {}).run "T[[1, 2], 'a'] = 7").2.machine
    let i : Value := .tuple [.tuple [.number 1, .number 2], .text "a"]
    ∃ m₁ m₂, targetIndex (Calls.ofFuel 2) "T[ [1, 2], 'a', ]".toList m = .done (⟨"T", .number⟩, some i) m₁ ∧
      (Calls.ofFuel 2).eval "T[ [1, 2], 'a', ]".toList m = .done (m₁.vars.get ⟨"T", .number⟩ i) m₂ ∧
      m₁.Recached m₂ ∧ m₁.vars.get ⟨"T", .number⟩ i = .number 7 := by
  intro m i
  have hline : Text.Unbroken " [1, 2], 'a', ".toList := by
    intro before x after hcs hx
    have hmem : x ∈ " [1, 2], 'a', ".toList := by simp [hcs]
    rcases hx with rfl | rfl
    all_goals exact absurd hmem (by decide)
  have hplus : ∀ tokens, Token.tokenize " [1, 2], 'a', ".toList = .ok tokens →
      Token.trailsPlus (tokens.map (·.1)) = false := by
    intro tokens h
    have hall : (Token.tokenize " [1, 2], 'a', ".toList).toOption.map (Token.trailsPlus <| ·.map (·.1)) = some false := by
      decide +kernel
    rw [h] at hall
    exact Option.some.inj hall
  have hcompile : (compile "T[ [1, 2], 'a', ]".toList).toOption.isSome = true := by decide +kernel
  have hlimit : ∀ e, compile "T[ [1, 2], 'a', ]".toList = .error e → e.isLimit = false := by
    intro e he
    rw [he] at hcompile
    cases hcompile
  have hback := targetIndex_readsBack (show VarName.read ['T'] = .ok ⟨"T", .number⟩ from rfl)
    (List.forall_mem_singleton.mpr rfl) (by decide +kernel) (by decide) (by decide) hline hplus hlimit 1 m
  have htarget : (targetIndex (Calls.ofFuel 2) "T[ [1, 2], 'a', ]".toList m).result?
      = some (⟨"T", .number⟩, some i) := by decide +kernel
  have heval : ((Calls.ofFuel 2).eval "T[ [1, 2], 'a', ]".toList m).result? = some (.number 7) := by decide +kernel
  obtain ⟨m₁, hm₁⟩ := Outcome.exists_of_result? htarget
  obtain ⟨m₂, hm₂⟩ := Outcome.exists_of_result? heval
  have hback' : ReadsBack (.done (⟨"T", .number⟩, some i) m₁) (.done (.number 7) m₂) := hm₁ ▸ hm₂ ▸ hback
  generalize hv : Value.number 7 = v at hback' hm₂ ⊢
  cases hback' with
  | item n index h => exact ⟨m₁, m₂, hm₁, hm₂, h, rfl⟩

/-- Behind a comma at the end of an index a plus sign is an error for a target, but not for an expression. -/
theorem targetIndex_trailing_plus :
    let m := Machine.new {} {}
    VarName.read "X".toList = .ok ⟨"X", .number⟩ ∧ Function.find? "X" = none ∧ Closed "1,+".toList ∧
      (∃ e m', targetIndex (Calls.ofFuel 2) "X[1,+]".toList m = .failed e m') ∧
      ∃ m', (Calls.ofFuel 2).eval "X[1,+]".toList m = .done (.number 0) m' := by
  intro m
  have herror : (targetIndex (Calls.ofFuel 2) "X[1,+]".toList m).error? = some ⟨.badSyntax, none⟩ := by
    decide +kernel
  have hvalue : ((Calls.ofFuel 2).eval "X[1,+]".toList m).result? = some (.number 0) := by decide +kernel
  exact ⟨rfl, by decide +kernel, by decide, ⟨_, Outcome.exists_of_error? herror⟩, Outcome.exists_of_result? hvalue⟩

end Machine

end QuestScript
