import Mathlib.Data.List.Infix
import Mathlib.Data.List.Induction
import QuestScript.Proofs.Line.Statement
import QuestScript.Proofs.Text.Words

/-!
# Searching byte by byte

Positions in a line are byte offsets, and the searches behind the scan look at one byte after the other.
Here they are in this form: a search has no answer when it looks at a byte that is not there, or when the
turns it is given run out.

All that a search looks for is one byte long, and no byte of a longer character is mistaken for it. So each
search has an answer, the one of the search over characters, and does not stop inside of a character:
`skipBlanks_utf8`, `literalEnd_utf8`, `delimiterPos_utf8`, `wordPos_utf8`, `trimEnd_utf8` and `kind_utf8`.
-/

namespace QuestScript

open Text (byteSize isBlank isQuote isDelimiter Depth)

/-- The bytes of a text in UTF-8. -/
def Text.utf8 (cs : List Char) : List UInt8 := cs.flatMap String.utf8EncodeChar

open Text (utf8)

namespace Bytes

/-! ## The searches -/

/-- The character that a byte is by itself; a byte of a longer character is none. -/
def ascii? (b : UInt8) : Option Char := if b.toNat < 128 then some (Char.ofNat b.toNat) else none

/-- Whether a byte is a character by itself that satisfies a condition. -/
def satisfies (p : Char → Bool) (b : UInt8) : Bool := (ascii? b).any p

/-- The depth after a byte. -/
def track (d : Depth) (b : UInt8) : Depth := (ascii? b).elim d d.track

def skipBlanksFrom (bytes : List UInt8) : Nat → Nat → Option Nat
  | 0, _ => none
  | turns + 1, pos =>
    if pos < bytes.length then do
      let b ← bytes[pos]?
      if satisfies isBlank b then skipBlanksFrom bytes turns (pos + 1) else return pos
    else return pos

/-- The first byte at or after `start` that is no blank. -/
def skipBlanks (bytes : List UInt8) (start : Nat) : Option Nat :=
  skipBlanksFrom bytes (bytes.length + 1) (min start bytes.length)

/-- Where the blanks before byte `stop` start, but not before byte `start`. -/
def trimEnd (bytes : List UInt8) (start : Nat) : Nat → Option Nat
  | 0 => some 0
  | stop + 1 =>
    if start < stop + 1 then do
      let b ← bytes[stop]?
      if satisfies isBlank b then trimEnd bytes start stop else return stop + 1
    else return stop + 1

def literalEndFrom (bytes : List UInt8) (quote : UInt8) : Nat → Nat → Option (Option Nat)
  | 0, _ => none
  | turns + 1, pos =>
    if pos < bytes.length then do
      let b ← bytes[pos]?
      if b = quote then
        if bytes[pos + 1]? = some quote then literalEndFrom bytes quote turns (pos + 2)
        else return some (pos + 1)
      else literalEndFrom bytes quote turns (pos + 1)
    else return none

/-- The byte behind the literal whose quote is byte `start`; the inner `none` stands for a literal that is
never closed. -/
def literalEnd (bytes : List UInt8) (start : Nat) : Option (Option Nat) := do
  let quote ← bytes[start]?
  literalEndFrom bytes quote (bytes.length + 1) (start + 1)

def delimiterFrom (bytes : List UInt8) (ch : Char) : Nat → Depth → Nat → Option (Option Nat)
  | 0, _, _ => none
  | turns + 1, depth, pos =>
    if pos < bytes.length then do
      let b ← bytes[pos]?
      if satisfies isQuote b then
        match ← literalEnd bytes pos with
        | none => return none
        | some next => delimiterFrom bytes ch turns depth next
      else
        let depth := track depth b
        if depth.isTop && satisfies (· == ch) b then return some pos
        else delimiterFrom bytes ch turns depth (pos + 1)
    else return none

/-- The first `ch` outside literals and brackets. -/
def delimiterPos (bytes : List UInt8) (ch : Char) : Option (Option Nat) :=
  delimiterFrom bytes ch (bytes.length + 1) {} 0

/-- Whether the bytes end at `pos` or have a delimiter there. -/
def endsAt (bytes : List UInt8) (pos : Nat) : Option Bool :=
  if bytes.length ≤ pos then some true else bytes[pos]?.map (satisfies isDelimiter)

/-- Whether the bytes from `pos` on are a pattern up to their end or a delimiter. -/
def isolatedAt (bytes pattern : List UInt8) (pos : Nat) : Option Bool := do
  let ends ← endsAt bytes (pos + pattern.length)
  if ends then
    if pos ≤ bytes.length then some (pattern.isPrefixOf (bytes.drop pos)) else none
  else some false

def wordFrom (bytes pattern : List UInt8) : Nat → Depth → Bool → Nat → Option (Option Nat)
  | 0, _, _, _ => none
  | turns + 1, depth, fresh, pos =>
    let last := bytes.length - pattern.length
    if pos ≤ last then do
      let b ← bytes[pos]?
      if satisfies isQuote b then
        match ← literalEnd bytes pos with
        | none => return none
        | some next => if last < next then return none else wordFrom bytes pattern turns depth true next
      else
        let depth := track depth b
        if !depth.isTop then wordFrom bytes pattern turns depth fresh (pos + 1)
        else if satisfies isDelimiter b then wordFrom bytes pattern turns depth true (pos + 1)
        else if fresh then
          if ← isolatedAt bytes pattern pos then return some pos
          else wordFrom bytes pattern turns depth false (pos + 1)
        else wordFrom bytes pattern turns depth false (pos + 1)
    else return none

/-- The first isolated `word` outside literals and brackets. -/
def wordPos (text word : List Char) : Option (Option Nat) :=
  if word.isEmpty then some (some 0)
  else if byteSize text < byteSize word ∨ ¬ word <:+: text then some none
  else wordFrom (utf8 text) (utf8 word) (byteSize text + 1) {} true 0

/-- Whether a text starts with a keyword that ends there. -/
def startsWith (bytes : List UInt8) (keyword : String) : Option Bool :=
  let word := utf8 keyword.toList
  if word = bytes.take word.length then
    if bytes.length = word.length then some true else bytes[word.length]?.map (satisfies isDelimiter)
  else some false

/-- The first keyword of a list that starts the text. -/
def findKeyword (bytes : List UInt8) : List (String × StatementKind) → Option (StatementKind × Option Nat)
  | [] => some (.unknown, none)
  | (keyword, kind) :: keywords => do
    if ← startsWith bytes keyword then return (kind, some (utf8 keyword.toList).length)
    else findKeyword bytes keywords

/-- The kind of the statement at the start of a text and the length of its keyword. -/
def kind (bytes : List UInt8) : Option (StatementKind × Option Nat) :=
  match bytes with
  | [] => some (.unknown, none)
  | b :: _ =>
    if satisfies (· == ':') b then some (.label, none)
    else if satisfies (· == '!') b then some (.comment, none)
    else findKeyword bytes StatementKind.keywords

/-! ## The bytes of a character -/

/-- The byte `b` is the first one of the character `c`. -/
def Starts (b : UInt8) (c : Char) : Prop := ascii? b = if c.utf8Size = 1 then some c else none

/-- The bytes of a longer character are none by themselves. -/
theorem ascii?_ofNat_of_le {n : Nat} (h : 128 ≤ n) (hlt : n < 256) : ascii? (UInt8.ofNat n) = none := by
  have htoNat : (UInt8.ofNat n).toNat = n := by simpa using hlt
  rw [ascii?, htoNat, if_neg (by omega)]

/-- A character of one byte is that byte. -/
theorem ascii?_of_utf8Size_eq_one {c : Char} (h : c.utf8Size = 1) : ascii? c.val.toUInt8 = some c := by
  have hle : c.val.toNat ≤ 127 := UInt32.le_iff_toNat_le.mp (Char.utf8Size_eq_one_iff.mp h)
  have htoNat : c.val.toUInt8.toNat = c.toNat := by
    rw [UInt32.toNat_toUInt8]
    exact Nat.mod_eq_of_lt (by omega)
  rw [ascii?, htoNat, Char.ofNat_toNat]
  exact if_pos (Nat.lt_succ_of_le hle)

/-- No byte of a character of more than one byte is a character. -/
theorem ascii?_of_mem {c : Char} (h : c.utf8Size ≠ 1) {b : UInt8} (hb : b ∈ String.utf8EncodeChar c) :
    ascii? b = none := by
  have hlong : ¬ c.val.toNat ≤ 127 := fun hle =>
    h (Char.utf8Size_eq_one_iff.mpr (UInt32.le_iff_toNat_le.mpr hle))
  unfold String.utf8EncodeChar at hb
  dsimp only at hb
  rw [if_neg hlong] at hb
  split at hb
  · simp only [List.mem_cons, List.not_mem_nil, or_false] at hb
    rcases hb with rfl | rfl <;> exact ascii?_ofNat_of_le (by omega) (by omega)
  · split at hb
    · simp only [List.mem_cons, List.not_mem_nil, or_false] at hb
      rcases hb with rfl | rfl | rfl <;> exact ascii?_ofNat_of_le (by omega) (by omega)
    · simp only [List.mem_cons, List.not_mem_nil, or_false] at hb
      rcases hb with rfl | rfl | rfl | rfl <;> exact ascii?_ofNat_of_le (by omega) (by omega)

/-- The bytes of a character: a first one, and others that are no characters. -/
theorem exists_encode (c : Char) :
    ∃ b bs, String.utf8EncodeChar c = b :: bs ∧ Starts b c ∧ bs.length + 1 = c.utf8Size ∧
      ∀ b ∈ bs, ascii? b = none := by
  by_cases hone : c.utf8Size = 1
  · refine ⟨c.val.toUInt8, [], String.utf8EncodeChar_eq_singleton hone, ?_, hone.symm, by simp⟩
    rw [Starts, if_pos hone]
    exact ascii?_of_utf8Size_eq_one hone
  · obtain ⟨b, bs, hbytes⟩ := List.exists_cons_of_ne_nil (String.utf8EncodeChar_ne_nil (c := c))
    have hnone := fun b => ascii?_of_mem (b := b) hone
    rw [hbytes] at hnone
    refine ⟨b, bs, hbytes, ?_, ?_, fun b hb => hnone b (List.mem_cons_of_mem _ hb)⟩
    · rw [Starts, if_neg hone]
      exact hnone b List.mem_cons_self
    · rw [← String.length_utf8EncodeChar, hbytes, List.length_cons]

/-! ## The bytes of a text -/

@[simp] theorem utf8_nil : utf8 [] = [] := rfl

@[simp] theorem utf8_append (as bs : List Char) : utf8 (as ++ bs) = utf8 as ++ utf8 bs := List.flatMap_append

/-- The bytes of the first character come first. -/
theorem utf8_cons (c : Char) (cs : List Char) : utf8 (c :: cs) = String.utf8EncodeChar c ++ utf8 cs :=
  List.flatMap_cons

/-- A text has as many bytes as its size says. -/
@[simp] theorem length_utf8 (cs : List Char) : (utf8 cs).length = byteSize cs := by
  induction cs with
  | nil => rfl
  | cons c cs ih => rw [utf8_cons, List.length_append, String.length_utf8EncodeChar, ih, Text.byteSize_cons]

theorem byteSize_concat (cs : List Char) (c : Char) : byteSize (cs ++ [c]) = byteSize cs + c.utf8Size := by
  rw [Text.byteSize_append]
  rfl

/-- Behind some text the bytes are those of the rest. -/
theorem getElem?_utf8_add (before cs : List Char) (n : Nat) :
    (utf8 (before ++ cs))[byteSize before + n]? = (utf8 cs)[n]? := by
  rw [utf8_append, List.getElem?_append_right (by simp), length_utf8, Nat.add_sub_cancel_left]

/-- The byte where a character stands. -/
theorem exists_first_byte (before : List Char) (c : Char) (cs : List Char) :
    ∃ b, (utf8 (before ++ c :: cs))[byteSize before]? = some b ∧ Starts b c := by
  obtain ⟨b, bs, hbytes, hstarts, -, -⟩ := exists_encode c
  refine ⟨b, ?_, hstarts⟩
  rw [← Nat.add_zero (byteSize before), getElem?_utf8_add, utf8_cons, hbytes]
  rfl

/-- A byte inside of a character. -/
theorem exists_inner_byte (before : List Char) {c : Char} (cs : List Char) {k : Nat} (hpos : 0 < k)
    (hk : k < c.utf8Size) :
    ∃ b, (utf8 (before ++ c :: cs))[byteSize before + k]? = some b ∧ ascii? b = none := by
  obtain ⟨b, bs, hbytes, -, hlength, hnone⟩ := exists_encode c
  obtain ⟨k, rfl⟩ := Nat.exists_eq_succ_of_ne_zero hpos.ne'
  have hlt : k < bs.length := by omega
  refine ⟨bs[k], ?_, hnone _ (List.getElem_mem hlt)⟩
  rw [getElem?_utf8_add, utf8_cons, hbytes, List.cons_append, List.getElem?_cons_succ,
    List.getElem?_append_left hlt, List.getElem?_eq_getElem hlt]

/-- `p` holds only of characters of one byte. -/
def OneByte (p : Char → Bool) : Prop := ∀ c, p c = true → c.utf8Size = 1

/-- A condition that only some characters of one byte satisfy. -/
theorem oneByte_of_subset {p : Char → Bool} (cs : List Char) (h : cs.all (·.utf8Size == 1) = true)
    (hp : ∀ c, p c = true → c ∈ cs) : OneByte p := by
  intro c hc
  simpa using List.all_eq_true.mp h c (hp c hc)

theorem oneByte_isDelimiter : OneByte isDelimiter :=
  oneByte_of_subset Text.delimiters (by decide) fun c hc => by simpa [isDelimiter] using hc

theorem oneByte_isBlank : OneByte isBlank := fun c hc =>
  oneByte_isDelimiter c (Text.isDelimiter_of_isBlank hc)

theorem oneByte_isQuote : OneByte isQuote := fun c hc =>
  oneByte_isDelimiter c (Text.isDelimiter_of_isQuote hc)

theorem oneByte_beq {ch : Char} (h : ch.utf8Size = 1) : OneByte (· == ch) := by
  intro c hc
  rwa [beq_iff_eq.mp hc]

section Starts

variable {b : UInt8} {c : Char}

/-- For such a condition the first byte tells as much as the character. -/
theorem satisfies_of_starts {p : Char → Bool} (hp : OneByte p) (h : Starts b c) : satisfies p b = p c := by
  unfold satisfies
  rw [h]
  split
  · rfl
  · next hlong =>
    cases hc : p c with
    | false => rfl
    | true => exact absurd (hp c hc) hlong

theorem satisfies_of_none (p : Char → Bool) (h : ascii? b = none) : satisfies p b = false := by
  rw [satisfies, h]
  rfl

/-- Only brackets are counted, which are delimiters. -/
theorem track_of_starts (d : Depth) (h : Starts b c) : track d b = d.track c := by
  unfold track
  rw [h]
  split
  · rfl
  · next hlong =>
    rw [Option.elim_none, Text.Depth.track_of_not_isDelimiter]
    cases hc : isDelimiter c with
    | false => rfl
    | true => exact absurd (oneByte_isDelimiter c hc) hlong

theorem track_of_none (d : Depth) (h : ascii? b = none) : track d b = d := by
  rw [track, h]
  rfl

theorem toNat_of_ascii? (h : ascii? b = some c) : b.toNat = c.toNat := by
  unfold ascii? at h
  split at h
  · next hlt =>
    cases h
    rw [Char.ofNat, dif_pos (.inl (by omega))]
    rfl
  · cases h

/-- Bytes that are characters differ when the characters do. -/
theorem eq_iff_of_ascii? {b' : UInt8} (h : ascii? b' = some c) : b = b' ↔ ascii? b = some c := by
  constructor
  · rintro rfl
    exact h
  · intro hb
    exact UInt8.toNat_inj.mp ((toNat_of_ascii? hb).trans (toNat_of_ascii? h).symm)

/-- The first byte of a character is a character of one byte if it is that character. -/
theorem Starts.eq_iff {b' : UInt8} {c' : Char} (h : Starts b c) (h' : ascii? b' = some c')
    (hone : c'.utf8Size = 1) : b = b' ↔ c = c' := by
  rw [eq_iff_of_ascii? h', h]
  split
  · exact Option.some_inj
  · next hlong =>
    refine ⟨fun h => (by cases h), ?_⟩
    rintro rfl
    exact absurd hone hlong

end Starts

/-- A byte satisfies what the character does that it is. -/
theorem any_getElem?_utf8 {p : Char → Bool} (hp : OneByte p) (cs : List Char) (n : Nat) :
    (utf8 cs)[n]?.any (satisfies p) = (Text.charAt? cs n).any p := by
  induction cs generalizing n with
  | nil => cases n <;> rfl
  | cons c cs ih =>
    obtain ⟨b, hb, hstarts⟩ := exists_first_byte [] c cs
    cases n with
    | zero =>
      rw [List.nil_append, Text.byteSize_nil] at hb
      rw [hb, Option.any_some, satisfies_of_starts hp hstarts]
      rfl
    | succ n =>
      rw [Text.charAt?, Text.splitBytes]
      split
      · next hle =>
        obtain ⟨k, hk⟩ := Nat.exists_eq_add_of_le hle
        have hbyte := getElem?_utf8_add [c] cs k
        rw [List.singleton_append, Text.byteSize_cons, Text.byteSize_nil, Nat.add_zero, ← hk] at hbyte
        rw [hbyte, ih, hk, Nat.add_sub_cancel_left, Text.charAt?, Option.bind_map]
        rfl
      · next hlt =>
        obtain ⟨b, hb, hnone⟩ := exists_inner_byte [] cs (Nat.succ_pos n) (Nat.lt_of_not_le hlt)
        rw [List.nil_append, Text.byteSize_nil, Nat.zero_add] at hb
        rw [hb, Option.any_some, satisfies_of_none p hnone]
        rfl

/-- A search that steps over the bytes inside of a character goes on behind it. -/
theorem search_inner {α : Type} (search : Nat → Nat → α) {before cs : List Char} {c : Char} {turns : Nat}
    (hturns : byteSize (c :: cs) ≤ turns)
    (hstep : ∀ turns pos b, 0 < turns → (utf8 (before ++ c :: cs))[pos]? = some b → ascii? b = none →
      search (turns + 1) pos = search turns (pos + 1)) :
    ∃ left, byteSize cs ≤ left ∧
      search turns (byteSize before + 1) = search (left + 1) (byteSize before + c.utf8Size) := by
  rw [Text.byteSize_cons] at hturns
  have hinner (k : Nat) (hk : k + 1 ≤ c.utf8Size) :
      search turns (byteSize before + 1) = search (turns - k) (byteSize before + (k + 1)) := by
    induction k with
    | zero => rfl
    | succ k ih =>
      obtain ⟨b, hb, hnone⟩ := exists_inner_byte before cs (Nat.succ_pos k) (by omega : k + 1 < c.utf8Size)
      have hnext := hstep (turns - (k + 1)) (byteSize before + (k + 1)) b (by omega) hb hnone
      have hleft : turns - (k + 1) + 1 = turns - k := by omega
      rw [ih (by omega), ← hleft, hnext, Nat.add_assoc]
  have hpos := Char.utf8Size_pos c
  refine ⟨turns - c.utf8Size, by omega, ?_⟩
  rw [hinner (c.utf8Size - 1) (by omega)]
  congr 1 <;> omega

/-! ## Blanks -/

/-- By induction on the text, which has to be reached in as many turns as it has bytes. -/
theorem skipBlanksFrom_utf8 {turns : Nat} (before cs : List Char) (h : byteSize cs ≤ turns) :
    skipBlanksFrom (utf8 (before ++ cs)) (turns + 1) (byteSize before)
      = some (byteSize before + Text.leadingBlanks cs) := by
  induction cs generalizing before turns with
  | nil =>
    rw [skipBlanksFrom, if_neg (by simp)]
    rfl
  | cons c cs ih =>
    obtain ⟨b, hb, hstarts⟩ := exists_first_byte before c cs
    have hpos := Char.utf8Size_pos c
    rw [Text.byteSize_cons] at h
    rw [skipBlanksFrom, if_pos (by simp; omega), hb, Option.bind_eq_bind, Option.bind_some,
      satisfies_of_starts oneByte_isBlank hstarts]
    split
    · next hc =>
      have hone : c.utf8Size = 1 := oneByte_isBlank c hc
      obtain ⟨left, rfl⟩ : ∃ left, turns = left + 1 := Nat.exists_eq_succ_of_ne_zero (by omega)
      have hnext := ih (before ++ [c]) (by omega : byteSize cs ≤ left)
      rw [Text.byteSize_append, Text.byteSize_cons, hone, List.append_assoc] at hnext
      have hblanks : Text.leadingBlanks (c :: cs) = 1 + Text.leadingBlanks cs := by
        rw [Text.leadingBlanks, List.takeWhile_cons_of_pos hc, List.length_cons, Nat.add_comm]
        rfl
      rw [hblanks, ← Nat.add_assoc]
      exact hnext
    · next hc =>
      rw [Text.leadingBlanks, List.takeWhile_cons_of_neg hc]
      rfl

/-- Blanks are skipped up to a boundary. -/
theorem skipBlanks_utf8 (before cs : List Char) :
    skipBlanks (utf8 (before ++ cs)) (byteSize before) = some (byteSize before + Text.leadingBlanks cs) := by
  unfold skipBlanks
  rw [length_utf8, Text.byteSize_append, Nat.min_eq_left (Nat.le_add_right _ _)]
  exact skipBlanksFrom_utf8 before cs (by omega)

/-- The last byte of a part of a text tells what its last character does. -/
theorem getElem?_last (before : List Char) {part : List Char} (after : List Char) (hne : part ≠ [])
    {p : Char → Bool} (hp : OneByte p) :
    (utf8 (before ++ (part ++ after)))[byteSize before + byteSize part - 1]?.map (satisfies p)
      = some (part.getLast?.any p) := by
  obtain ⟨init, c, rfl⟩ := (List.eq_nil_or_concat part).resolve_left hne
  have hpos := Char.utf8Size_pos c
  have htext : before ++ (init.concat c ++ after) = (before ++ init) ++ c :: after := by simp
  have hbyte : byteSize before + byteSize (init.concat c) - 1
      = byteSize (before ++ init) + (c.utf8Size - 1) := by
    rw [List.concat_eq_append, Text.byteSize_append, Text.byteSize_append, Text.byteSize_cons,
      Text.byteSize_nil]
    omega
  rw [htext, hbyte, List.concat_eq_append, List.getLast?_concat]
  by_cases hone : c.utf8Size = 1
  · obtain ⟨b, hb, hstarts⟩ := exists_first_byte (before ++ init) c after
    rw [hone, Nat.sub_self, Nat.add_zero, hb, Option.map_some, satisfies_of_starts hp hstarts]
    rfl
  · have hinner : c.utf8Size - 1 < c.utf8Size := by omega
    obtain ⟨b, hb, hnone⟩ := exists_inner_byte (before ++ init) after (by omega) hinner
    have hc : p c = false := Bool.eq_false_iff.mpr fun hc => hone (hp c hc)
    rw [hb, Option.map_some, satisfies_of_none p hnone, Option.any_some, hc]

/-- From the end backwards, the last byte of a character that is no blank stops it. -/
theorem trimEnd_utf8 (before part after : List Char) :
    trimEnd (utf8 (before ++ (part ++ after))) (byteSize before) (byteSize before + byteSize part)
      = some (byteSize before + byteSize (Text.dropTrailing isBlank part)) := by
  induction part using List.reverseRecOn generalizing after with
  | nil =>
    rw [Text.byteSize_nil, Nat.add_zero]
    cases byteSize before with
    | zero => rfl
    | succ n =>
      rw [trimEnd, if_neg (Nat.lt_irrefl _)]
      rfl
  | append_singleton init c ih =>
    have hne : init ++ [c] ≠ [] := by simp
    have hlast := getElem?_last before after hne oneByte_isBlank
    have hpos := Text.byteSize_pos hne
    obtain ⟨stop, hstop⟩ : ∃ stop, byteSize before + byteSize (init ++ [c]) = stop + 1 :=
      Nat.exists_eq_succ_of_ne_zero (by omega)
    rw [hstop, Nat.add_sub_cancel, List.getLast?_concat, Option.any_some] at hlast
    obtain ⟨b, hb, hblank⟩ := Option.map_eq_some_iff.mp hlast
    rw [hstop, trimEnd, if_pos (by omega), hb, Option.bind_eq_bind, Option.bind_some, hblank]
    split
    · next hc =>
      have hone : c.utf8Size = 1 := oneByte_isBlank c hc
      have hinit : byteSize before + byteSize init = stop := by
        rw [Text.byteSize_append, Text.byteSize_cons, Text.byteSize_nil] at hstop
        omega
      have hnext := ih (c :: after)
      rw [hinit] at hnext
      rw [List.append_assoc, List.singleton_append, hnext]
      simp [Text.dropTrailing, hc]
    · next hc =>
      have hkept : Text.dropTrailing isBlank (init ++ [c]) = init ++ [c] := by
        simp [Text.dropTrailing, hc]
      rw [hkept, hstop]
      rfl

/-! ## Literals -/

section Literals

variable {quote : UInt8} {q : Char}

/-- One turn of the search, for a position inside of the text. -/
theorem literalEndFrom_succ {bytes : List UInt8} {pos : Nat} {b : UInt8} (hb : bytes[pos]? = some b)
    (quote : UInt8) (turns : Nat) :
    literalEndFrom bytes quote (turns + 1) pos
      = if b = quote then
          if bytes[pos + 1]? = some quote then literalEndFrom bytes quote turns (pos + 2) else some (some (pos + 1))
        else literalEndFrom bytes quote turns (pos + 1) := by
  have hlt : pos < bytes.length := (List.getElem?_eq_some_iff.mp hb).1
  rw [literalEndFrom, if_pos hlt, hb]
  rfl

/-- By strong induction on the text: two quotes are passed in one turn. -/
theorem literalEndFrom_utf8 (hquote : ascii? quote = some q) (hone : q.utf8Size = 1) {turns : Nat}
    (before cs : List Char) (h : byteSize cs ≤ turns) :
    literalEndFrom (utf8 (before ++ cs)) quote (turns + 1) (byteSize before)
      = some ((Text.closeQuote q cs).map fun (body, _) => byteSize before + byteSize body + 1) := by
  fun_induction Text.closeQuote q cs generalizing before turns with
  | case1 =>
    rw [literalEndFrom, if_neg (by simp)]
    rfl
  | case2 c hc d ds hd ih =>
    obtain rfl := beq_iff_eq.mp hc
    -- a doubled quote: both bytes are passed in one turn
    obtain rfl := beq_iff_eq.mp hd
    obtain ⟨b, hb, hstarts⟩ := exists_first_byte before d (d :: ds)
    obtain ⟨b', hb', hstarts'⟩ := exists_first_byte (before ++ [d]) d ds
    obtain rfl := (hstarts.eq_iff hquote hone).mpr rfl
    obtain rfl := (hstarts'.eq_iff hquote hone).mpr rfl
    rw [Text.byteSize_cons, Text.byteSize_cons] at h
    obtain ⟨left, rfl⟩ : ∃ left, turns = left + 1 := Nat.exists_eq_succ_of_ne_zero (by omega)
    have hnext := ih (before ++ [d, d]) (by omega : byteSize ds ≤ left)
    simp only [List.append_assoc, List.cons_append, List.nil_append, Text.byteSize_append, Text.byteSize_cons,
      Text.byteSize_nil, hone] at hb' hnext
    rw [literalEndFrom_succ hb, if_pos rfl, if_pos hb', hnext]
    cases Text.closeQuote d ds with
    | none => rfl
    | some parts =>
      simp only [Option.map_some, Text.byteSize_cons, hone]
      congr 2
      omega
  | case3 c hc d ds hd =>
    obtain rfl := beq_iff_eq.mp hc
    obtain ⟨b, hb, hstarts⟩ := exists_first_byte before c (d :: ds)
    obtain ⟨b', hb', hstarts'⟩ := exists_first_byte (before ++ [c]) d ds
    -- a quote that is not doubled closes the literal
    have hne : b' ≠ quote := fun h => hd (beq_iff_eq.mpr ((hstarts'.eq_iff hquote hone).mp h))
    simp only [List.append_assoc, List.cons_append, List.nil_append, Text.byteSize_append, Text.byteSize_cons,
      Text.byteSize_nil, hone] at hb'
    rw [literalEndFrom_succ hb, if_pos ((hstarts.eq_iff hquote hone).mpr rfl), hb',
      if_neg (fun h => hne (Option.some_inj.mp h))]
    rfl
  | case4 c hc =>
    obtain rfl := beq_iff_eq.mp hc
    obtain ⟨b, hb, hstarts⟩ := exists_first_byte before c []
    have hend : (utf8 (before ++ [c]))[byteSize before + 1]? = none := by
      simp [hone]
    rw [literalEndFrom_succ hb, if_pos ((hstarts.eq_iff hquote hone).mpr rfl), hend,
      if_neg (fun h => (by cases h))]
    rfl
  | case5 c cs hc ih =>
    obtain ⟨b, hb, hstarts⟩ := exists_first_byte before c cs
    have hne : b ≠ quote := fun h => hc (beq_iff_eq.mpr ((hstarts.eq_iff hquote hone).mp h))
    -- the other bytes of the character are passed one by one
    obtain ⟨left, hleft, hinner⟩ := search_inner (literalEndFrom (utf8 (before ++ c :: cs)) quote) h
      fun turns pos b _ hb hnone => by
        have hne : b ≠ quote := fun h => by
          rw [h, hquote] at hnone
          cases hnone
        rw [literalEndFrom_succ hb, if_neg hne]
    have hnext := ih (before ++ [c]) hleft
    rw [List.append_assoc, List.singleton_append, byteSize_concat] at hnext
    rw [literalEndFrom_succ hb, if_neg hne, hinner, hnext]
    cases Text.closeQuote q cs with
    | none => rfl
    | some parts => simp [Nat.add_assoc]

/-- The end of the literal that a quote opens. -/
theorem literalEnd_utf8 (hq : isQuote q = true) (before cs : List Char) :
    literalEnd (utf8 (before ++ q :: cs)) (byteSize before)
      = some ((Text.closeQuote q cs).map fun (body, _) =>
          byteSize before + q.utf8Size + byteSize body + q.utf8Size) := by
  have hone := oneByte_isQuote q hq
  obtain ⟨b, hb, hstarts⟩ := exists_first_byte before q cs
  rw [Starts, if_pos hone] at hstarts
  have hfrom := literalEndFrom_utf8 hstarts hone (before ++ [q]) cs
    (by simp; omega : byteSize cs ≤ byteSize (before ++ q :: cs))
  rw [List.append_assoc, List.singleton_append, Text.byteSize_append before [q], Text.byteSize_cons,
    Text.byteSize_nil, Nat.add_zero, hone] at hfrom
  rw [literalEnd, hb, Option.bind_eq_bind, Option.bind_some, length_utf8, hfrom, hone]

end Literals

/-! ## Delimiters -/

section Delimiters

variable {ch : Char}

/-- One turn of the search, for a position inside of the text. -/
theorem delimiterFrom_succ {bytes : List UInt8} {pos : Nat} {b : UInt8} (hb : bytes[pos]? = some b)
    (ch : Char) (turns : Nat) (depth : Depth) :
    delimiterFrom bytes ch (turns + 1) depth pos
      = if satisfies isQuote b then
          (literalEnd bytes pos).bind fun stop? =>
            stop?.elim (some none) (delimiterFrom bytes ch turns depth)
        else if (track depth b).isTop && satisfies (· == ch) b then some (some pos)
        else delimiterFrom bytes ch turns (track depth b) (pos + 1) := by
  have hlt : pos < bytes.length := (List.getElem?_eq_some_iff.mp hb).1
  rw [delimiterFrom, if_pos hlt, hb, Option.bind_eq_bind, Option.bind_some]
  congr 1
  refine congrArg _ (funext fun stop? => ?_)
  cases stop? <;> rfl

/-- By strong induction on the text, since a literal is passed in one turn. -/
theorem delimiterFrom_utf8 (hch : ch.utf8Size = 1) {turns : Nat} (depth : Depth) {pos : Nat}
    (before : List Char) (hpos : byteSize before = pos) (cs : List Char) (h : byteSize cs ≤ turns) :
    delimiterFrom (utf8 (before ++ cs)) ch (turns + 1) depth pos
      = some (Text.delimiterFrom? ch depth pos cs) := by
  fun_induction Text.delimiterFrom? ch depth pos cs generalizing before turns with
  | case1 depth pos =>
    rw [delimiterFrom, if_neg (by simp [hpos])]
    rfl
  | case2 depth pos c cs hq hopen =>
    subst hpos
    obtain ⟨b, hb, hstarts⟩ := exists_first_byte before c cs
    rw [delimiterFrom_succ hb, satisfies_of_starts oneByte_isQuote hstarts, if_pos hq, literalEnd_utf8 hq, hopen]
    rfl
  | case3 depth pos c cs hq body rest hclose ih =>
    subst hpos
    obtain rfl := Text.closeQuote_eq_some hclose
    obtain ⟨b, hb, hstarts⟩ := exists_first_byte before c (body ++ c :: rest)
    have htext : before ++ c :: (body ++ c :: rest) = (before ++ (c :: body ++ [c])) ++ rest := by simp
    simp only [Text.byteSize_cons, Text.byteSize_append] at h
    have hone : c.utf8Size = 1 := oneByte_isQuote c hq
    obtain ⟨left, rfl⟩ : ∃ left, turns = left + 1 := Nat.exists_eq_succ_of_ne_zero (by omega)
    have hnext := ih (before ++ (c :: body ++ [c])) (by simp; omega) (by omega : byteSize rest ≤ left)
    rw [← htext] at hnext
    rw [delimiterFrom_succ hb, satisfies_of_starts oneByte_isQuote hstarts, if_pos hq, literalEnd_utf8 hq, hclose,
      Option.map_some, Option.bind_some, Option.elim_some, hnext]
  | case4 depth pos c cs hq hfound =>
    subst hpos
    obtain ⟨b, hb, hstarts⟩ := exists_first_byte before c cs
    rw [delimiterFrom_succ hb, satisfies_of_starts oneByte_isQuote hstarts, if_neg hq,
      satisfies_of_starts (oneByte_beq hch) hstarts, track_of_starts depth hstarts, if_pos hfound]
  | case5 depth pos c cs hq hfound ih =>
    subst hpos
    obtain ⟨b, hb, hstarts⟩ := exists_first_byte before c cs
    obtain ⟨left, hleft, hinner⟩ :=
      search_inner (delimiterFrom (utf8 (before ++ c :: cs)) ch · (depth.track c)) h
        fun turns pos b _ hb hnone => by
          rw [delimiterFrom_succ hb, satisfies_of_none _ hnone, satisfies_of_none _ hnone,
            track_of_none _ hnone, Bool.and_false, if_neg Bool.false_ne_true, if_neg Bool.false_ne_true]
    have hnext := ih (before ++ [c]) (byteSize_concat before c) hleft
    rw [List.append_assoc, List.singleton_append] at hnext
    rw [delimiterFrom_succ hb, satisfies_of_starts oneByte_isQuote hstarts, if_neg hq,
      satisfies_of_starts (oneByte_beq hch) hstarts, track_of_starts depth hstarts, if_neg hfound, hinner,
      hnext]

theorem delimiterPos_utf8 (hch : ch.utf8Size = 1) (cs : List Char) :
    delimiterPos (utf8 cs) ch = some (Text.delimiterPos? cs ch) := by
  rw [delimiterPos, length_utf8]
  exact delimiterFrom_utf8 hch {} [] Text.byteSize_nil cs (Nat.le_refl _)

end Delimiters

/-! ## Words -/

section Words

variable {word : List Char}

/-- A word of such characters starts the bytes just if it starts the text. -/
theorem utf8_prefix_iff (hword : ∀ c ∈ word, c.utf8Size = 1) {cs : List Char} :
    utf8 word <+: utf8 cs ↔ word <+: cs := by
  induction word generalizing cs with
  | nil => simp
  | cons w word ih =>
    have hone : w.utf8Size = 1 := hword w List.mem_cons_self
    have hrest : ∀ c ∈ word, c.utf8Size = 1 := fun c hc => hword c (List.mem_cons_of_mem w hc)
    rw [utf8_cons w, String.utf8EncodeChar_eq_singleton hone, List.singleton_append]
    cases cs with
    | nil => simp
    | cons c cs =>
      obtain ⟨b, bs, hbytes, hstarts, hlength, -⟩ := exists_encode c
      rw [utf8_cons c, hbytes, List.cons_append, List.cons_prefix_cons, List.cons_prefix_cons, eq_comm,
        hstarts.eq_iff (ascii?_of_utf8Size_eq_one hone) hone, eq_comm]
      refine and_congr_right fun hc => ?_
      subst hc
      obtain rfl : bs = [] := List.length_eq_zero_iff.mp (by omega)
      exact ih hrest

/-- Whether a word ends shows in the first byte behind it. -/
theorem endsAt_utf8 (before cs : List Char) :
    endsAt (utf8 (before ++ cs)) (byteSize before) = some (Text.atBoundary cs) := by
  unfold endsAt
  rw [length_utf8, Text.byteSize_append]
  cases cs with
  | nil =>
    rw [if_pos (by simp)]
    rfl
  | cons c cs =>
    obtain ⟨b, hb, hstarts⟩ := exists_first_byte before c cs
    have hpos := Text.byteSize_pos (List.cons_ne_nil c cs)
    rw [if_neg (by omega), hb, Option.map_some, satisfies_of_starts oneByte_isDelimiter hstarts]
    rfl

theorem endsAt_isSome (bytes : List UInt8) (pos : Nat) : ∃ ends, endsAt bytes pos = some ends := by
  unfold endsAt
  split
  · exact ⟨true, rfl⟩
  · next hpos =>
    rw [List.getElem?_eq_getElem (by omega)]
    exact ⟨_, rfl⟩

/-- A word stands alone if it is there and ends there. -/
theorem isolatedAt_utf8 (hword : ∀ c ∈ word, c.utf8Size = 1) (before cs : List Char) :
    isolatedAt (utf8 (before ++ cs)) (utf8 word) (byteSize before)
      = some (word.isPrefixOf cs && Text.atBoundary (cs.drop word.length)) := by
  have hdrop : (utf8 (before ++ cs)).drop (byteSize before) = utf8 cs := by
    rw [utf8_append, ← length_utf8, List.drop_left]
  have hprefix : (utf8 word).isPrefixOf (utf8 cs) = word.isPrefixOf cs := by
    rw [Bool.eq_iff_iff, List.isPrefixOf_iff_prefix, List.isPrefixOf_iff_prefix]
    exact utf8_prefix_iff hword
  unfold isolatedAt
  rw [hdrop, if_pos (by simp), hprefix]
  by_cases hfound : word <+: cs
  · rw [List.isPrefixOf_iff_prefix.mpr hfound]
    obtain ⟨rest, rfl⟩ := hfound
    have hends := endsAt_utf8 (before ++ word) rest
    rw [List.append_assoc, Text.byteSize_append, ← length_utf8 word] at hends
    rw [hends, List.drop_left]
    cases Text.atBoundary rest <;> rfl
  · have hnot : word.isPrefixOf cs = false :=
      Bool.eq_false_iff.mpr fun h => hfound (List.isPrefixOf_iff_prefix.mp h)
    obtain ⟨ends, hends⟩ := endsAt_isSome (utf8 (before ++ cs)) (byteSize before + (utf8 word).length)
    rw [hends, hnot]
    cases ends <;> rfl

/-- One turn of the search, where the word still fits. -/
theorem wordFrom_succ {bytes pattern : List UInt8} {pos : Nat} {b : UInt8} (hb : bytes[pos]? = some b)
    (hpos : pos ≤ bytes.length - pattern.length) (turns : Nat) (depth : Depth) (fresh : Bool) :
    wordFrom bytes pattern (turns + 1) depth fresh pos
      = if satisfies isQuote b then
          (literalEnd bytes pos).bind fun stop? => stop?.elim (some none) fun next =>
            if bytes.length - pattern.length < next then some none
            else wordFrom bytes pattern turns depth true next
        else if (track depth b).isTop = false then wordFrom bytes pattern turns (track depth b) fresh (pos + 1)
        else if satisfies isDelimiter b then wordFrom bytes pattern turns (track depth b) true (pos + 1)
        else if fresh then
          (isolatedAt bytes pattern pos).bind fun found =>
            if found then some (some pos) else wordFrom bytes pattern turns (track depth b) false (pos + 1)
        else wordFrom bytes pattern turns (track depth b) false (pos + 1) := by
  rw [wordFrom]
  dsimp only
  rw [if_pos hpos, hb, Option.bind_eq_bind, Option.bind_some]
  congr 1
  · refine congrArg _ (funext fun stop? => ?_)
    cases stop? <;> rfl
  · simp

/-- Where it does not fit, the search is over. -/
theorem wordFrom_short {bytes pattern : List UInt8} {pos : Nat} (hpos : bytes.length - pattern.length < pos)
    {turns : Nat} (hturns : 0 < turns) (depth : Depth) (fresh : Bool) :
    wordFrom bytes pattern turns depth fresh pos = some none := by
  obtain ⟨turns, rfl⟩ := Nat.exists_eq_succ_of_ne_zero hturns.ne'
  rw [wordFrom]
  dsimp only
  rw [if_neg (by omega)]
  rfl

/-- Bytes inside of a character are stepped over. -/
theorem wordFrom_inner {bytes pattern : List UInt8} {pos : Nat} {b : UInt8} (hb : bytes[pos]? = some b)
    (hnone : ascii? b = none) {turns : Nat} (hturns : 0 < turns) {depth : Depth} {fresh : Bool}
    (hfresh : depth.isTop = true → fresh = false) :
    wordFrom bytes pattern (turns + 1) depth fresh pos = wordFrom bytes pattern turns depth fresh (pos + 1) := by
  by_cases hpos : pos ≤ bytes.length - pattern.length
  · rw [wordFrom_succ hb hpos, satisfies_of_none _ hnone, satisfies_of_none _ hnone, track_of_none _ hnone,
      if_neg Bool.false_ne_true, if_neg Bool.false_ne_true]
    cases htop : depth.isTop with
    | false => rfl
    | true =>
      rw [hfresh htop]
      rfl
  · rw [wordFrom_short (by omega) (Nat.succ_pos turns), wordFrom_short (by omega) hturns]

/-- A word is not found in a text that is too short for it. -/
theorem wordFrom?_short {cs : List Char} (h : byteSize cs < byteSize word) (depth : Depth) (fresh : Bool)
    (pos : Nat) : Text.wordFrom? word true depth fresh pos cs = none := by
  rw [Option.eq_none_iff_forall_ne_some]
  intro e he
  obtain ⟨-, -, as, bs, rfl, -, ⟨rest, rfl⟩, -⟩ := Statement.wordAt_of_wordFrom? he
  simp only [Text.byteSize_append] at h
  omega

section Step

variable {before cs : List Char} {c : Char} {depth : Depth} {turns : Nat}

/-- The search goes on behind a literal, or ends there if the word does not fit any more. -/
theorem wordFrom_literal (hq : isQuote c = true) (hfits : byteSize word ≤ byteSize (c :: cs))
    (hnext : ∀ body rest, Text.closeQuote c cs = some (body, rest) →
      wordFrom (utf8 (before ++ c :: cs)) (utf8 word) turns depth true
          (byteSize before + c.utf8Size + byteSize body + c.utf8Size)
        = some (Text.wordFrom? word true depth true
            (byteSize before + c.utf8Size + byteSize body + c.utf8Size) rest))
    (hturns : 0 < turns) (fresh : Bool) :
    wordFrom (utf8 (before ++ c :: cs)) (utf8 word) (turns + 1) depth fresh (byteSize before)
      = some (Text.wordFrom? word true depth fresh (byteSize before) (c :: cs)) := by
  obtain ⟨b, hb, hstarts⟩ := exists_first_byte before c cs
  have hpos : byteSize before ≤ (utf8 (before ++ c :: cs)).length - (utf8 word).length := by
    rw [length_utf8, length_utf8, Text.byteSize_append]
    omega
  rw [wordFrom_succ hb hpos, satisfies_of_starts oneByte_isQuote hstarts, if_pos hq, literalEnd_utf8 hq]
  cases hclose : Text.closeQuote c cs with
  | none =>
    rw [Text.wordFrom?_open word true depth fresh _ hq hclose]
    rfl
  | some parts =>
    obtain ⟨body, rest⟩ := parts
    have hnext := hnext body rest hclose
    rw [Text.wordFrom?_quote word true depth fresh _ hq hclose, ← hnext]
    simp only [Option.map_some, Option.bind_some, Option.elim_some]
    split
    · next hlast => rw [wordFrom_short hlast hturns]
    · rfl

/-- The search goes on behind a character that opens no literal, if the word does not stand there. -/
theorem wordFrom_char (hword : ∀ c ∈ word, c.utf8Size = 1) (hq : isQuote c = false)
    (hfits : byteSize word ≤ byteSize (c :: cs)) (h : byteSize (c :: cs) ≤ turns)
    (hnext : ∀ fresh left, byteSize cs ≤ left →
      wordFrom (utf8 (before ++ c :: cs)) (utf8 word) (left + 1) (depth.track c) fresh
          (byteSize before + c.utf8Size)
        = some (Text.wordFrom? word true (depth.track c) fresh (byteSize before + c.utf8Size) cs))
    (fresh : Bool) :
    wordFrom (utf8 (before ++ c :: cs)) (utf8 word) (turns + 1) depth fresh (byteSize before)
      = some (Text.wordFrom? word true depth fresh (byteSize before) (c :: cs)) := by
  obtain ⟨b, hb, hstarts⟩ := exists_first_byte before c cs
  have hpos : byteSize before ≤ (utf8 (before ++ c :: cs)).length - (utf8 word).length := by
    rw [length_utf8, length_utf8, Text.byteSize_append]
    omega
  -- the other bytes of the character change nothing, unless a word may start there
  have hinner (fresh : Bool) (hfresh : (depth.track c).isTop = true → fresh = false) :
      wordFrom (utf8 (before ++ c :: cs)) (utf8 word) turns (depth.track c) fresh (byteSize before + 1)
        = some (Text.wordFrom? word true (depth.track c) fresh (byteSize before + c.utf8Size) cs) := by
    obtain ⟨left, hleft, hinner⟩ :=
      search_inner (wordFrom (utf8 (before ++ c :: cs)) (utf8 word) · (depth.track c) fresh) h
        fun turns pos b hturns hb hnone => wordFrom_inner hb hnone hturns hfresh
    rw [hinner, hnext fresh left hleft]
  rw [wordFrom_succ hb hpos, satisfies_of_starts oneByte_isQuote hstarts, hq, if_neg Bool.false_ne_true,
    satisfies_of_starts oneByte_isDelimiter hstarts, track_of_starts depth hstarts,
    Text.wordFrom?_cons word depth fresh _ cs hq, Text.startsWord]
  cases htop : (depth.track c).isTop with
  | false =>
    rw [if_pos rfl, if_pos rfl]
    exact hinner fresh fun h => absurd (htop.symm.trans h) Bool.false_ne_true
  | true =>
    rw [if_neg Bool.true_eq_false_eq_False, if_neg Bool.true_eq_false_eq_False]
    cases hdel : isDelimiter c with
    | true =>
      have hone : c.utf8Size = 1 := oneByte_isDelimiter c hdel
      rw [Text.byteSize_cons, hone] at h
      obtain ⟨left, rfl⟩ : ∃ left, turns = left + 1 := Nat.exists_eq_succ_of_ne_zero (by omega)
      have hnext := hnext true left (by omega)
      rw [hone] at hnext
      rw [if_pos rfl, if_pos rfl, hnext, hone]
    | false =>
      rw [if_neg Bool.false_ne_true, if_neg Bool.false_ne_true, isolatedAt_utf8 hword, Option.bind_some,
        hinner false fun _ => rfl]
      cases fresh with
      | false => rfl
      | true =>
        rw [if_pos rfl, Bool.true_and]
        split <;> rfl

end Step

/-- By strong induction on the text, in the cases of one turn. -/
theorem wordFrom_utf8 (hword : ∀ c ∈ word, c.utf8Size = 1) (hne : word ≠ []) {turns : Nat} (depth : Depth)
    (fresh : Bool) (before cs : List Char) (hsize : byteSize word ≤ byteSize before + byteSize cs)
    (h : byteSize cs ≤ turns) :
    wordFrom (utf8 (before ++ cs)) (utf8 word) (turns + 1) depth fresh (byteSize before)
      = some (Text.wordFrom? word true depth fresh (byteSize before) cs) := by
  induction hn : cs.length using Nat.strongRecOn generalizing turns depth fresh before cs with
  | ind n ih =>
    by_cases hshort : byteSize cs < byteSize word
    · have hlast : (utf8 (before ++ cs)).length - (utf8 word).length < byteSize before := by
        rw [length_utf8, length_utf8, Text.byteSize_append]
        omega
      rw [wordFrom_short hlast (Nat.succ_pos turns), wordFrom?_short hshort]
    cases cs with
    | nil => exact absurd (Text.byteSize_pos hne) hshort
    | cons c cs =>
      have hfits := Nat.le_of_not_lt hshort
      cases hq : isQuote c with
      | true =>
        obtain ⟨left, rfl⟩ : ∃ left, turns = left + 1 :=
          Nat.exists_eq_succ_of_ne_zero (by have := Text.byteSize_pos (List.cons_ne_nil c cs); omega)
        refine wordFrom_literal hq hfits (fun body rest hclose => ?_) (Nat.succ_pos left) fresh
        obtain rfl := Text.closeQuote_eq_some hclose
        have htext : before ++ c :: (body ++ c :: rest) = (before ++ (c :: body ++ [c])) ++ rest := by simp
        have hstop : byteSize before + c.utf8Size + byteSize body + c.utf8Size
            = byteSize (before ++ (c :: body ++ [c])) := by
          simp
          omega
        have hpos := Char.utf8Size_pos c
        simp only [Text.byteSize_cons, Text.byteSize_append] at h hsize
        rw [hstop, htext]
        refine ih rest.length ?_ depth true _ rest ?_ ?_ rfl
        · rw [← hn]
          simp
          omega
        · omega
        · omega
      | false =>
        refine wordFrom_char hword hq hfits h (fun fresh left hleft => ?_) fresh
        have hnext := ih cs.length (by rw [← hn]; simp) (depth.track c) fresh (before ++ [c]) cs
          (by rw [byteSize_concat, Nat.add_assoc]; exact hsize) hleft rfl
        rwa [byteSize_concat, List.append_assoc, List.singleton_append] at hnext

theorem wordPos_utf8 (hword : ∀ c ∈ word, c.utf8Size = 1) (cs : List Char) :
    wordPos cs word = some (Text.wordPos? cs word true) := by
  unfold wordPos Text.wordPos?
  split
  · rfl
  · next hne =>
    split
    · next hnot =>
      refine congrArg some (Option.eq_none_iff_forall_ne_some.mpr fun e he => ?_).symm
      obtain ⟨-, -, as, bs, rfl, -, ⟨rest, rfl⟩, -⟩ := Statement.wordAt_of_wordFrom? he
      rcases hnot with hshort | hinfix
      · simp only [Text.byteSize_append] at hshort
        omega
      · exact hinfix ⟨as, rest, List.append_assoc as word rest⟩
    · next hfits =>
      rw [not_or] at hfits
      exact wordFrom_utf8 hword (by simpa using hne) {} true [] cs (by simpa using hfits.1) (Nat.le_refl _)

end Words

/-! ## Keywords -/

theorem startsWith_utf8 {keyword : String} (h : ∀ c ∈ keyword.toList, c.utf8Size = 1) (cs : List Char) :
    startsWith (utf8 cs) keyword = some (StatementKind.startsWith keyword cs) := by
  unfold startsWith StatementKind.startsWith
  dsimp only
  by_cases hprefix : keyword.toList <+: cs
  · rw [if_pos (List.prefix_iff_eq_take.mp ((utf8_prefix_iff h).mpr hprefix)),
      List.isPrefixOf_iff_prefix.mpr hprefix, Bool.true_and, ← String.length_toList]
    obtain ⟨rest, rfl⟩ := hprefix
    rw [List.drop_left, ← endsAt_utf8 keyword.toList rest, endsAt, length_utf8, length_utf8]
    simp only [Text.byteSize_append]
    congr 1
    exact propext ⟨fun h => h.le, fun h => by omega⟩
  · rw [if_neg fun h' => hprefix ((utf8_prefix_iff h).mp (List.prefix_iff_eq_take.mpr h')),
      Bool.eq_false_iff.mpr fun h => hprefix (List.isPrefixOf_iff_prefix.mp h)]
    rfl

theorem byteSize_of_oneByte {cs : List Char} (h : ∀ c ∈ cs, c.utf8Size = 1) : byteSize cs = cs.length := by
  induction cs with
  | nil => rfl
  | cons c cs ih =>
    rw [Text.byteSize_cons, h c List.mem_cons_self, ih fun c hc => h c (List.mem_cons_of_mem _ hc),
      List.length_cons, Nat.add_comm]

/-- By induction on the keywords, each of which is tried at the start. -/
theorem findKeyword_utf8 {keywords : List (String × StatementKind)}
    (h : ∀ k ∈ keywords, ∀ c ∈ k.1.toList, c.utf8Size = 1) (cs : List Char) :
    findKeyword (utf8 cs) keywords
      = some (((keywords.find? fun k => StatementKind.startsWith k.1 cs).map fun k =>
          (k.2, some k.1.length)).getD (.unknown, none)) := by
  induction keywords with
  | nil => rfl
  | cons k keywords ih =>
    have hkeyword : ∀ c ∈ k.1.toList, c.utf8Size = 1 := h _ List.mem_cons_self
    rw [findKeyword, startsWith_utf8 hkeyword, Option.bind_eq_bind, Option.bind_some]
    cases hk : StatementKind.startsWith k.1 cs with
    | true =>
      rw [if_pos rfl, List.find?_cons, hk, length_utf8, byteSize_of_oneByte hkeyword, String.length_toList]
      rfl
    | false =>
      rw [if_neg Bool.false_ne_true, List.find?_cons, hk,
        ih fun k hk => h k (List.mem_cons_of_mem _ hk)]

theorem keywords_oneByte : ∀ k ∈ StatementKind.keywords, ∀ c ∈ k.1.toList, c.utf8Size = 1 := by
  have hall : StatementKind.keywords.all (fun k => k.1.toList.all (·.utf8Size == 1)) = true := by decide +kernel
  intro k hk c hc
  have hk := List.all_eq_true.mp hall k hk
  simpa using List.all_eq_true.mp hk c hc

theorem kind_utf8 (cs : List Char) : kind (utf8 cs) = some (StatementKind.ofText cs) := by
  cases cs with
  | nil => rfl
  | cons c cs =>
    obtain ⟨b, bs, hbytes, hstarts, -, -⟩ := exists_encode c
    have hfind := findKeyword_utf8 keywords_oneByte (c :: cs)
    rw [utf8_cons, hbytes, List.cons_append] at hfind ⊢
    rw [kind, satisfies_of_starts (oneByte_beq (by decide)) hstarts,
      satisfies_of_starts (oneByte_beq (by decide)) hstarts, hfind]
    by_cases hlabel : c = ':'
    · subst hlabel
      rfl
    · by_cases hcomment : c = '!'
      · subst hcomment
        rfl
      · rw [if_neg (by simpa using hlabel), if_neg (by simpa using hcomment),
          StatementKind.ofText_eq (by simpa using hlabel) (by simpa using hcomment)]

end Bytes

end QuestScript
