import QuestScript.Value.Number

/-!
# Configuration documents

A document in TOML is a table: keys with values, in sections that a header opens. Settings are
integers and truth values; all other values are checked and not kept.

A fault is the place where reading could not go on: the text that was left there.
-/

namespace QuestScript.Toml

/-- The text left where a document is at fault. -/
structure Fault where
  rest : List Char
deriving DecidableEq, Repr

/-- A value, as far as a setting can have it. -/
inductive Value where
  | integer (n : Int)
  | boolean (b : Bool)
  | other
deriving DecidableEq, Repr

/-- What a key stands for: a value, a table, or several tables. A table is `implied` when only keys
inside it were mentioned, and `dotted` when that was on the left of an equals sign. The text from
its value on tells where the entry stands. -/
inductive Entry where
  | value (v : Value) (rest : List Char)
  | table (implied dotted : Bool) (entries : List (String × Entry)) (rest : List Char)
  | tables (last : List (String × Entry)) (rest : List Char)

/-- The entries of a table, in the order in which they were added. -/
abbrev Table := List (String × Entry)

/-! ## Blanks, comments and line ends -/

def isBlank (c : Char) : Bool := c == ' ' || c == '\t'

def skipBlanks (cs : List Char) : List Char := cs.dropWhile isBlank

/-- Whether a character may stand in a comment or a literal. -/
def isPlain (c : Char) : Bool := c == '\t' || (0x20 ≤ c.toNat && c.toNat != 0x7f)

/-- The text after a line break. -/
def newline? : List Char → Option (List Char)
  | '\n' :: cs => some cs
  | '\r' :: '\n' :: cs => some cs
  | _ => none

/-- The text after the end of a line, before which blanks and a comment may stand. -/
def lineEnd (cs : List Char) : Except Fault (List Char) :=
  let cs :=
    match skipBlanks cs with
    | '#' :: cs => cs.dropWhile isPlain
    | cs => cs
  match cs, newline? cs with
  | [], _ => .ok []
  | _, some cs => .ok cs
  | cs, none => .error ⟨cs⟩

/-- The text after blanks, line breaks and comments. -/
def skipLines (inComment : Bool) : List Char → List Char
  | [] => []
  | c :: cs =>
    if c == '\n' then skipLines false cs
    else if c == '\r' && cs.head? == some '\n' then skipLines false cs
    else if inComment then if isPlain c then skipLines true cs else c :: cs
    else if c == '#' then skipLines true cs
    else if isBlank c then skipLines false cs
    else c :: cs

/-! ## Texts -/

/-- Value of a hexadecimal digit. -/
def hexDigit? (c : Char) : Option Nat :=
  if Number.isDigit c then some (c.toNat - '0'.toNat)
  else if 'a' ≤ c && c ≤ 'f' then some (c.toNat - 'a'.toNat + 10)
  else if 'A' ≤ c && c ≤ 'F' then some (c.toNat - 'A'.toNat + 10)
  else none

/-- The character that `n` hexadecimal digits stand for. -/
def hexChar? (n : Nat) (cs : List Char) : Option Char := do
  let digits ← (cs.take n).mapM hexDigit?
  if digits.length != n then none
  let code := digits.foldl (fun v d => v * 16 + d) 0
  if code.isValidChar then some (Char.ofNat code) else none

/-- The character a letter after a backslash stands for. -/
def escape? : Char → Option Char
  | 'b' => some (Char.ofNat 8)
  | 't' => some '\t'
  | 'n' => some '\n'
  | 'f' => some (Char.ofNat 12)
  | 'r' => some '\r'
  | '"' => some '"'
  | '\\' => some '\\'
  | _ => none

/-- A character written with a backslash, which has been read, and the text after it. -/
def readEscape : List Char → Except Fault (Char × List Char)
  | [] => .error ⟨[]⟩
  | 'u' :: cs =>
    match hexChar? 4 cs with
    | some c => .ok (c, cs.drop 4)
    | none => .error ⟨cs⟩
  | 'U' :: cs =>
    match hexChar? 8 cs with
    | some c => .ok (c, cs.drop 8)
    | none => .error ⟨cs⟩
  | c :: cs =>
    match escape? c with
    | some c => .ok (c, cs)
    | none => .error ⟨cs⟩

theorem length_readEscape_le {cs rest : List Char} {c : Char}
    (h : readEscape cs = .ok (c, rest)) : rest.length ≤ cs.length := by
  unfold readEscape at h
  split at h
  · cases h
  · split at h <;> cases h
    simp only [List.length_drop, List.length_cons]
    omega
  · split at h <;> cases h
    simp only [List.length_drop, List.length_cons]
    omega
  · split at h <;> cases h
    exact Nat.le_succ _

/-- A text in double quotes, the first of which has been read. -/
def readBasic (cs : List Char) : Except Fault (List Char × List Char) :=
  match cs with
  | [] => .error ⟨[]⟩
  | c :: cs =>
    if c == '"' then .ok ([], cs)
    else if c == '\\' then
      match _h : readEscape cs with
      | .error e => .error e
      | .ok (d, rest) => (readBasic rest).map fun (body, rest) => (d :: body, rest)
    else if isPlain c then (readBasic cs).map fun (body, rest) => (c :: body, rest)
    else .error ⟨c :: cs⟩
termination_by cs.length
decreasing_by
  · have := length_readEscape_le _h
    simp only [List.length_cons]
    omega
  · exact Nat.lt_succ_self _

/-- A text in single quotes, the first of which has been read. -/
def readLiteral : List Char → Except Fault (List Char × List Char)
  | [] => .error ⟨[]⟩
  | c :: cs =>
    if c == '\'' then .ok ([], cs)
    else if isPlain c then (readLiteral cs).map fun (body, rest) => (c :: body, rest)
    else .error ⟨c :: cs⟩

/-- The text after a literal of several lines that ends with three quotes; `quotes` of them have
been read, and `escaped` says that a backslash has. Two more quotes belong to the literal. -/
def skipLong (quote : Char) (quotes : Nat) (escaped : Bool) : List Char → Except Fault (List Char)
  | [] => if 3 ≤ quotes then .ok [] else .error ⟨[]⟩
  | c :: cs =>
    if escaped then
      if (escape? c).isSome || c == 'u' || c == 'U' || isBlank c || c == '\n' || c == '\r' then
        skipLong quote 0 false cs
      else .error ⟨cs⟩
    else if c == quote then
      if quotes == 5 then .ok (c :: cs) else skipLong quote (quotes + 1) false cs
    else if 3 ≤ quotes then .ok (c :: cs)
    else if c == '\\' && quote == '"' then skipLong quote 0 true cs
    else if isPlain c || c == '\n' || (c == '\r' && cs.head? == some '\n') then
      skipLong quote 0 false cs
    else .error ⟨c :: cs⟩

/-! ## Keys -/

/-- Whether a character may stand in a key without quotes. -/
def isBare (c : Char) : Bool := c.isAlphanum || c == '_' || c == '-'

/-- A key without dots. -/
def readKey : List Char → Except Fault (String × List Char)
  | '"' :: cs => (readBasic cs).map fun (key, rest) => (String.ofList key, rest)
  | '\'' :: cs => (readLiteral cs).map fun (key, rest) => (String.ofList key, rest)
  | cs =>
    match cs.takeWhile isBare with
    | [] => .error ⟨cs⟩
    | key => .ok (String.ofList key, cs.dropWhile isBare)

/-- Whether a key starts here. -/
def startsKey : List Char → Bool
  | '"' :: _ => true
  | '\'' :: _ => true
  | c :: _ => isBare c
  | [] => false

/-- Keys with dots between them, at most `n` of them, with blanks around each. A dot without a key
after it is left alone. -/
def readPath : Nat → List Char → Except Fault (List String × List Char)
  | 0, cs => .error ⟨cs⟩
  | n + 1, cs => do
    let (key, rest) ← readKey (skipBlanks cs)
    match skipBlanks rest with
    | '.' :: more =>
      if startsKey (skipBlanks more) then
        let (keys, rest) ← readPath n more
        return (key :: keys, rest)
      else return ([key], '.' :: more)
    | rest => return ([key], rest)

/-! ## Numbers and dates -/

/-- Digits, with single underscores between them. -/
def takeDigits (isDigit : Char → Bool) : List Char → Except Fault (List Char × List Char)
  | [] => .error ⟨[]⟩
  | c :: cs =>
    if isDigit c then
      match cs with
      | '_' :: more => (takeDigits isDigit more).map fun (ds, rest) => (c :: ds, rest)
      | d :: more =>
        if isDigit d then (takeDigits isDigit (d :: more)).map fun (ds, rest) => (c :: ds, rest)
        else .ok ([c], d :: more)
      | [] => .ok ([c], [])
    else .error ⟨c :: cs⟩

/-- The digits of a decimal integer: a zero alone, or digits that start with another one. -/
def takeDecimal : List Char → Except Fault (List Char × List Char)
  | '0' :: cs => .ok (['0'], cs)
  | cs => takeDigits Number.isDigit cs

/-- The exponent of a number, if there is one. -/
def skipExponent : List Char → Except Fault (List Char)
  | c :: cs =>
    if c == 'e' || c == 'E' then
      let cs :=
        match cs with
        | '+' :: cs => cs
        | '-' :: cs => cs
        | cs => cs
      (takeDigits Number.isDigit cs).map (·.2)
    else .ok (c :: cs)
  | [] => .ok []

/-- An integer in another base, after its two letters; `start` is the text from its first one. -/
def readBased (base : Nat) (start cs : List Char) : Except Fault (Value × List Char) := do
  let isDigit (c : Char) : Bool := (hexDigit? c).any (· < base)
  let (ds, rest) ← takeDigits isDigit cs
  let n := ds.foldl (fun v d => v * base + (hexDigit? d).getD 0) 0
  if Number.fits n then return (.integer n, rest) else throw ⟨start⟩

/-- Whether the first characters are digits with the given marks between them. -/
def hasShape (shape : String) (cs : List Char) : Bool :=
  (cs.take shape.length).length == shape.length &&
    (shape.toList.zip cs).all fun (s, c) => if s == '0' then Number.isDigit c else s == c

/-- The text after a time of day. -/
def skipTime (cs : List Char) : Except Fault (List Char) :=
  if !hasShape "00:00:00" cs then .error ⟨cs⟩
  else
    match cs.drop 8 with
    | '.' :: rest =>
      if (rest.head?.map Number.isDigit).getD false then .ok (rest.dropWhile Number.isDigit)
      else .error ⟨rest⟩
    | rest => .ok rest

/-- The text after the offset of a time. -/
def skipOffset (cs : List Char) : List Char :=
  match cs with
  | 'Z' :: rest => rest
  | 'z' :: rest => rest
  | c :: rest => if (c == '+' || c == '-') && hasShape "00:00" rest then rest.drop 5 else cs
  | [] => []

/-- The text after a date, with a time or without. -/
def skipDate (cs : List Char) : Except Fault (List Char) :=
  if !hasShape "0000-00-00" cs then .error ⟨cs.drop 5⟩
  else
    match cs.drop 10 with
    | c :: rest =>
      if (c == 'T' || c == 't' || c == ' ') && hasShape "00:" rest then
        (skipTime rest).map skipOffset
      else .ok (c :: rest)
    | [] => .ok []

/-- An integer, a float, a date or a time. -/
def readNumber (cs : List Char) : Except Fault (Value × List Char) :=
  let (negative, signed, body) :=
    match cs with
    | '+' :: body => (false, true, body)
    | '-' :: body => (true, true, body)
    | body => (false, false, body)
  let based :=
    match body with
    | '0' :: 'x' :: ds => some (16, ds)
    | '0' :: 'o' :: ds => some (8, ds)
    | '0' :: 'b' :: ds => some (2, ds)
    | _ => none
  if hasShape "0000-" cs then (skipDate cs).map fun rest => (.other, rest)
  else if hasShape "00:" cs then (skipTime cs).map fun rest => (.other, rest)
  else if body.take 3 == ['i', 'n', 'f'] || body.take 3 == ['n', 'a', 'n'] then
    .ok (.other, body.drop 3)
  else
    match signed, based with
    | false, some (base, ds) => readBased base cs ds
    | _, _ => do
      let (ds, rest) ← takeDecimal body
      match rest with
      | '.' :: more =>
        let (_, rest) ← takeDigits Number.isDigit more
        return (.other, ← skipExponent rest)
      | rest =>
        if rest.head? == some 'e' || rest.head? == some 'E' then
          return (.other, ← skipExponent rest)
        let n : Int := Number.digitsValue ds
        let n := if negative then -n else n
        if Number.fits n then return (.integer n, rest) else throw ⟨cs⟩

/-! ## Tables -/

/-- Change the entry of a key, or add one. Nothing is changed if the change is refused. -/
def alter (key : String) (f : Option Entry → Option Entry) : Table → Option Table
  | [] => (f none).map fun e => [(key, e)]
  | (k, e) :: rest =>
    if k == key then (f (some e)).map fun e => (k, e) :: rest
    else (alter key f rest).map ((k, e) :: ·)

/-- Change the table that a path leads to, and tell whether it is dotted. Tables on the way that do
not exist are implied. A path on the left of an equals sign must not lead into a table that has a
header. -/
def descend (isDotted : Bool) (rest : List Char) (f : Bool → Table → Option Table) (here : Bool) :
    List String → Table → Option Table
  | [], t => f here t
  | key :: path, t =>
    alter key (fun e =>
      match e with
      | none => (descend isDotted rest f isDotted path []).map fun t => .table true isDotted t rest
      | some (.value _ _) => none
      | some (.tables last r) => (descend isDotted rest f false path last).map (.tables · r)
      | some (.table implied dotted entries r) =>
        if isDotted && !implied then none
        else (descend isDotted rest f dotted path entries).map (.table implied dotted · r)) t

/-- Add a value under a path that is not taken; `start` is the text from the path on, and `rest` the
text from the value on. -/
def insert (path : List String) (v : Value) (start rest : List Char) (t : Table) : Option Table :=
  let key := path.getLast?.getD ""
  let way := path.dropLast
  descend true start (fun dotted t =>
    if dotted == way.isEmpty then none
    else alter key (fun e => if e.isSome then none else some (.value v rest)) t) false way t

/-- Open a table with a header; one that is implied may get its header later. The text is given from
the header on and from its path on. -/
def openTable (path : List String) (rest inner : List Char) (t : Table) : Option Table :=
  descend false inner (fun _ t =>
    alter (path.getLast?.getD "") (fun e =>
      match e with
      | none => some (.table false false [] rest)
      | some (.table true false entries _) => some (.table false false entries rest)
      | _ => none) t) false path.dropLast t

/-- Open the next of several tables with a header. -/
def openNext (path : List String) (rest inner : List Char) (t : Table) : Option Table :=
  descend false inner (fun _ t =>
    alter (path.getLast?.getD "") (fun e =>
      match e with
      | none => some (.tables [] rest)
      | some (.tables _ r) => some (.tables [] r)
      | _ => none) t) false path.dropLast t

/-- Add a value under a path inside the table of the last header. -/
def insertUnder (header path : List String) (v : Value) (start rest : List Char) (t : Table) :
    Option Table :=
  descend false start (fun _ t => insert path v start rest t) false header t

/-! ## Values -/

/-- Most values inside one another. -/
def maxDepth : Nat := 80

/-- A word at the front of a text. -/
def readWord (word : String) (v : Value) (cs : List Char) : Except Fault (Value × List Char) :=
  if word.toList.isPrefixOf cs then .ok (v, cs.drop word.length) else .error ⟨cs⟩

mutual

/-- A value; `n` bounds the number of values and separators, and `depth` counts the brackets around
it. -/
def readValue (n depth : Nat) (cs : List Char) : Except Fault (Value × List Char) :=
  match n with
  | 0 => .error ⟨cs⟩
  | n + 1 =>
    if maxDepth ≤ depth then .error ⟨cs⟩
    else
      match cs with
      | [] => .error ⟨[]⟩
      | '"' :: '"' :: '"' :: rest => (skipLong '"' 0 false rest).map fun rest => (.other, rest)
      | '\'' :: '\'' :: '\'' :: rest =>
        (skipLong '\'' 0 false rest).map fun rest => (.other, rest)
      | '"' :: rest => (readBasic rest).map fun (_, rest) => (.other, rest)
      | '\'' :: rest => (readLiteral rest).map fun (_, rest) => (.other, rest)
      | '[' :: rest => (readItems n depth rest).map fun rest => (.other, rest)
      | '{' :: rest => (readInline n depth [] rest).map fun rest => (.other, rest)
      | 't' :: _ => readWord "true" (.boolean true) cs
      | 'f' :: _ => readWord "false" (.boolean false) cs
      | 'i' :: _ => readWord "inf" .other cs
      | 'n' :: _ => readWord "nan" .other cs
      | c :: _ =>
        if Number.isDigit c || c == '+' || c == '-' then readNumber cs else .error ⟨cs⟩

/-- The rest of an array. -/
def readItems (n depth : Nat) (cs : List Char) : Except Fault (List Char) :=
  match n with
  | 0 => .error ⟨cs⟩
  | n + 1 =>
    match skipLines false cs with
    | ']' :: rest => .ok rest
    | cs => do
      let (_, rest) ← readValue n (depth + 1) cs
      match skipLines false rest with
      | ',' :: rest => readItems n depth rest
      | ']' :: rest => return rest
      | rest => throw ⟨rest⟩

/-- The rest of a table between braces, of which some entries have been read. -/
def readInline (n depth : Nat) (t : Table) (cs : List Char) : Except Fault (List Char) :=
  match n with
  | 0 => .error ⟨cs⟩
  | n + 1 =>
    match skipBlanks cs, t with
    | '}' :: rest, [] => .ok rest
    | start, t => do
      let (path, rest) ← readPath (start.length + 1) start
      match rest with
      | '=' :: rest =>
        let (v, rest) ← readValue n (depth + 1) (skipBlanks rest)
        match insert path v start rest t with
        | none => throw ⟨start⟩
        | some t =>
          match skipBlanks rest with
          | ',' :: rest => readInline n depth t rest
          | '}' :: rest => return rest
          | rest => throw ⟨rest⟩
      | rest => throw ⟨rest⟩

end

/-! ## Documents -/

/-- Line and column, counted from one, of the place in a text where `rest` is left. The end of a text
belongs to the line of its last character. -/
def position (cs rest : List Char) : Nat × Nat :=
  let before := cs.take (cs.length - rest.length)
  let (shown, extra) := if rest.isEmpty then (before.dropLast, min before.length 1) else (before, 0)
  let line := shown.countP (· == '\n') + 1
  let column := (shown.reverse.takeWhile (· != '\n')).length + 1
  (line, column + extra)

/-- A document that is being read: what has been read and the path of the last header. -/
structure State where
  root : Table := []
  header : List String := []
  rest : List Char

/-- A document after a header; `start` is the text from its first bracket. -/
def readHeader (st : State) (start : List Char) : Except Fault State := do
  let several := start.take 2 == ['[', '[']
  let inner := if several then start.drop 2 else start.drop 1
  let (path, rest) ← readPath (inner.length + 1) inner
  let rest ←
    match several, rest with
    | true, ']' :: ']' :: rest => pure rest
    | false, ']' :: rest => pure rest
    | _, rest => throw ⟨rest⟩
  let after ← lineEnd rest
  let key := skipBlanks inner
  match if several then openNext path start key st.root else openTable path start key st.root with
  | some root => return { root, header := path, rest := after }
  | none => throw ⟨start⟩

/-- A document after a key and its value; `start` is the text from the key on. -/
def readSetting (st : State) (start : List Char) : Except Fault State := do
  let (path, rest) ← readPath (start.length + 1) start
  match rest with
  | '=' :: rest =>
    let value := skipBlanks rest
    let (v, rest) ← readValue (value.length + 1) 0 value
    let after ← lineEnd rest
    match insertUnder st.header path v start value st.root with
    | some root => return { st with root, rest := after }
    | none => throw ⟨start⟩
  | rest => throw ⟨rest⟩

/-- Read a document to its end; every step takes at least one character. -/
def readAll : Nat → State → Except Fault Table
  | 0, st => .error ⟨st.rest⟩
  | n + 1, st => do
    match skipBlanks st.rest with
    | [] => return st.root
    | '#' :: cs => readAll n { st with rest := ← lineEnd ('#' :: cs) }
    | '[' :: cs => readAll n (← readHeader st ('[' :: cs))
    | cs =>
      match newline? cs with
      | some rest => readAll n { st with rest }
      | none => if cs.head? == some '\r' then throw ⟨cs⟩ else readAll n (← readSetting st cs)

/-- Read a document. A mark of the byte order at its start is skipped. -/
def read (cs : List Char) : Except Fault Table :=
  let cs := if cs.head? == some (Char.ofNat 0xfeff) then cs.tail else cs
  readAll (cs.length + 1) { rest := cs }

end QuestScript.Toml
