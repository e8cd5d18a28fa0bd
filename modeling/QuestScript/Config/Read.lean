import QuestScript.Config
import QuestScript.Config.Toml

/-!
# Reading a configuration

A configuration document may have each setting once and may have other keys, which are ignored.
Counts are integers from zero on, the seed must fit into 32 bits.
-/

namespace QuestScript.Config

open Toml (Entry Fault Table)

/-- The text from an entry on. -/
def entryRest : Entry → List Char
  | .value _ rest | .table _ _ _ rest | .tables _ rest => rest

/-- A count. -/
def readCount (e : Entry) : Except Fault Nat :=
  match e with
  | .value (.integer n) _ => if 0 ≤ n then .ok n.toNat else .error ⟨entryRest e⟩
  | e => .error ⟨entryRest e⟩

/-- A number of 32 bits. -/
def readWord (e : Entry) : Except Fault UInt32 := do
  let n ← readCount e
  if n < UInt32.size then return UInt32.ofNat n else throw ⟨entryRest e⟩

/-- A truth value. -/
def readFlag (e : Entry) : Except Fault Bool :=
  match e with
  | .value (.boolean b) _ => .ok b
  | e => .error ⟨entryRest e⟩

/-- Change the setting with a name. -/
def apply (c : Config) (key : String) (e : Entry) : Except Fault Config :=
  match key with
  | "max_variables" => do return { c with maxVariables := ← readCount e }
  | "max_array_items" => do return { c with maxArrayItems := ← readCount e }
  | "max_call_depth" => do return { c with maxCallDepth := ← readCount e }
  | "rand_seed" => do return { c with randSeed := some (← readWord e) }
  | "keep_stat_text_on_goto" => do return { c with keepStatText := ← readFlag e }
  | _ => .ok c

/-- The settings of a table, in order. -/
def applyAll (c : Config) : Table → Except Fault Config
  | [] => .ok c
  | (key, e) :: rest => do applyAll (← c.apply key e) rest

/-- Read a configuration. -/
def read (cs : List Char) : Except Fault Config := do applyAll {} (← Toml.read cs)

/-- The message about a fault in a document. -/
def faultText (cs : List Char) (f : Fault) : String :=
  let (line, column) := Toml.position cs f.rest
  "TOML parse error at line " ++ toString line ++ ", column " ++ toString column

end QuestScript.Config
