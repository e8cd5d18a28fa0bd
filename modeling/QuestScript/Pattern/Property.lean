import QuestScript.Pattern.CharSet
import QuestScript.Pattern.Tree

/-!
# Named properties

A pattern asks for a property by its name, or for a value of a property. Case, blanks, hyphens,
underscores and a leading `is` do not matter in names.
-/

namespace QuestScript.Pattern

/-- A name in the form under which properties are listed. -/
def normalName (name : String) : String :=
  let cs := name.toList
  let isIs := (cs.take 2).map Char.toLower == ['i', 's']
  let body := if isIs then cs.drop 2 else cs
  let kept := (body.filter fun c => c.toNat < 128 && c != ' ' && c != '_' && c != '-').map Char.toLower
  if isIs && kept == ['c'] then "isc" else String.ofList kept

/-- The long names of the general categories. -/
def categoryNames : List (String × String) :=
  [("uppercaseletter", "Lu"), ("lowercaseletter", "Ll"), ("titlecaseletter", "Lt"),
    ("modifierletter", "Lm"), ("otherletter", "Lo"), ("nonspacingmark", "Mn"),
    ("spacingmark", "Mc"), ("enclosingmark", "Me"), ("decimalnumber", "Nd"), ("digit", "Nd"),
    ("letternumber", "Nl"), ("othernumber", "No"), ("connectorpunctuation", "Pc"),
    ("dashpunctuation", "Pd"), ("openpunctuation", "Ps"), ("closepunctuation", "Pe"),
    ("initialpunctuation", "Pi"), ("finalpunctuation", "Pf"), ("otherpunctuation", "Po"),
    ("mathsymbol", "Sm"), ("currencysymbol", "Sc"), ("modifiersymbol", "Sk"),
    ("othersymbol", "So"), ("spaceseparator", "Zs"), ("lineseparator", "Zl"),
    ("paragraphseparator", "Zp"), ("control", "Cc"), ("cntrl", "Cc"), ("format", "Cf"),
    ("privateuse", "Co"), ("unassigned", "Cn")]

/-- The long names of the groups of categories. -/
def mainNames : List (String × Char) :=
  [("letter", 'L'), ("mark", 'M'), ("combiningmark", 'M'), ("number", 'N'), ("punctuation", 'P'),
    ("punct", 'P'), ("symbol", 'S'), ("separator", 'Z'), ("other", 'C'), ("l", 'L'), ("m", 'M'),
    ("n", 'N'), ("p", 'P'), ("s", 'S'), ("z", 'Z'), ("c", 'C')]

/-- The general category, or group of categories, with a name. -/
def categorySet? (name : String) : Option CharSet :=
  let ofShort (s : String) : Option CharSet :=
    match s.toList with
    | [main, sub] => some (.property (.category ⟨main, sub⟩))
    | _ => none
  let byShort := categoryNames.find? fun (_, short) => short.map Char.toLower == name
  match name with
  | "any" => some (.property .any)
  | "assigned" => some (.property .assigned)
  | "ascii" => some .ascii
  | "lc" | "casedletter" => some (.property .casedLetter)
  | _ =>
    match mainNames.lookup name with
    | some main => some (.property (.mainCategory main))
    | none => ((categoryNames.lookup name).or (byShort.map (·.2))).bind ofShort

/-- The script with a name. -/
def scriptSet? (name : String) : Option CharSet :=
  (Text.Script.ofName? name).map fun s => .property (.script s)

/-- The property, true or false of a character, with a name. -/
def binarySet? (name : String) : Option CharSet :=
  match name with
  | "alphabetic" | "alpha" => some (.property .alphabetic)
  | "uppercase" | "upper" => some (.property .uppercase)
  | "lowercase" | "lower" => some (.property .lowercase)
  | "whitespace" | "wspace" | "space" => some (.property .whiteSpace)
  | "asciihexdigit" | "ahex" =>
    some (.unions [CharSet.asciiDigit, .range 'A' 'F', .range 'a' 'f'])
  | _ => none

/-- The set a query asks for. -/
def PropertyQuery.resolve : PropertyQuery → Except PatternError CharSet
  | named name =>
    let name := normalName name
    match (binarySet? name).or ((categorySet? name).or (scriptSet? name)) with
    | some s => .ok s
    | none => .error .unknownProperty
  | valued name value differs =>
    let value := normalName value
    let found : Except PatternError (Option CharSet) :=
      match normalName name with
      | "generalcategory" | "gc" => .ok (categorySet? value)
      | "script" | "sc" | "scriptextensions" | "scx" => .ok (scriptSet? value)
      | _ => .error .unknownProperty
    match found with
    | .ok (some s) => .ok (s.complIf differs)
    | .ok none => .error .unknownPropertyValue
    | .error e => .error e

end QuestScript.Pattern
