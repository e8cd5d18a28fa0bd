import QuestScript.Text.Category

/-!
# Quoted names

A message that complains about a name shows it between double quotes, with everything that would not
be visible on its own spelled as an escape: the usual short forms for tab, line breaks and NUL, and
the code point in braces for other controls, for unassigned characters, and for characters that
would merge with the one before them.
-/

namespace QuestScript.Text

/-- Lower-case hexadecimal digits of a number. -/
def hexDigits (n : Nat) : List Char := Nat.toDigits 16 n

/-- A character as it stands between double quotes. -/
def quotedChar (c : Char) : List Char :=
  if c.toNat == 0 then ['\\', '0']
  else if c == '\t' then ['\\', 't']
  else if c == '\r' then ['\\', 'r']
  else if c == '\n' then ['\\', 'n']
  else if c == '\\' || c == '"' then ['\\', c]
  else if extendsGrapheme c || !isPrintable c then "\\u\x7b".toList ++ hexDigits c.toNat ++ ['}']
  else [c]

/-- A text between double quotes. -/
def quoted (s : String) : String := "\"" ++ String.ofList (s.toList.flatMap quotedChar) ++ "\""

end QuestScript.Text
