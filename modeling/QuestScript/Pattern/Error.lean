/-!
# Faults of patterns

What can be wrong with the text of a pattern, and its wording.
-/

namespace QuestScript

/-- The reasons for which a pattern is refused. -/
inductive PatternError where
  | backreference
  | badDecimal
  | badEscape
  | badFlag
  | badGroupName
  | badHexDigit
  | badRange
  | badRangeEnd
  | badRepetition
  | badScalar
  | badPropertyName
  | classEscape
  | danglingNegation
  | duplicateFlag
  | duplicateGroupName
  | emptyDecimal
  | emptyGroupName
  | emptyHex
  | endInEscape
  | endInFlags
  | endInGroupName
  | endInBoundary
  | lookAround
  | missingDecimal
  | missingExpression
  | notText
  | notUnicode
  | repeatedNegation
  | tooBig
  | tooDeep
  | unclosedBoundary
  | unclosedClass
  | unclosedGroup
  | unclosedRepetition
  | unknownBoundary
  | unknownProperty
  | unknownPropertyValue
  | unopenedGroup
deriving DecidableEq, Repr

namespace PatternError

/-- Most parentheses and brackets inside one another. -/
def nestLimit : Nat := 250

/-- Most room a compiled pattern may take, in bytes. -/
def sizeLimit : Nat := 10485760

/-- What is wrong, in words. -/
def description : PatternError → String
  | backreference => "backreferences are not supported"
  | badDecimal => "decimal literal invalid"
  | badEscape => "unrecognized escape sequence"
  | badFlag => "unrecognized flag"
  | badGroupName => "invalid capture group character"
  | badHexDigit => "invalid hexadecimal digit"
  | badRange => "invalid character class range, the start must be <= the end"
  | badRangeEnd => "invalid range boundary, must be a literal"
  | badRepetition => "invalid repetition count range, the start must be <= the end"
  | badScalar => "hexadecimal literal is not a Unicode scalar value"
  | badPropertyName => "invalid Unicode character class"
  | classEscape => "invalid escape sequence found in character class"
  | danglingNegation => "dangling flag negation operator"
  | duplicateFlag => "duplicate flag"
  | duplicateGroupName => "duplicate capture group name"
  | emptyDecimal => "decimal literal empty"
  | emptyGroupName => "empty capture group name"
  | emptyHex => "hexadecimal literal empty"
  | endInEscape => "incomplete escape sequence, reached end of pattern prematurely"
  | endInFlags => "expected flag but got end of regex"
  | endInGroupName => "unclosed capture group name"
  | endInBoundary =>
    "found either the beginning of a special word boundary or a bounded repetition on a \\b with " ++
      "an opening brace, but no closing brace"
  | lookAround => "look-around, including look-ahead and look-behind, is not supported"
  | missingDecimal => "repetition quantifier expects a valid decimal"
  | missingExpression => "repetition operator missing expression"
  | notText => "pattern can match invalid UTF-8"
  | notUnicode => "Unicode not allowed here"
  | repeatedNegation => "flag negation operator repeated"
  | tooBig => "Compiled regex exceeds size limit of " ++ toString sizeLimit ++ " bytes."
  | tooDeep =>
    "exceed the maximum number of nested parentheses/brackets (" ++ toString nestLimit ++ ")"
  | unclosedBoundary =>
    "special word boundary assertion is either unclosed or contains an invalid character"
  | unclosedClass => "unclosed character class"
  | unclosedGroup => "unclosed group"
  | unclosedRepetition => "unclosed counted repetition"
  | unknownBoundary =>
    "unrecognized special word boundary assertion, valid choices are: start, end, start-half or " ++
      "end-half"
  | unknownProperty => "Unicode property not found"
  | unknownPropertyValue => "Unicode property value not found"
  | unopenedGroup => "unopened group"

/-- The message about a refused pattern. -/
def message : PatternError → String
  | tooBig => tooBig.description
  | e => "error: " ++ e.description

end PatternError

end QuestScript
