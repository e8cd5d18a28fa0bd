import QuestScript.Span

/-!
# Errors

An error has a *kind*, which fixes its number and its wording, and often a *detail* that names the
offender. Errors found while an expression is read also know where.

A change of location stops the running code in the same way as an error does; it is the one kind
that only steers control and is never reported.
-/

namespace QuestScript

/-! ## Kinds -/

/-- What can go wrong. -/
inductive ErrorKind where
  | divisionByZero
  | typeMismatch
  | stackOverflow
  | tooManyItems
  | unreadableFile
  | noGame
  | missingColon
  | actionsFull
  | missingEquals
  | unknownLocation
  | missingEnd
  | unknownLabel
  | badName
  | missingQuote
  | missingBracket
  | missingBrackets
  | badSyntax
  | unknownAction
  | argumentCount
  | objectsFull
  | menuFull
  | tooManyVariables
  | badPattern
  | missingCode
  | missingWhile
  | locationChanged
deriving DecidableEq, Repr

namespace ErrorKind

/-- The number a host sees; a change of location has none. -/
def code : ErrorKind → Nat
  | divisionByZero => 100
  | typeMismatch => 101
  | stackOverflow => 102
  | tooManyItems => 103
  | unreadableFile => 104
  | noGame => 105
  | missingColon => 106
  | actionsFull => 108
  | missingEquals => 109
  | unknownLocation => 110
  | missingEnd => 111
  | unknownLabel => 112
  | badName => 113
  | missingQuote => 114
  | missingBracket => 115
  | missingBrackets => 116
  | badSyntax => 117
  | unknownAction => 118
  | argumentCount => 119
  | objectsFull => 120
  | menuFull => 121
  | tooManyVariables => 122
  | badPattern => 123
  | missingCode => 124
  | missingWhile => 125
  | locationChanged => 0

/-- The wording of the kind. -/
def description : ErrorKind → String
  | divisionByZero => "division by zero"
  | typeMismatch => "type mismatch"
  | stackOverflow => "stack overflow"
  | tooManyItems => "too many items"
  | unreadableFile => "can't load file"
  | noGame => "game not loaded"
  | missingColon => "sign [:] not found"
  | actionsFull => "can't add action"
  | missingEquals => "sign [=] not found"
  | unknownLocation => "location not found"
  | missingEnd => "[end] not found"
  | unknownLabel => "label not found"
  | badName => "incorrect variable name"
  | missingQuote => "quote not found"
  | missingBracket => "bracket not found"
  | missingBrackets => "brackets not found"
  | badSyntax => "syntax error"
  | unknownAction => "unknown action"
  | argumentCount => "incorrect arguments count"
  | objectsFull => "can't add object"
  | menuFull => "can't add menu item"
  | tooManyVariables => "too many variables"
  | badPattern => "incorrect regular expression"
  | missingCode => "code not found"
  | missingWhile => "[while] not found"
  | locationChanged => "execution aborted by a location change"

/-- The short name of the kind in listings. -/
def tag : ErrorKind → String
  | divisionByZero => "DivByZero"
  | typeMismatch => "TypeMismatch"
  | stackOverflow => "StackOverflow"
  | tooManyItems => "TooManyItems"
  | unreadableFile => "CantLoadFile"
  | noGame => "GameNotLoaded"
  | missingColon => "ColonNotFound"
  | actionsFull => "CantAddAction"
  | missingEquals => "EqNotFound"
  | unknownLocation => "LocNotFound"
  | missingEnd => "EndNotFound"
  | unknownLabel => "LabelNotFound"
  | badName => "IncorrectName"
  | missingQuote => "QuotNotFound"
  | missingBracket => "BrackNotFound"
  | missingBrackets => "BracksNotFound"
  | badSyntax => "Syntax"
  | unknownAction => "UnknownAction"
  | argumentCount => "ArgsCount"
  | objectsFull => "CantAddObject"
  | menuFull => "CantAddMenuItem"
  | tooManyVariables => "TooManyVars"
  | badPattern => "IncorrectRegExp"
  | missingCode => "CodeNotFound"
  | missingWhile => "LoopWhileNotFound"
  | locationChanged => "Aborted"

/-- Whether the kind only steers control and is never reported. -/
def isControl (k : ErrorKind) : Bool := k == locationChanged

/-- All kinds. -/
def all : List ErrorKind :=
  [divisionByZero, typeMismatch, stackOverflow, tooManyItems, unreadableFile, noGame, missingColon,
    actionsFull, missingEquals, unknownLocation, missingEnd, unknownLabel, badName, missingQuote,
    missingBracket, missingBrackets, badSyntax, unknownAction, argumentCount, objectsFull, menuFull,
    tooManyVariables, badPattern, missingCode, missingWhile, locationChanged]

theorem mem_all (k : ErrorKind) : k ∈ all := by cases k <;> decide

/-- The kind with a given short name. -/
def ofTag? (s : String) : Option ErrorKind := all.find? fun k => k.tag == s

end ErrorKind

/-! ## Errors of a running script -/

/-- An error: its kind and what the message adds to the wording of the kind. -/
structure Error where
  kind : ErrorKind
  detail : Option String := none
deriving DecidableEq, Repr

namespace Error

/-- The wording of the kind, followed by the detail if there is one. -/
def message (e : Error) : String :=
  match e.detail with
  | none => e.kind.description
  | some d => e.kind.description ++ ": " ++ d

/-- The message with the number of the kind in front. -/
def text (e : Error) : String := "Runtime error " ++ toString e.kind.code ++ ": " ++ e.message

end Error

/-! ## Errors in an expression that is being read -/

/-- An error in an expression, found while it is cut into tokens or while it is compiled. -/
inductive SourceError where
  | token (error : Error) (span : Span)
  | expression (error : Error) (span : Span)
deriving DecidableEq, Repr

namespace SourceError

/-- The error a running script reports when it meets a text with this one. -/
def error : SourceError → Error
  | token e _ | expression e _ => e

def span : SourceError → Span
  | token _ s | expression _ s => s

/-- The message with the place of the error in front. -/
def text : SourceError → String
  | token e s => "Lexer error at " ++ s.text ++ ": " ++ e.message
  | expression e s => "Expression error at " ++ s.text ++ ": " ++ e.message

end SourceError

end QuestScript
