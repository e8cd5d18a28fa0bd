import QuestScript.Text.Offset

/-!
# Spans

A span is a range of byte offsets inside one line of code or one expression.
-/

namespace QuestScript

/-- Bytes `start` up to, not including, `stop`. -/
structure Span where
  start : Nat
  stop : Nat
deriving DecidableEq, Repr, Inhabited

namespace Span

/-- The least span that covers both. -/
def merge (a b : Span) : Span := ⟨min a.start b.start, max a.stop b.stop⟩

/-- The span in a text of which the given one describes the part from `base` on. -/
def offset (s : Span) (base : Nat) : Span := ⟨s.start + base, s.stop + base⟩

def isEmpty (s : Span) : Bool := s.stop ≤ s.start

/-- The text covered by the span, empty when the span is not inside the text. -/
def slice (s : Span) (cs : List Char) : List Char := (Text.slice? cs s.start s.stop).getD []

def text (s : Span) : String := toString s.start ++ ".." ++ toString s.stop

end Span

end QuestScript
