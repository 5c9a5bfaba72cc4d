/-!
# `ScriptRefactor.Syntax.Span`: ranges of a text

A span is a half-open range of byte positions. Nothing forces its
ends into order: a span that stops before it starts is empty.
-/

set_option autoImplicit false

namespace ScriptRefactor.Syntax

/-- The bytes from `start` up to, and without, `stop`. -/
structure Span where
  /-- The first byte. -/
  start : Nat
  /-- The byte behind the last one. -/
  stop : Nat
deriving DecidableEq, Repr, Inhabited

namespace Span

/-- The number of bytes. -/
def length (s : Span) : Nat := s.stop - s.start

/-- No byte is in the span. -/
def isEmpty (s : Span) : Bool := s.stop ≤ s.start

/-- `other` lies within `s`. -/
def contains (s other : Span) : Bool := s.start ≤ other.start && other.stop ≤ s.stop

/-- A span as it is written in reports. -/
def text (s : Span) : String := toString s.start ++ ".." ++ toString s.stop

end Span

end ScriptRefactor.Syntax
