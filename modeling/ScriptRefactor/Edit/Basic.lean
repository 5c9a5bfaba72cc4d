import ScriptRefactor.Notice
import ScriptRefactor.Syntax.Node

/-!
# `ScriptRefactor.Edit.Basic`: changes of a text

An edit replaces the bytes of a span by a text; one with an empty
span inserts. Nothing forces the ends of the span into order or into
the text. Positions are always those of the text before any edit.
-/

set_option autoImplicit false

namespace ScriptRefactor

open Syntax

/-- The bytes from `start` up to `stop` are to be replaced. -/
structure Edit where
  /-- The first byte replaced. -/
  start : Nat
  /-- The byte behind the last one replaced. -/
  stop : Nat
  /-- The text that takes their place. -/
  replacement : String
deriving DecidableEq, Repr, Inhabited

namespace Edit

/-- A text put in at a position. -/
def insert (pos : Nat) (text : String) : Edit := ⟨pos, pos, text⟩

/-- The bytes of a range dropped. -/
def delete (start stop : Nat) : Edit := ⟨start, stop, ""⟩

/-- A text in place of a span. -/
def replace (span : Span) (text : String) : Edit := ⟨span.start, span.stop, text⟩

/-- A text in place of a node. -/
def replaceNode (n : Node) (text : String) : Edit := replace n.span text

/-- A node dropped. -/
def deleteNode (n : Node) : Edit := delete n.start n.stop

/-- The bytes the edit replaces. -/
def span (e : Edit) : Span := ⟨e.start, e.stop⟩

/-- The edit only puts text in. -/
def isInsertion (e : Edit) : Bool := e.start = e.stop

end Edit

/-- The edits of an operation, and what it reports beside them. -/
structure Changes where
  /-- The edits, in the order in which they were found. -/
  edits : List Edit
  /-- What is reported. -/
  notices : List Notice
deriving DecidableEq, Repr

namespace Changes

/-- Edits with nothing to report. -/
def ofEdits (edits : List Edit) : Changes := ⟨edits, []⟩

/-- No edit, but something to report. -/
def onlyNotice (n : Notice) : Changes := ⟨[], [n]⟩

/-- The changes of one operation and then those of another. -/
def append (a b : Changes) : Changes := ⟨a.edits ++ b.edits, a.notices ++ b.notices⟩

end Changes

end ScriptRefactor
