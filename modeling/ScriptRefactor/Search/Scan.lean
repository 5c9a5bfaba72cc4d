import ScriptRefactor.Search.Match

/-!
# `ScriptRefactor.Search.Scan`: all matches of a pattern

`scan` tries a pattern at every node of a text, in document order,
and lists the matches with the texts that the holes stand for.
-/

set_option autoImplicit false

namespace ScriptRefactor.Search

open Syntax

/-- A node that matches a pattern. -/
structure Match where
  /-- The text of the node. -/
  text : String
  /-- The bytes it covers. -/
  span : Span
  /-- The line where it starts, counted from 0. -/
  line : Nat
  /-- The names of the holes with the texts they stand for. -/
  captures : List (String × String)
deriving DecidableEq, Repr

/-- The text that a hole stands for. -/
def Match.capture? (m : Match) (name : String) : Option String :=
  (m.captures.find? fun e => e.1 = name).map Prod.snd

/-- The match of a pattern at a node. -/
def matchAt? (t : Tree) (p : Pattern) (n : Node) : Option Match :=
  (captures? t p n).map fun c => ⟨t.text n, n.span, lineOf t.source n.start, c.texts t⟩

/-- All matches of a pattern in a module. -/
def scan (t : Tree) (p : Pattern) : List Match := t.nodes.filterMap (matchAt? t p)

/-- The pattern matches somewhere in a module. -/
def occurs (t : Tree) (p : Pattern) : Bool := t.nodes.any fun n => (matchAt? t p n).isSome

/-- The text that a hole stands for in the first match that has it. -/
def extract? (ms : List Match) (name : String) : Option String := ms.findSome? (·.capture? name)

/-- All matches of a pattern in a text. A text that is no module is
searched as far as its statements can be read. -/
def scanText (dialect : Dialect) (text : String) (p : Pattern) : List Match :=
  match Tree.parseReadable dialect text with
  | some t => scan t p
  | none => []

end ScriptRefactor.Search
