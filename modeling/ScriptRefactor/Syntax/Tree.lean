import ScriptRefactor.Grammar.Program

/-!
# `ScriptRefactor.Syntax.Tree`: parsed modules

A parsed module is a text with its syntax tree. Positions are bytes
of the text, and the text of a node is the part of the source that it
covers.

* `Tree.parse` parses a text; a failure is placed by line and column.
* `lineOf`, `lineStart` and `indentAt` look at the line of a
  position; a position past the end counts as the end.
* `stringContent?` is the part of a string between its quotes.
-/

set_option autoImplicit false

namespace ScriptRefactor.Syntax

/-! ### Lines of a text -/

/-- The number of line feeds in the first `limit` bytes. -/
def feedsIn : List Char → Nat → Nat
  | [], _ => 0
  | _, 0 => 0
  | c :: cs, limit + 1 =>
    (if c = '\n' then 1 else 0) + feedsIn cs (limit + 1 - c.utf8Size)

/-- The byte behind the last line feed in the first `limit` bytes;
`found` if there is none, and `pos` bytes stand in front. -/
def behindLastFeed (found pos : Nat) : List Char → Nat → Nat
  | [], _ => found
  | _, 0 => found
  | c :: cs, limit + 1 =>
    behindLastFeed (if c = '\n' then pos + 1 else found) (pos + c.utf8Size) cs
      (limit + 1 - c.utf8Size)

/-- The line of a position, counted from 0. -/
def lineOf (text : String) (pos : Nat) : Nat := feedsIn text.toList pos

/-- The first byte of the line of a position. -/
def lineStart (text : String) (pos : Nat) : Nat := behindLastFeed 0 0 text.toList pos

/-- The spaces and tabs in front of the line of a position. -/
def indentAt (text : String) (pos : Nat) : String :=
  match Text.cutAt? text.toList (lineStart text pos) with
  | some (_, rest) => String.ofList (rest.takeWhile fun c => c = ' ' || c = '\t')
  | none => ""

/-! ### Parsed modules -/

/-- Why a text is no module. -/
inductive SyntaxError where
  /-- The text breaks a rule of the grammar; line and column count
  from 1, the column in bytes. -/
  | invalid (path : String) (line column : Nat)
  /-- No dialect goes by that name, or by the extension of that
  path. -/
  | unsupported (name : String)
deriving DecidableEq, Repr

/-- The wording of a failure. -/
def SyntaxError.message : SyntaxError → String
  | invalid path line column =>
    "Parse error in " ++ path ++ " at line " ++ toString line ++ ", column " ++ toString column
  | unsupported name => "Unsupported language: " ++ name

/-- A parsed module. -/
structure Tree where
  /-- The text of the module. -/
  source : String
  /-- Its syntax tree. -/
  root : Node
  /-- The dialect it is written in. -/
  dialect : Dialect
  /-- The path it was given. -/
  path? : Option String
deriving Repr

namespace Tree

/-- Parses the text of a module. -/
def parse (dialect : Dialect) (path? : Option String) (text : String) : Except SyntaxError Tree :=
  match Grammar.parse dialect text with
  | .ok root => .ok ⟨text, root, dialect, path?⟩
  | .error pos =>
    .error (.invalid (path?.getD "<memory>") (lineOf text pos + 1) (pos - lineStart text pos + 1))

/-- Parses the statements of a text that can be read; all of them, if
the text is a module. -/
def parseReadable (dialect : Dialect) (text : String) : Option Tree :=
  match Grammar.parseReadable dialect text with
  | .ok root => some ⟨text, root, dialect, none⟩
  | .error _ => none

/-- All nodes in document order, tokens included. -/
def nodes (t : Tree) : List Node := t.root.preorder

/-- The text that a span covers; empty if its ends are no positions
between characters, or out of order. -/
def slice (t : Tree) (span : Span) : String := (Text.slice? t.source span.start span.stop).getD ""

/-- The text that a node covers. -/
def text (t : Tree) (n : Node) : String := t.slice n.span

/-- The kind of the node has the name of a string or a template. -/
def isStringLike (n : Node) : Bool := n.kind.name = "string" || n.kind.name = "template_string"

/-- What stands between the quotes of a string or a template. -/
def stringContent? (n : Node) : Option Span :=
  if isStringLike n && n.start + 2 ≤ n.stop then some ⟨n.start + 1, n.stop - 1⟩ else none

/-- The text between the quotes. -/
def stringValue? (t : Tree) (n : Node) : Option String := (stringContent? n).map t.slice

end Tree

end ScriptRefactor.Syntax
