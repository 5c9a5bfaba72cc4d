import ScriptRefactor.Syntax.Tree

/-!
# `ScriptRefactor.Search.Pattern`: code with holes

A pattern is a piece of code in which some names are holes. `$NAME`
stands for one node, `$$NAME` for one node or token, and `$$$NAME`
for any number of them in a row; a name that starts with `_` is not
kept, and three dollars need no name. The pattern itself is parsed as
a module, and what it looks for is the innermost node that holds all
of it.
-/

set_option autoImplicit false

namespace ScriptRefactor.Search

open Syntax

/-! ### Holes -/

/-- What a hole stands for, and the name under which it is kept. -/
inductive Hole where
  /-- One node, or, if tokens count too, one token. -/
  | one (name? : Option String) (tokens : Bool)
  /-- Any number of nodes and tokens in a row. -/
  | many (name? : Option String)
deriving DecidableEq, Repr

namespace Hole

/-- A letter that may start a name. -/
def isFirst (c : Char) : Bool := ('A' ≤ c && c ≤ 'Z') || c = '_'

/-- A character of a name. -/
def isNameChar (c : Char) : Bool := isFirst c || c.isDigit

/-- The name under which a hole is kept. -/
def keptName? (name : List Char) : Option String :=
  if name.head? = some '_' then none else some (String.ofList name)

/-- The hole that stands for one node or token. -/
def oneOf? (name : List Char) (tokens : Bool) : Option Hole :=
  match name with
  | [] => none
  | c :: _ =>
    if isFirst c && name.all isNameChar then some (.one (keptName? name) tokens) else none

/-- The hole that a text writes. -/
def ofText? (text : String) : Option Hole :=
  match text.toList with
  | '$' :: '$' :: '$' :: name =>
    if name.isEmpty then some (.many none)
    else if name.all isNameChar then some (.many (keptName? name))
    else none
  | '$' :: '$' :: name => oneOf? name true
  | '$' :: name => oneOf? name false
  | _ => none

end Hole

/-! ### Patterns -/

/-- Code with holes. -/
inductive Pattern where
  /-- A hole. -/
  | hole (h : Hole)
  /-- A node without children, given by its kind and its text. -/
  | leaf (kind : Kind) (text : String)
  /-- A node with children. -/
  | branch (kind : Kind) (parts : List Pattern)
deriving Repr

namespace Pattern

mutual
/-- The pattern that a node writes. -/
def ofNode (t : Tree) : Node → Pattern
  | .mk label children =>
    match Hole.ofText? (t.slice label.span) with
    | some h => .hole h
    | none =>
      match children with
      | [] => .leaf label.kind (t.slice label.span)
      | c :: cs => .branch label.kind (ofNode t c :: ofNodes t cs)
/-- The patterns that nodes write. -/
def ofNodes (t : Tree) : List Node → List Pattern
  | [] => []
  | n :: ns => ofNode t n :: ofNodes t ns
end

/-- The innermost node that holds all of a node. -/
def innermost : Node → Node
  | .mk _ [child] => innermost child
  | n => n
termination_by n => sizeOf n
decreasing_by
  simp only [Node.mk.sizeOf_spec, List.cons.sizeOf_spec, List.nil.sizeOf_spec]
  omega

/-- The pattern of a module that is one statement, or a part of
one. -/
def ofTree? (t : Tree) : Option Pattern :=
  if t.root.children.length = 1 then some (ofNode t (innermost t.root)) else none

/-- A hole in place of the last part of an import. -/
def withLastHole (h : Hole) : Pattern → Option Pattern
  | branch kind parts =>
    if kind = .construct .importStatement then some (branch kind (parts.dropLast ++ [hole h]))
    else none
  | _ => none

/-- The pattern of an import whose source, at the end of the text, is a
hole without quotes. -/
def ofImport? (dialect : Dialect) (text : String) : Option Pattern :=
  match Text.splitLast? ' ' text.toList with
  | some (before, name) =>
    match Hole.ofText? (String.ofList name) with
    | some h =>
      match Tree.parse dialect none (String.ofList before ++ " \"\"") with
      | .ok t => (ofTree? t).bind (withLastHole h)
      | .error _ => none
    | none => none
  | none => none

/-- A pattern that nothing matches. -/
def unfinished : Pattern := branch (.token "") []

/-- The pattern that a text writes. The text has to be one statement,
or a part of one. One that breaks off is a pattern too, but nothing
matches it. -/
def parse? (dialect : Dialect) (text : String) : Option Pattern :=
  match Tree.parse dialect none text with
  | .ok t => ofTree? t
  | .error _ =>
    match ofImport? dialect text with
    | some p => some p
    | none => if Grammar.breaksOff dialect text then some unfinished else none

/-- The hole for a row of nodes. -/
def row? : Pattern → Option (Option String)
  | hole (.many name?) => some name?
  | _ => none

/-- A word or a mark. -/
def isToken : Pattern → Bool
  | leaf kind _ => !kind.isNamed
  | _ => false

end Pattern

end ScriptRefactor.Search
