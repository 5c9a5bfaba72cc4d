import ScriptRefactor.Syntax.Node

/-!
# `ScriptRefactor.Scope.Basic`: scopes and what they bind

The scopes of a module form a tree: every scope but the one of the
whole module has an enclosing scope. A scope binds names; the first
declaration of a name in a scope is the one that counts. Every node
that names something is looked up from one scope.

* `Scopes.lookup?` finds a name, from a scope outward.
* `Scopes.resolve?` finds the declaration that a node refers to,
  wherever in its scope it stands.
* `Scopes.declare`, `open` and `place` are the steps that build a
  tree of scopes.
-/

set_option autoImplicit false

namespace ScriptRefactor

open Syntax

/-- What opened a scope. -/
inductive ScopeKind where
  /-- The module as a whole. -/
  | program
  /-- A function, a function with an arrow or a method. -/
  | function
  /-- A class or its body. -/
  | classBody
  /-- Statements in braces. -/
  | block
  /-- The head and the body of a loop. -/
  | loop
  /-- The handler of a failure. -/
  | handler
deriving DecidableEq, Repr, Inhabited

/-- How a name was declared. -/
inductive BindingKind where
  | var | let | const | function | classLike | parameter | imported | caught | type
deriving DecidableEq, Repr

/-- A declared name. -/
structure Binding where
  /-- The name. -/
  name : String
  /-- The number of the declaring node. -/
  node : Nat
  /-- Where the declaring node stands. -/
  span : Span
  /-- How the name was declared. -/
  kind : BindingKind
deriving DecidableEq, Repr

/-- One scope. -/
structure Scope where
  /-- The enclosing scope. -/
  parent? : Option Nat
  /-- What opened the scope. -/
  kind : ScopeKind
  /-- The span of the node that opened it. -/
  span : Span
  /-- The names declared in it, in the order of their
  declaration. -/
  bindings : List Binding
deriving DecidableEq, Repr, Inhabited

namespace Scope

/-- The declaration of a name in this scope. -/
def find? (s : Scope) (name : String) : Option Binding := s.bindings.find? (·.name = name)

/-- The scope with one more declaration, unless it binds the name
already. -/
def add (s : Scope) (b : Binding) : Scope :=
  if (s.find? b.name).isSome then s else { s with bindings := s.bindings ++ [b] }

end Scope

/-- The scopes of a module, numbered in the order in which they were
opened, and the scopes of its naming nodes. -/
structure Scopes where
  /-- All scopes. -/
  scopes : List Scope
  /-- For each naming node the scope it is looked up from, the latest
  entry first. -/
  places : List (Nat × Nat)
deriving DecidableEq, Repr, Inhabited

namespace Scopes

/-! ### Looking names up -/

/-- The scope from which the node of that number is looked up. -/
def scopeOf? (t : Scopes) (node : Nat) : Option Nat :=
  (t.places.find? (·.1 = node)).map Prod.snd

/-- Looks a name up in a scope and at most `fuel` scopes around
it. -/
def lookupFuel? (t : Scopes) (name : String) : Nat → Nat → Option Binding
  | 0, _ => none
  | fuel + 1, scope =>
    match t.scopes[scope]? with
    | none => none
    | some s =>
      match s.find? name, s.parent? with
      | some b, _ => some b
      | none, some parent => t.lookupFuel? name fuel parent
      | none, none => none

/-- The declaration of a name as seen from a scope: the one of the
nearest scope that declares it. No chain of enclosing scopes is
longer than the list of scopes. -/
def lookup? (t : Scopes) (scope : Nat) (name : String) : Option Binding :=
  t.lookupFuel? name t.scopes.length scope

/-- The declaration that a naming node refers to. -/
def resolve? (t : Scopes) (n : Node) : Option Binding :=
  (t.scopeOf? n.id).bind fun scope => t.lookup? scope n.lexeme

/-! ### Building -/

/-- The nearest function or module around a scope, among at most
`fuel` scopes. -/
def hoistFuel (t : Scopes) : Nat → Nat → Nat
  | 0, scope => scope
  | fuel + 1, scope =>
    match t.scopes[scope]? with
    | none => scope
    | some s =>
      match s.kind, s.parent? with
      | .function, _ | .program, _ | _, none => scope
      | _, some parent => t.hoistFuel fuel parent

/-- The scope that a declaration with `var` goes to: the nearest
function or module. -/
def hoist (t : Scopes) (scope : Nat) : Nat := t.hoistFuel t.scopes.length scope

/-- A new scope for a node, and its number. -/
def openScope (t : Scopes) (kind : ScopeKind) (span : Span) (parent? : Option Nat) :
    Scopes × Nat :=
  ({ t with scopes := t.scopes ++ [⟨parent?, kind, span, []⟩] }, t.scopes.length)

/-- The node is looked up from the scope, unless it has one. -/
def place (t : Scopes) (node scope : Nat) : Scopes :=
  if (t.scopeOf? node).isSome then t else { t with places := (node, scope) :: t.places }

/-- The node declares its text in the scope, and is looked up from
there. A node that names nothing declares nothing. -/
def declare (t : Scopes) (n : Node) (scope : Nat) (kind : BindingKind) : Scopes :=
  if n.kind.isName then
    { scopes := t.scopes.modify scope (·.add ⟨n.lexeme, n.id, n.span, kind⟩)
      places := (n.id, scope) :: t.places }
  else t

end Scopes

end ScriptRefactor
