import ScriptRefactor.Refactoring.ModuleLinks
import ScriptRefactor.Search.Scan

/-!
# `ScriptRefactor.Module.Role`: what a module is for

A module of an application is a *component*, if it imports the
component library and has a class that extends another one and can
render; else an *action*, if it imports the constants of its feature
and exports a reducer; and else anything else.
-/

set_option autoImplicit false

namespace ScriptRefactor

open Syntax

/-- What a module is for. -/
inductive ModuleRole where
  /-- It shows something; it may be connected to the state. -/
  | component (connected : Bool)
  /-- It changes the state, at once or in several steps. -/
  | action (isAsync : Bool)
  /-- Anything else. -/
  | misc
deriving DecidableEq, Repr

namespace ModuleRole

/-! ### Imports -/

/-- The imports of a source. -/
def importsOf (t : Tree) (source : String) : List Node :=
  (t.nodes.filter (Node.is · .importStatement)).filter (Refactoring.hasSource t source)

/-- The number of names in the list of an import. -/
def listedNames (t : Tree) (statement : Node) : Nat :=
  (t.nodes.filter (Node.is · .importSpecifier)).countP fun n =>
    statement.start ≤ n.start && n.stop ≤ statement.stop

/-- An import of more constants than this means that the action has
several steps. -/
def fewConstants : Nat := 3

/-- The last import of the constants lists more than a few of them. -/
def importsManyConstants (t : Tree) : Bool :=
  match (importsOf t "./constants").getLast? with
  | some n => fewConstants < listedNames t n
  | none => false

/-! ### Classes -/

/-- The member is a method that renders. -/
def isRender (t : Tree) (member : Node) : Bool :=
  member.is .methodDefinition &&
    match member.child? .name with
    | some name => t.text name = "render"
    | none => false

/-- The node is a class that extends another one and can render. -/
def isComponentClass (t : Tree) (n : Node) : Bool :=
  (n.kind.name = "class_declaration" || n.kind.name = "class")
    && n.namedChildren.any (Node.is · .classHeritage)
    && match n.child? .body with
      | some body => body.namedChildren.any (isRender t)
      | none => false

/-! ### The role -/

/-- The text occurs in the module as a pattern. -/
def occursIn (t : Tree) (pattern : String) : Bool :=
  match Search.Pattern.parse? t.dialect pattern with
  | some p => Search.occurs t p
  | none => false

/-- What a module is for. -/
def ofTree (t : Tree) : ModuleRole :=
  if !(importsOf t "react").isEmpty && t.nodes.any (isComponentClass t) then
    .component (occursIn t "connect($$$ARGS)")
  else if occursIn t "export function reducer($$$ARGS) \x7b $$$BODY \x7d"
      && !(importsOf t "./constants").isEmpty then
    .action (importsManyConstants t)
  else .misc

end ModuleRole

end ScriptRefactor
