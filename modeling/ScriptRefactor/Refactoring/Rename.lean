import ScriptRefactor.Edit.Basic
import ScriptRefactor.Scope.Build
import ScriptRefactor.Syntax.Tree

/-!
# `ScriptRefactor.Refactoring.Rename`: names changed with their uses

`renameIdentifier` renames a declaration and all that refers to it;
names that another declaration binds stay as they are. Where a name
does two jobs, only the one that the declaration governs is renamed:

* a property written in short becomes a property of the old name
  with the new one as its value;
* a name in an export list is exported under the old name still.

Classes and functions are found by the name of their first
declaration.
-/

set_option autoImplicit false

namespace ScriptRefactor.Refactoring

open Syntax

/-- The node is the name in an export list that gives no other name
for it. -/
def isLocalExport (parent node : Node) : Bool :=
  parent.is .exportSpecifier && (parent.child? .alias).isNone
    && (parent.child? .name).any (·.id = node.id)

/-- The text in place of an occurrence of `old`. -/
def renamedText (old new : String) (parent node : Node) : String :=
  if node.is .shorthandPropertyIdentifier || node.is .shorthandPropertyIdentifierPattern then
    old ++ ": " ++ new
  else if isLocalExport parent node then new ++ " as " ++ old
  else new

/-- Renames every occurrence of `old` that refers to the declaration
`decl`. -/
def renameIdentifier (t : Tree) (old new : String) (decl : Node) : List Edit :=
  if old = new then []
  else
    let scopes := Scopes.ofTree t.root
    t.root.withParents.filterMap fun (node, parent) =>
      if node.kind.isName && t.text node = old
          && (scopes.resolve? node).any (·.node = decl.id) then
        some (Edit.replaceNode node (renamedText old new parent node))
      else none

/-- The name of the first of some constructs that is called
`name`. -/
def findDeclaration? (t : Tree) (kinds : List Construct) (name : String) : Option Node :=
  (t.nodes.filter fun n => kinds.any n.is).findSome? fun n =>
    (n.child? .name).filter fun own => t.text own = name

/-- Renames the first declaration of one of the kinds, and its
uses. -/
def renameDeclared (t : Tree) (kinds : List Construct) (old new : String) : List Edit :=
  match findDeclaration? t kinds old with
  | some decl => renameIdentifier t old new decl
  | none => []

/-- Renames the first class of a name, and its uses. -/
def renameClass (t : Tree) (old new : String) : List Edit :=
  renameDeclared t [.classDeclaration, .abstractClassDeclaration] old new

/-- Renames the first function of a name, and its uses. -/
def renameFunction (t : Tree) (old new : String) : List Edit :=
  renameDeclared t [.functionDeclaration, .generatorFunctionDeclaration] old new

end ScriptRefactor.Refactoring
