import ScriptRefactor.Refactoring.ModuleLinks

/-!
# `ScriptRefactor.Refactoring.Exports`: names for other modules

The entries of an export list have a name and may give another one to
the outside. Adding names joins an export from the same source; the
default of that module goes in front of the list, under a name of its
own. Removing names removes the whole export when none is left.
-/

set_option autoImplicit false

namespace ScriptRefactor.Refactoring

open Syntax

/-- The text of the name of an entry. -/
def entryName (t : Tree) (specifier : Node) : String :=
  ((specifier.child? .name).map t.text).getD ""

/-- The name of an entry outside the module. -/
def exportedName (t : Tree) (specifier : Node) : String :=
  (((specifier.child? .alias).or (specifier.child? .name)).map t.text).getD ""

/-- The entries for a default and for names. -/
def exportEntries (default? : Option String) (named : List String) : List String :=
  (default?.map ("default as " ++ ·)).toList ++ named

/-- A new export behind the last one from a source, or else behind
the last of all. -/
def newExport (t : Tree) (source : String) (entries : List String) : List Edit :=
  if entries.isEmpty then []
  else
    let quote := quoteStyle t
    let line := "export " ++ braced entries ++ " from " ++ quote ++ source ++ quote
      ++ semicolonStyle t (reexportsOf t ++ importsOf t)
    insertStatements t ((reexportsOf t).getLast?.or (exportsOf t).getLast?) [line]

/-- Takes names into an export list that is there. -/
def extendExport (t : Tree) (clause : Node) (default? : Option String) (named : List String) :
    List Edit :=
  let specifiers := clause.childrenOf .exportSpecifier
  let exported := specifiers.map (exportedName t)
  let hasDefault := specifiers.any fun s => (s.child? .name).any (t.text · = "default")
  let newDefault := default?.filter fun d => !hasDefault && !(exported.contains d)
  let newNamed := named.filter fun n => !(exported.contains n)
  if specifiers.isEmpty then
    let entries := exportEntries newDefault newNamed
    if entries.isEmpty then [] else [.replaceNode clause (braced entries)]
  else
    let layout := ListLayout.of t clause specifiers
    let front := newDefault.bind fun d => layout.prepend? specifiers ("default as " ++ d)
    front.toList ++ (layout.append? specifiers newNamed).toList

/-- Adds an export of the default and of names from a source. -/
def addExport (t : Tree) (source : String) (default? : Option String) (named : List String) :
    List Edit :=
  let default? := usedName? default?
  let named := usedNames named
  let clause? := ((reexportsOf t).filter (hasSource t source)).findSome? fun s =>
    s.childOf? .exportClause
  match clause? with
  | some clause => extendExport t clause default? named
  | none => newExport t source (exportEntries default? named)

/-- The exports with a list, wherever they stand, of the given source
or of any. -/
def exportLists (t : Tree) (source? : Option String) : List (Node × Node) :=
  (t.nodes.filter (Node.is · .exportStatement)).filterMap fun s =>
    if source?.all fun source => hasSource t source s then
      (s.childOf? .exportClause).map fun clause => (s, clause)
    else none

/-- Removes the entries that have one of the names, inside or
outside. -/
def removeExported (t : Tree) (names : List String) (source? : Option String) : List Edit :=
  (exportLists t source?).flatMap fun (statement, clause) =>
    let specifiers := clause.childrenOf .exportSpecifier
    let gone (s : Node) : Bool :=
      names.contains (entryName t s) || names.contains (exportedName t s)
    if !(specifiers.any gone) then []
    else if specifiers.all gone then [.deleteNode statement]
    else removeItems specifiers gone

/-- Renames the name of an entry, or else its name outside. -/
def renameExported (t : Tree) (old new : String) (source? : Option String) : List Edit :=
  (exportLists t source?).flatMap fun (_, clause) =>
    (clause.childrenOf .exportSpecifier).filterMap fun s =>
      let called (role : Role) : Option Node := (s.child? role).filter fun n => t.text n = old
      ((called .name).or (called .alias)).map (.replaceNode · new)

end ScriptRefactor.Refactoring
