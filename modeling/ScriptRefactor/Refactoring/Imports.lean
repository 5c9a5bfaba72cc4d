import ScriptRefactor.Refactoring.ModuleLinks
import ScriptRefactor.Refactoring.Rename

/-!
# `ScriptRefactor.Refactoring.Imports`: names from other modules

An import binds a default name, a namespace, or names in a list, in
this order. Adding names joins an import that is there and skips the
names it binds already; a namespace and a list do not go together,
so one of them then takes a statement of its own. Removing names
removes the whole import when none is left.
-/

set_option autoImplicit false

namespace ScriptRefactor.Refactoring

open Syntax

/-! ### The parts of an import -/

/-- What an import binds. -/
structure ImportParts where
  /-- The whole import. -/
  statement : Node
  /-- What stands between `import` and `from`. -/
  clause : Node
  /-- The default name. -/
  default? : Option Node
  /-- The whole module under one name, with its mark. -/
  whole? : Option Node
  /-- The list in braces. -/
  list? : Option Node
  /-- The entries of the list. -/
  specifiers : List Node

namespace ImportParts

/-- The parts of an import that binds anything. -/
def of? (statement : Node) : Option ImportParts :=
  (statement.childOf? .importClause).map fun clause =>
    let list? := clause.childOf? .namedImports
    { statement, clause
      default? := clause.childOf? .identifier
      whole? := clause.childOf? .namespaceImport
      list?
      specifiers := (list?.map (Node.childrenOf · .importSpecifier)).getD [] }

/-- The name of the namespace. -/
def wholeName? (p : ImportParts) : Option Node :=
  p.whole?.bind (Node.childOf? · .identifier)

end ImportParts

/-- The name an entry of a list binds here: its new name, or else its
own. -/
def localName? (specifier : Node) : Option Node :=
  (specifier.child? .alias).or (specifier.child? .name)

/-- All names an import binds. -/
def ImportParts.locals (p : ImportParts) (t : Tree) : List String :=
  (p.default?.toList ++ p.wholeName?.toList ++ p.specifiers.filterMap localName?).map t.text

/-! ### Adding -/

/-- New imports: one, or two if a namespace and a list come
together. -/
def importLines (t : Tree) (source : String) (default? whole? : Option String)
    (named : List String) : List String :=
  let quoted := quoteStyle t ++ source ++ quoteStyle t ++ semicolonStyle t (importsOf t)
  let line (clause : List String) : String :=
    if clause.isEmpty then "import " ++ quoted
    else "import " ++ ", ".intercalate clause ++ " from " ++ quoted
  let head := default?.toList ++ (whole?.map ("* as " ++ ·)).toList
  if named.isEmpty then [line head]
  else if whole?.isSome then [line head, line [braced named]]
  else [line (head ++ [braced named])]

/-- What an import that is there takes in, and what it cannot: the
whole module and names for statements of their own. -/
structure JoinedNames where
  /-- The edits of the import. -/
  edits : List Edit
  /-- The namespace left over. -/
  whole? : Option String
  /-- The names left over. -/
  named : List String

/-- Takes a namespace and names into an import. -/
def joinNames (t : Tree) (p : ImportParts) (whole? : Option String) (named : List String) :
    JoinedNames :=
  match p.list?, p.whole?, p.default? with
  | some list, _, _ =>
    let edits :=
      if p.specifiers.isEmpty then
        if named.isEmpty then [] else [.replaceNode list (braced named)]
      else ((ListLayout.of t list p.specifiers).append? p.specifiers named).toList
    ⟨edits, whole?, []⟩
  | none, some _, _ => ⟨[], none, named⟩
  | none, none, some default =>
    match whole? with
    | some ns => ⟨[.insert default.stop (", * as " ++ ns)], none, named⟩
    | none =>
      ⟨if named.isEmpty then [] else [.insert default.stop (", " ++ braced named)], none, []⟩
  | none, none, none => ⟨[], none, []⟩

/-- Takes names into an import that is there. -/
def extendImport (t : Tree) (p : ImportParts) (source : String)
    (default? whole? : Option String) (named : List String) : List Edit :=
  let locals := p.locals t
  let fresh (name : String) : Bool := !(locals.contains name)
  let newDefault := default?.filter fun d => p.default?.isNone && fresh d
  let newWhole := whole?.filter fun n => p.whole?.isNone && fresh n
  let joined := joinNames t p newWhole (named.filter fresh)
  let front := newDefault.map fun d => Edit.insert p.clause.start (d ++ ", ")
  let separate :=
    if joined.whole?.isNone && joined.named.isEmpty then []
    else
      insertStatements t (importsOf t).getLast?
        (importLines t source none joined.whole? joined.named)
  front.toList ++ joined.edits ++ separate

/-- Adds a default name, names of a list and a namespace from a
source. -/
def addImport (t : Tree) (source : String) (default? : Option String) (named : List String)
    (whole? : Option String) : List Edit :=
  let default? := usedName? default?
  let whole? := usedName? whole?
  let named := usedNames named
  match ((importsOf t).filter (hasSource t source)).findSome? ImportParts.of? with
  | some p => extendImport t p source default? whole? named
  | none =>
    insertStatements t (importsOf t).getLast? (importLines t source default? whole? named)

/-! ### Removing -/

/-- The edits that remove names from an import in which others
stay. -/
def removeParts (p : ImportParts) (defaultGone wholeGone : Bool) (gone : Node → Bool) :
    List Edit :=
  let defaultLeft := p.default?.filter fun _ => !defaultGone
  let front := do
    let default ← p.default?
    let next ← p.whole?.or p.list?
    if defaultGone then some (Edit.delete default.start next.start) else none
  let middle := do
    let default ← defaultLeft
    let ns ← p.whole?
    if wholeGone then some (Edit.delete default.stop ns.stop) else none
  let entries :=
    if !(p.specifiers.any gone) then []
    else if p.specifiers.all gone then
      match defaultLeft, p.list? with
      | some default, some list => [.delete default.stop list.stop]
      | _, _ => []
    else removeItems p.specifiers gone
  front.toList ++ middle.toList ++ entries

/-- Removes names from one import. -/
def removeFromImport (t : Tree) (names : List String) (p : ImportParts) : List Edit :=
  let named (n? : Option Node) : Bool := n?.any fun n => names.contains (t.text n)
  let gone (specifier : Node) : Bool := named (localName? specifier)
  let defaultGone := named p.default?
  let wholeGone := named p.wholeName?
  if !defaultGone && !wholeGone && !(p.specifiers.any gone) then []
  else
    let defaultLeft := p.default?.isSome && !defaultGone
    let wholeLeft := p.whole?.isSome && !wholeGone
    if !defaultLeft && !wholeLeft && p.specifiers.all gone then [.deleteNode p.statement]
    else removeParts p defaultGone wholeGone gone

/-- Removes the imports of the given local names. -/
def removeImported (t : Tree) (names : List String) : List Edit :=
  ((t.nodes.filter (Node.is · .importStatement)).filterMap ImportParts.of?).flatMap
    (removeFromImport t names)

/-- Removes all imports and exports from a source. -/
def removeLinks (t : Tree) (source : String) : List Edit :=
  ((linksOf t).filter (hasSource t source)).map .deleteNode

/-! ### Renaming -/

/-- What a new name means for an entry of a list: only the name in
the other module, or a declaration here. -/
def entryToRename? (t : Tree) (old : String) (specifier : Node) : Option (Node ⊕ Node) :=
  ((specifier.child? .name).filter fun n => t.text n = old).map fun own =>
    match specifier.child? .alias with
    | some renamed => if t.text renamed = old then .inr renamed else .inl own
    | none => .inr own

/-- Renames an imported name. The local name and its uses change,
unless the import gives the name another one here. -/
def renameImported (t : Tree) (old new : String) (source? : Option String) : List Edit :=
  let chosen := (importsOf t).filter fun s => source?.all fun source => hasSource t source s
  let parts := chosen.filterMap ImportParts.of?
  let foreign := parts.flatMap fun p => p.specifiers.filterMap fun s =>
    (entryToRename? t old s).bind fun e => e.getLeft?
  let declared := parts.flatMap fun p =>
    (p.default?.toList ++ p.wholeName?.toList).filter (t.text · = old)
      ++ p.specifiers.filterMap fun s => (entryToRename? t old s).bind fun e => e.getRight?
  foreign.map (.replaceNode · new) ++ declared.flatMap (renameIdentifier t old new)

/-- Renames the name that an import gives to a name of the other
module, and its uses. -/
def renameAlias (t : Tree) (old new : String) : List Edit :=
  ((t.nodes.filter (Node.is · .importSpecifier)).filterMap (·.child? .alias)).flatMap fun own =>
    if t.text own = old then renameIdentifier t old new own else []

/-- Renames the source of all links that name it. -/
def renameSource (t : Tree) (old new : String) : List Edit :=
  ((linksOf t).filter (hasSource t old)).filterMap fun s =>
    ((s.child? .source).bind Tree.stringContent?).map (.replace · new)

end ScriptRefactor.Refactoring
