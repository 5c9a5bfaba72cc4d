import ScriptRefactor.Refactoring.ListLayout

/-!
# `ScriptRefactor.Refactoring.ModuleLinks`: statements that name other modules

An import and an export from another module hold the name of that
module as a string, its *source*. New statements take over the quote
and the semicolon of those that are there, and go behind the last
one of their kind.
-/

set_option autoImplicit false

namespace ScriptRefactor.Refactoring

open Syntax

/-! ### The statements of a module -/

/-- The imports at the top level. -/
def importsOf (t : Tree) : List Node := t.root.childrenOf .importStatement

/-- The exports at the top level. -/
def exportsOf (t : Tree) : List Node := t.root.childrenOf .exportStatement

/-- The exports from another module. -/
def reexportsOf (t : Tree) : List Node :=
  (exportsOf t).filter fun s => (s.child? .source).isSome

/-- The imports and the exports from another module. -/
def linksOf (t : Tree) : List Node := importsOf t ++ reexportsOf t

/-- The source of a statement, without its quotes. -/
def sourceOf? (t : Tree) (statement : Node) : Option String :=
  (statement.child? .source).bind t.stringValue?

/-- The statement names the given source. -/
def hasSource (t : Tree) (source : String) (statement : Node) : Bool :=
  sourceOf? t statement = some source

/-- The list without the later ones of equal members. -/
def distinct (names : List String) : List String :=
  (names.foldl (fun seen name => if seen.contains name then seen else name :: seen) []).reverse

/-- The sources of all links, each once, imports first. -/
def moduleSources (t : Tree) : List String := distinct ((linksOf t).filterMap (sourceOf? t))

/-! ### How statements are written -/

/-- The quote of the first source; an apostrophe if there is none. -/
def quoteStyle (t : Tree) : String :=
  match (linksOf t).findSome? (·.child? .source) with
  | some source => ((t.text source).toList.head?.map (String.ofList [·])).getD "'"
  | none => "'"

/-- What ends the first of the statements; a semicolon if there is
none. -/
def semicolonStyle (t : Tree) (statements : List Node) : String :=
  match statements.head? with
  | some s => if Text.endsWith [';'] (Text.trimEnd (t.text s).toList) then ";" else ""
  | none => ";"

/-- Names that are there, each once. -/
def usedNames (names : List String) : List String := distinct (names.filter (!·.isEmpty))

/-- A name that is there. -/
def usedName? (name? : Option String) : Option String := name?.filter (!·.isEmpty)

/-- Names in braces. -/
def braced (names : List String) : String := "\x7b " ++ ", ".intercalate names ++ " \x7d"

/-! ### New lines -/

/-- The position behind the end of the line of a position. -/
def nextLineStart (text : String) (pos : Nat) : Nat :=
  match Text.cutAt? text.toList pos with
  | some (_, rest) =>
    match Text.before? ['\n'] rest with
    | some before => pos + Text.byteSize before + 1
    | none => Text.size text
  | none => Text.size text

/-- A new line behind the line of a position. -/
def insertLineAfter (text : String) (pos : Nat) (line : String) : Edit :=
  let place := nextLineStart text pos
  if place = Text.size text && !(Text.endsWith ['\n'] text.toList) then
    .insert place ("\n" ++ line)
  else .insert place (line ++ "\n")

/-- New lines behind a statement, or at the start of the module. -/
def insertStatements (t : Tree) (anchor? : Option Node) (lines : List String) : List Edit :=
  if lines.isEmpty then []
  else
    let text := "\n".intercalate lines
    match anchor? with
    | some last => [insertLineAfter t.source last.stop text]
    | none => [.insert 0 (text ++ "\n")]

end ScriptRefactor.Refactoring
