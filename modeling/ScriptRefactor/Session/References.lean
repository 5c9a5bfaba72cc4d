import ScriptRefactor.Refactoring.Imports
import ScriptRefactor.Refactoring.StringLiterals
import ScriptRefactor.Session.Basic

/-!
# `ScriptRefactor.Session.References`: references to a moved module

When a module gets another path, the modules that name it have to
name it anew. `updateReferences` looks at every module of the view:

* a relative source that leads to the old path, with or without the
  extension, or to the directory of an index file, is pointed to the
  new one;
* if the name of the file changes, names imported from it that are
  the old name become the new one.
-/

set_option autoImplicit false

namespace ScriptRefactor.Session

open Syntax

/-! ### Sources that lead to a module -/

/-- The extension of a file name with its dot. A name that starts with
its only dot has none. -/
def dotExtension (name : String) : String :=
  match Text.splitLast? '.' name.toList with
  | some (stem, ext) => if stem.isEmpty then "" else "." ++ String.ofList ext
  | none => ""

/-- The name of the file at a path, without its extension. -/
def stemOf (path : String) : String := Path.dropExtension (Path.fileName path)

/-- A source that names an index file as the source of its
directory. -/
def directorySource (source : String) : String :=
  let cs := source.toList
  if Text.endsWith "/index".toList cs then
    let dir := cs.take (cs.length - 6)
    if dir.isEmpty then "." else String.ofList dir
  else "."

/-- The source by which `file` is to name `target`, if it names
`origin` by `source`. -/
def redirect? (file source origin target : String) : Option String :=
  if source.toList.head? ≠ some '.' then none
  else
    let resolved := Path.join (Path.parent file) source
    let relative := Path.moduleSource file target
    if resolved = origin then some (relative ++ dotExtension (Path.fileName target))
    else if resolved = Path.join (Path.parent origin) (stemOf origin) then some relative
    else if stemOf origin = "index" ∧ resolved = Path.parent origin then
      some (if stemOf target = "index" then directorySource relative else relative)
    else none

/-- The sources of a module that lead to `origin`, with those that take
their place. -/
def redirects (t : Tree) (file origin target : String) : List (String × String) :=
  (Refactoring.moduleSources t).filterMap fun source =>
    (redirect? file source origin target).map (source, ·)

/-! ### All modules of the view -/

/-- A directory that is not searched. -/
def isSkippedDir (name : String) : Bool :=
  name = "node_modules" || name.toList.head? = some '.'

/-- The modules below a directory, down to a depth. -/
def modulesBelow (w : Workspace) (d : Disk) : Nat → String → List String
  | 0, _ => []
  | depth + 1, dir =>
    (w.list d dir).flatMap fun path =>
      if w.dirExists d path then
        if isSkippedDir (Path.fileName path) then [] else modulesBelow w d depth path
      else if (Dialect.ofPath? path).isSome && w.fileExists d path then [path]
      else []

/-- No key of the view has more segments than this. -/
def depthOf (w : Workspace) (d : Disk) : Nat :=
  d.entries.foldl (fun n e => Nat.max n e.1.length) 0 +
    w.stagedKeys.foldl (fun n key => n + key.length) 0 + 2

/-- The modules of the view in ascending order. -/
def moduleFiles (w : Workspace) (d : Disk) : List String :=
  (modulesBelow w d (depthOf w d) "").mergeSort fun a b => a ≤ b

/-! ### Updating -/

/-- One source of a module pointed elsewhere; the number of edits is
added to `count`. -/
def redirectSource (s : Session) (d : Disk) (file : String) (names : String × String)
    (sources : String × String) : Outcome Nat :=
  let renamed := s.update d file fun t =>
    .ofEdits (Refactoring.renameSource t sources.1 sources.2)
  match renamed.result with
  | .error e => ⟨.error e, renamed.session, renamed.notices⟩
  | .ok u =>
    if names.1 = names.2 then ⟨.ok u.count, renamed.session, renamed.notices⟩
    else
      let imported := renamed.session.update d file fun t =>
        .ofEdits (Refactoring.renameImported t names.1 names.2 (some sources.2))
      ⟨imported.result.map fun v => u.count + v.count, imported.session,
        renamed.notices ++ imported.notices⟩

/-- The sources of a module pointed elsewhere, one after the other. -/
def redirectSources (d : Disk) (file : String) (names : String × String) :
    List (String × String) → Outcome Nat → Outcome Nat
  | [], o => o
  | sources :: rest, o =>
    match o.result with
    | .error _ => o
    | .ok count =>
      let next := redirectSource o.session d file names sources
      redirectSources d file names rest
        ⟨next.result.map (count + ·), next.session, o.notices ++ next.notices⟩

/-- The references of one module updated, if it has any. -/
def updateModule (s : Session) (d : Disk) (origin target file : String) :
    Outcome (Option FileUpdate) :=
  match s.tree d file with
  | (.error (.code _), s) => ⟨.ok none, s, [.leftUnparsable file]⟩
  | (.error e, s) => ⟨.error e, s, []⟩
  | (.ok t, s) =>
    let pairs := redirects t file origin target
    if pairs.isEmpty then ⟨.ok none, s, []⟩
    else
      let names := (stemOf origin, stemOf target)
      let o := redirectSources d file names pairs ⟨.ok 0, s, []⟩
      match o.result with
      | .error e => ⟨.error e, o.session, o.notices⟩
      | .ok count =>
        match o.session.content d file with
        | (.error e, s) => ⟨.error e, s, o.notices⟩
        | (.ok text, s) => ⟨.ok (some ⟨file, count, LineDiff.unified t.source text⟩), s, o.notices⟩

/-- The references of several modules updated, one module after the
other. -/
def updateModules (d : Disk) (origin target : String) :
    List String → Outcome (List FileUpdate) → Outcome (List FileUpdate)
  | [], o => o
  | file :: files, o =>
    match o.result with
    | .error _ => o
    | .ok updates =>
      let next := updateModule o.session d origin target file
      updateModules d origin target files
        ⟨next.result.map (updates ++ ·.toList), next.session, o.notices ++ next.notices⟩

/-- The references to a module updated. It does not matter whether the
module was moved already. -/
def updateReferences (s : Session) (d : Disk) (originPath targetPath : String) :
    Outcome (List FileUpdate) :=
  let origin := s.workspace.key originPath
  let target := s.workspace.key targetPath
  let files := (moduleFiles s.workspace d).filter fun f => f ≠ origin && f ≠ target
  updateModules d origin target files ⟨.ok [], s, []⟩

end ScriptRefactor.Session
