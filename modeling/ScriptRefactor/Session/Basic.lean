import ScriptRefactor.Edit.Apply
import ScriptRefactor.LineDiff.Hunk
import ScriptRefactor.Module.Role
import ScriptRefactor.Syntax.TreeCache
import ScriptRefactor.Workspace.Stage

/-!
# `ScriptRefactor.Session.Basic`: changing the files of a project

A session is a workspace with the trees of its modules. To change a
file, its present text is read from the workspace, edited, and staged
to be written; nothing reaches the disk before a flush. What became
of a change is told as a `FileUpdate`.
-/

set_option autoImplicit false

namespace ScriptRefactor

open Syntax

/-! ### Sessions -/

/-- A workspace with the trees of its modules. -/
structure Session where
  /-- The workspace. -/
  workspace : Workspace
  /-- The trees. -/
  cache : TreeCache

/-- Why a change of a file failed. -/
inductive SessionError where
  /-- The file could not be read. -/
  | files (e : WorkspaceError)
  /-- The file could not be parsed. -/
  | code (e : SyntaxError)
  /-- The file is no module. -/
  | unsupportedFile (key : String)
deriving DecidableEq, Repr

/-- The wording of a failure. -/
def SessionError.message : SessionError → String
  | files e => "IO error: " ++ e.message
  | code e => e.message
  | unsupportedFile key => "Unsupported file: " ++ key

/-- What became of a change of a file. -/
structure FileUpdate where
  /-- The key of the file. -/
  path : String
  /-- The number of edits, or of changed lines. -/
  count : Nat
  /-- The difference between the texts; empty if nothing changed. -/
  diff : String
deriving DecidableEq, Repr

/-- The text of the file changed. -/
def FileUpdate.changed (u : FileUpdate) : Bool := !u.diff.isEmpty

/-- What an operation of a session comes to. -/
structure Outcome (α : Type) where
  /-- The result. -/
  result : Except SessionError α
  /-- The session behind the operation. -/
  session : Session
  /-- What is reported. -/
  notices : List Notice

namespace Session

/-- A session of a workspace. -/
def ofWorkspace (w : Workspace) : Session := ⟨w, .empty⟩

/-! ### Reading -/

/-- The text of a file. -/
def content (s : Session) (d : Disk) (path : String) : Except SessionError String × Session :=
  let (result, w) := s.workspace.content d path
  (result.mapError .files, { s with workspace := w })

/-- The tree of a module. -/
def tree (s : Session) (d : Disk) (path : String) : Except SessionError Tree × Session :=
  let key := s.workspace.key path
  match Dialect.ofPath? key with
  | none => (.error (.unsupportedFile key), s)
  | some dialect =>
    match s.content d key with
    | (.error e, s) => (.error e, s)
    | (.ok text, s) =>
      let (result, cache) := s.cache.parseAs dialect key text
      (result.mapError .code, { s with cache })

/-- What a module is for. -/
def roleOf (s : Session) (d : Disk) (path : String) : Except SessionError ModuleRole × Session :=
  let (result, s) := s.tree d path
  (result.map ModuleRole.ofTree, s)

/-- What was read of a file that changed on disk dropped. -/
def forget (s : Session) (path : String) : Session :=
  let key := s.workspace.key path
  ⟨s.workspace.invalidate key, s.cache.invalidate key⟩

/-! ### Writing -/

/-- The difference between two texts, if there is one. -/
def diffOf (old new : String) : String := if new = old then "" else LineDiff.unified old new

/-- The text of a file edited and staged. -/
def write (s : Session) (path old : String) (changes : Changes) : Outcome FileUpdate :=
  let key := s.workspace.key path
  if changes.edits.isEmpty then ⟨.ok ⟨key, 0, ""⟩, s, changes.notices⟩
  else
    let (new, notices) := applyEdits old changes.edits
    let w := if new = old then s.workspace else s.workspace.save key new
    ⟨.ok ⟨key, changes.edits.length, diffOf old new⟩, { s with workspace := w },
      changes.notices ++ notices⟩

/-- A module changed by a refactoring. -/
def update (s : Session) (d : Disk) (path : String) (refactoring : Tree → Changes) :
    Outcome FileUpdate :=
  match s.tree d path with
  | (.error e, s) => ⟨.error e, s, []⟩
  | (.ok t, s) => s.write path t.source (refactoring t)

/-- A file changed by edits. -/
def apply (s : Session) (d : Disk) (path : String) (edits : List Edit) : Outcome FileUpdate :=
  match s.content d path with
  | (.error e, s) => ⟨.error e, s, []⟩
  | (.ok text, s) => s.write path text (.ofEdits edits)

/-- The number of lines that are added or removed. -/
def changedLines (old new : String) : Nat :=
  ((LineDiff.chunks old new).filter (·.tag ≠ .equal)).foldl (fun n c => n + c.count) 0

/-- A file changed line by line. -/
def updateLines (s : Session) (d : Disk) (path : String) (change : List String → List String) :
    Outcome FileUpdate :=
  let key := s.workspace.key path
  match s.content d key with
  | (.error e, s) => ⟨.error e, s, []⟩
  | (.ok old, s) =>
    let new := Text.ofLines (change (Text.linesOf old))
    if new = old then ⟨.ok ⟨key, 0, ""⟩, s, []⟩
    else
      ⟨.ok ⟨key, changedLines old new, LineDiff.unified old new⟩,
        { s with workspace := s.workspace.save key new }, []⟩

end Session

end ScriptRefactor
