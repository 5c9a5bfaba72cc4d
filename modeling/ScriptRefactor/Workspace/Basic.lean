import ScriptRefactor.Table
import ScriptRefactor.Workspace.Settings

/-!
# `ScriptRefactor.Workspace.Basic`: staged changes over a disk

A workspace holds changes of a project that are not on disk yet:
texts, directories to create, deletions and moves. Everything is
named by its *key*, the path below the root of the project in normal
form.

File moves are recorded in the places that the files have once the
directory moves are done, since a flush does those first.
-/

set_option autoImplicit false

namespace ScriptRefactor

/-- Whether a deletion of something that is not there is worth a
warning. -/
inductive DeleteMode where
  /-- It is. -/
  | warn
  /-- It is not. -/
  | quiet
deriving DecidableEq, Repr

/-- The staged changes of a project. -/
structure Workspace where
  /-- The root of the project. -/
  root : String
  /-- The settings of the project. -/
  settings : Settings
  /-- Which paths listings show. -/
  filter : PathFilter
  /-- The texts that were read or staged, under their present keys. -/
  texts : Table String
  /-- The keys whose texts are to be written. -/
  saves : KeySet
  /-- The keys to delete. -/
  deletions : Table DeleteMode
  /-- The directories to create. -/
  dirs : KeySet
  /-- The file moves, from a key to a key, in the order in which they
  were recorded. -/
  moves : List (String × String)
  /-- The directory moves, in the order in which they were recorded. -/
  dirMoves : List (String × String)

namespace Workspace

/-- A workspace without changes. -/
def ofFilter (root : String) (settings : Settings) (filter : PathFilter) : Workspace :=
  ⟨root, settings, filter, .empty, .empty, .empty, .empty, [], []⟩

/-- A workspace with the given settings. -/
def ofSettings (root : String) (settings : Settings) : Except WorkspaceError Workspace :=
  settings.filter.map (ofFilter root settings)

/-- A workspace with the settings that the project has on disk. -/
def open? (d : Disk) (root : String) : Except WorkspaceError Workspace :=
  (Settings.load d root).bind (ofSettings root)

/-- The workspace with all changes dropped. -/
def reset (w : Workspace) : Workspace := ofFilter w.root w.settings w.filter

/-! ### Keys -/

/-- The segments of a path, without those that stay in place. -/
def pathSegments (path : String) : List (List Char) :=
  (Text.splitOn '/' path.toList).filter fun s => s ≠ [] ∧ s ≠ ['.']

/-- What follows some segments. -/
def afterSegments? : List (List Char) → List (List Char) → Option (List (List Char))
  | [], segments => some segments
  | _ :: _, [] => none
  | r :: rs, s :: segments => if r = s then afterSegments? rs segments else none

/-- The key of a path. A path from the root of the file system that
leads into the project is seen from the root of the project. -/
def key (w : Workspace) (path : String) : String :=
  if Path.isFromRoot path.toList then
    match afterSegments? (pathSegments w.root) (pathSegments path) with
    | some rest => Path.normalize (String.ofList (Text.joinWith ['/'] rest))
    | none => Path.normalize path
  else Path.normalize path

/-- The full path of a key. -/
def fullPath (w : Workspace) (key : String) : String :=
  if Path.isFromRoot key.toList then key
  else if Text.endsWith ['/'] w.root.toList then w.root ++ key
  else w.root ++ "/" ++ key

/-- The place of a key on disk. -/
def place (w : Workspace) (key : String) : Place := Place.ofPath (w.fullPath key)

end Workspace

end ScriptRefactor
