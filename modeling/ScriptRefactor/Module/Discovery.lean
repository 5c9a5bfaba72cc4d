import ScriptRefactor.Module.Role
import ScriptRefactor.Syntax.TreeCache
import ScriptRefactor.Workspace.View

/-!
# `ScriptRefactor.Module.Discovery`: the modules of a directory

`discover` tells of each of some files what it is for, and lists them
by their names. Files that are no modules are left out, which is
reported.
-/

set_option autoImplicit false

namespace ScriptRefactor

open Syntax

/-- A module with what it is for. -/
structure FoundModule where
  /-- The path of the module. -/
  path : String
  /-- The name of its file, without the extension. -/
  name : String
  /-- What it is for. -/
  role : ModuleRole
deriving DecidableEq, Repr

/-- What a search for modules comes to. -/
structure Discovery where
  /-- The modules found. -/
  modules : List FoundModule
  /-- What is reported. -/
  notices : List Notice
  /-- The trees of the modules. -/
  cache : TreeCache

namespace Discovery

/-- One more file looked at. -/
def step (s : Discovery) (file : String × String) : Discovery :=
  match s.cache.parse file.1 file.2 with
  | (.ok t, cache) =>
    let name := (Path.stemOf? file.1).getD ""
    ⟨s.modules ++ [⟨file.1, name, ModuleRole.ofTree t⟩], s.notices, cache⟩
  | (.error _, cache) => ⟨s.modules, s.notices ++ [.skippedInvalid file.1], cache⟩

/-- The modules among some files, given by their paths and texts. -/
def ofFiles (cache : TreeCache) (files : List (String × String)) : Discovery :=
  let found := files.foldl step ⟨[], [], cache⟩
  { found with modules := found.modules.mergeSort fun a b => a.name ≤ b.name }

end Discovery

/-- Files that were read, and what was reported beside them. -/
structure ReadFiles where
  /-- The paths and texts of the files. -/
  files : List (String × String)
  /-- What is reported. -/
  notices : List Notice
  /-- The workspace that keeps the texts. -/
  workspace : Workspace

namespace ReadFiles

/-- One more path, which is read if it is a module. -/
def step (d : Disk) (s : ReadFiles) (path : String) : ReadFiles :=
  if (Dialect.ofPath? path).isNone || !s.workspace.fileExists d (s.workspace.key path) then s
  else
    match s.workspace.content d path with
    | (.ok text, w) => ⟨s.files ++ [(path, text)], s.notices, w⟩
    | (.error _, w) => ⟨s.files, s.notices ++ [.skippedUnreadable path], w⟩

/-- The module files that are directly in a directory. -/
def ofDir (w : Workspace) (d : Disk) (dir : String) : ReadFiles :=
  (w.list d dir).foldl (step d) ⟨[], [], w⟩

end ReadFiles

/-- The modules directly in a directory, and the workspace that keeps
their texts. -/
def discoverDir (w : Workspace) (d : Disk) (cache : TreeCache) (dir : String) :
    Discovery × Workspace :=
  let read := ReadFiles.ofDir w d dir
  let found := Discovery.ofFiles cache read.files
  ({ found with notices := read.notices ++ found.notices }, read.workspace)

end ScriptRefactor
