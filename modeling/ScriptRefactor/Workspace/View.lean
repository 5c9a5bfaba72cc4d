import ScriptRefactor.Workspace.Basic

/-!
# `ScriptRefactor.Workspace.View`: the project as it will be

The view of a workspace is the project on disk with the staged
changes: what exists, what a file says, and what a directory holds.

* `diskKey?` finds where the content of a key stands on disk.
* `fileExists` and `dirExists` ask for what is there.
* `content` and `lines` give the text of a file, and keep it.
* `list` gives the members of a directory.
-/

set_option autoImplicit false

namespace ScriptRefactor.Workspace

/-! ### Where content stands -/

/-- Where a key stood before some directory moves, the last one
first; `none` if a move took away what was there. -/
def beforeDirMoves : List (String × String) → String → Option String
  | [], key => some key
  | (origin, target) :: moves, key =>
    match Path.replacePrefix? key target origin with
    | some key => beforeDirMoves moves key
    | none => if Path.isUnder key origin then none else beforeDirMoves moves key

/-- The key on disk of the content of a key. -/
def diskKey? (w : Workspace) (key : String) : Option String :=
  let origin := match w.moves.find? fun m => m.2 = key with
    | some m => m.1
    | none => key
  beforeDirMoves w.dirMoves.reverse origin

/-- A file was moved away from the key. -/
def isMoveOrigin (w : Workspace) (key : String) : Bool := w.moves.any fun m => m.1 = key

/-- A file was moved to the key. -/
def isMoveTarget (w : Workspace) (key : String) : Bool := w.moves.any fun m => m.2 = key

/-- What stands on disk for the key has the property `p`. -/
def onDisk (w : Workspace) (key : String) (p : Place → Bool) : Bool :=
  match w.diskKey? key with
  | some k => p (w.place k)
  | none => false

/-! ### What exists -/

/-- A directory above the key is to be deleted. -/
def isBelowDeletion (w : Workspace) (key : String) : Bool :=
  w.deletions.keys.any fun k => k ≠ key && Path.isUnder key k

/-- There is a file. -/
def fileExists (w : Workspace) (d : Disk) (key : String) : Bool :=
  if w.deletions.contains key then false
  else if w.texts.contains key || w.isMoveTarget key then true
  else if w.isBelowDeletion key || w.isMoveOrigin key then false
  else w.onDisk key d.isFile

/-- There is a directory. The root of the project always is one. -/
def dirExists (w : Workspace) (d : Disk) (key : String) : Bool :=
  let holds (k : String) : Bool := k ≠ key && Path.isUnder k key
  if key.isEmpty then true
  else if w.deletions.contains key then false
  else if w.dirs.contains key || w.dirMoves.any (·.2 = key)
      || w.texts.keys.any holds || w.moves.any (holds ·.2) then true
  else if w.isBelowDeletion key then false
  else w.onDisk key d.isDir

/-! ### Texts -/

/-- The text of the file at a place; failures name the file by the
given path. -/
def readAt (d : Disk) (p : Place) (path : String) (limit : Nat) : Except WorkspaceError String :=
  match d.bytes? p with
  | none => .error (.notFound path)
  | some bytes =>
    if limit < bytes.length then .error (.tooLarge bytes.length limit)
    else
      match Text.Utf8.decodeText? bytes with
      | some text => .ok text
      | none => .error .binary

/-- The text of the file to which a full path leads. -/
def readText (d : Disk) (path : String) (limit : Nat) : Except WorkspaceError String :=
  match d.placeOf? path with
  | some p => readAt d p path limit
  | none => .error (.notFound path)

/-- The text of a file. -/
def textOf (w : Workspace) (d : Disk) (key : String) : Except WorkspaceError String :=
  if !w.fileExists d key then .error (.notFound key)
  else
    match w.texts.find? key with
    | some text => .ok text
    | none =>
      match w.diskKey? key with
      | some k => readAt d (w.place k) (w.fullPath k) w.settings.maxFileSize
      | none => .error (.notFound key)

/-- The text of the file at a path, and the workspace that keeps
it. -/
def content (w : Workspace) (d : Disk) (path : String) :
    Except WorkspaceError String × Workspace :=
  let key := w.key path
  match w.textOf d key with
  | .ok text => (.ok text, { w with texts := w.texts.insert key text })
  | .error e => (.error e, w)

/-- The lines of the file at a path, and the workspace that keeps its
text. -/
def lines (w : Workspace) (d : Disk) (path : String) :
    Except WorkspaceError (List String) × Workspace :=
  let (text, kept) := w.content d path
  (text.map Text.linesOf, kept)

/-! ### Listings -/

/-- The keys that staged changes bring in. -/
def stagedKeys (w : Workspace) : List String :=
  w.texts.keys ++ w.saves.toList ++ w.dirs.toList ++ w.moves.map Prod.snd
    ++ w.dirMoves.map Prod.snd

/-- The member of a directory through which a key is reached, if it
lies below the directory. -/
def memberOf? (dir key : String) : Option String :=
  if key = dir then none
  else
    (Path.below? key dir).map fun rest =>
      let inside := if dir.isEmpty then rest else rest.drop 1
      Path.join dir (String.ofList ((Text.splitOn '/' inside).headD []))

/-- The members of a directory, staged or on disk. -/
def members (w : Workspace) (d : Disk) (dir : String) : KeySet :=
  let real := match w.diskKey? dir with
    | some k => (d.names (w.place k)).map (Path.join dir ·)
    | none => []
  KeySet.ofList (real ++ w.stagedKeys.filterMap (memberOf? dir))

/-- The member is there, and listings show it. Globs that show paths
are for files. -/
def isListed (w : Workspace) (d : Disk) (key : String) : Bool :=
  if w.fileExists d key then w.filter.shows key
  else if w.dirExists d key then !w.filter.hides key
  else false

/-- The members of a directory that are there, in ascending order. -/
def list (w : Workspace) (d : Disk) (path : String) : List String :=
  (w.members d (w.key path)).toList.filter (w.isListed d)

end ScriptRefactor.Workspace
