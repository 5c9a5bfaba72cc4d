import ScriptRefactor.Workspace.View

/-!
# `ScriptRefactor.Workspace.Stage`: staging changes

* `put` and `save` stage a text; only a saved one is written.
* `mkdir` stages a directory.
* `delete` stages a deletion, and drops what was staged below.
* `moveFile` and `moveDir` stage a move, and carry along what was
  staged; they refuse an origin that is not there and a target that
  is taken.
-/

set_option autoImplicit false

namespace ScriptRefactor.Workspace

/-! ### Texts and directories -/

/-- A text staged under a key. -/
def putKey (w : Workspace) (key text : String) : Workspace :=
  { w with
    deletions := w.deletions.erase key
    texts := w.texts.insert key (Text.Utf8.foldLineBreaks text) }

/-- A text staged for a path. -/
def put (w : Workspace) (path text : String) : Workspace := w.putKey (w.key path) text

/-- A text staged for a path and marked to be written. -/
def save (w : Workspace) (path text : String) : Workspace :=
  let key := w.key path
  let w := w.put key text
  { w with saves := w.saves.insert key }

/-- A directory staged. -/
def mkdir (w : Workspace) (path : String) : Workspace :=
  let key := w.key path
  { w with deletions := w.deletions.erase key, dirs := w.dirs.insert key }

/-- A text that was only read, and not staged to be written, dropped
again. -/
def invalidate (w : Workspace) (path : String) : Workspace :=
  let key := w.key path
  if w.saves.contains key then w else { w with texts := w.texts.erase key }

/-! ### Deletions -/

/-- What stands at the key is on disk, and no move took it away. -/
def staysOnDisk (w : Workspace) (d : Disk) (key : String) : Bool :=
  !w.isMoveOrigin key && w.onDisk key d.occupied

/-- A deletion staged. A file that was moved to below the key is
deleted where it came from; if there is nothing but such files, the
key itself needs no deletion. -/
def delete (w : Workspace) (d : Disk) (path : String) (mode : DeleteMode) : Workspace :=
  let key := w.key path
  let keeps (k : String) : Bool := !Path.isUnder k key
  let (gone, kept) := w.moves.partition fun m => Path.isUnder m.2 key
  let w := { w with
    texts := w.texts.filterKeys keeps
    saves := w.saves.filter keeps
    dirs := w.dirs.filter keeps
    moves := kept }
  let onlyMoved := !gone.isEmpty && !w.staysOnDisk d key
  let deletions := gone.foldl (fun t m => t.insert m.1 mode) w.deletions
  { w with deletions := if onlyMoved then deletions else deletions.insert key mode }

/-! ### Moves -/

/-- A move recorded: one that goes on from the target of an earlier
move is one with it, and none at all if it goes back. -/
def continueMove (moves : List (String × String)) (origin target : String) :
    Option (List (String × String)) :=
  match moves with
  | [] => none
  | m :: rest =>
    if m.2 = origin then some (if m.1 = target then rest else (m.1, target) :: rest)
    else (continueMove rest origin target).map (m :: ·)

/-- A file move staged. A file that is on disk has to be carried
there; one that was only staged takes its text along. -/
def moveFile (w : Workspace) (d : Disk) (originPath targetPath : String) :
    Except WorkspaceError Workspace :=
  let origin := w.key originPath
  let target := w.key targetPath
  if !w.fileExists d origin then .error (.noFileToMove origin)
  else if w.fileExists d target || w.dirExists d target then .error (.targetFileExists target)
  else
    let isReal := !w.isMoveOrigin origin && w.onDisk origin d.isFile
    let texts := match w.texts.find? origin with
      | some text => (w.texts.erase origin).insert target text
      | none => w.texts
    let saves :=
      if w.saves.contains origin then (w.saves.erase origin).insert target else w.saves
    let moves := match continueMove w.moves origin target with
      | some moves => moves
      | none => if isReal then w.moves ++ [(origin, target)] else w.moves
    .ok { w with texts, saves, moves }

/-- A directory move staged. -/
def moveDir (w : Workspace) (d : Disk) (originPath targetPath : String) :
    Except WorkspaceError Workspace :=
  let origin := w.key originPath
  let target := w.key targetPath
  if !w.dirExists d origin then .error (.noDirToMove origin)
  else if w.fileExists d target || w.dirExists d target then .error (.targetDirExists target)
  else
    let carried (k : String) : String := (Path.replacePrefix? k origin target).getD k
    .ok { w with
      texts := w.texts.mapKeys carried
      saves := w.saves.map carried
      deletions := w.deletions.mapKeys carried
      dirs := w.dirs.map carried
      moves := w.moves.map fun m => (carried m.1, carried m.2)
      dirMoves := match continueMove w.dirMoves origin target with
        | some moves => moves
        | none => w.dirMoves ++ [(origin, target)] }

end ScriptRefactor.Workspace
