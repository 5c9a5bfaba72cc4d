import ScriptRefactor.Report
import ScriptRefactor.Workspace.View

/-!
# `ScriptRefactor.Workspace.Flush`: writing staged changes to disk

A flush creates the staged directories, moves directories, deletes,
moves files and writes texts, in this order. Something to move or to
delete that is not there is reported, but no failure. When the file
system refuses, the flush stops: what was done stays done, nothing is
reported, and the workspace keeps its changes. Else the workspace has
none left.
-/

set_option autoImplicit false

namespace ScriptRefactor.Workspace

/-! ### Single steps -/

/-- What a flush has done so far. -/
structure Progress where
  /-- The disk as it is now. -/
  disk : Disk
  /-- What was done. -/
  report : Report
  /-- What was logged. -/
  notices : List Notice

/-- A step of a flush; one that fails keeps what was done before. -/
abbrev Step : Type := Progress → Except Progress Progress

namespace Progress

/-- A notice logged. -/
def log (p : Progress) (n : Notice) : Progress := { p with notices := p.notices ++ [n] }

/-- Something done. -/
def record (p : Progress) (r : Record) : Progress := { p with report := p.report ++ [r] }

/-- The disk changed, unless the file system refused. -/
def change (p : Progress) (d? : Option Disk) : Except Progress Progress :=
  match d? with
  | some d => .ok { p with disk := d }
  | none => .error p

end Progress

/-- A staged directory created, unless something is there. -/
def flushDir (w : Workspace) (key : String) : Step := fun p => do
  if p.disk.occupied (w.place key) then return p
  let p ← p.change (p.disk.makeDirs (w.place key))
  return (p.log (.createdDir key)).record (.ofPath .createDir key)

/-- A staged move carried out, if its origin is there. -/
def flushMove (w : Workspace) (move : String × String) : Step := fun p => do
  if !p.disk.occupied (w.place move.1) then
    return (p.log (.noFileToMove move.1)).record (.ofMove .moveMissing move.1 move.2)
  let p ← p.change (p.disk.makeParent (w.place move.2))
  let p ← p.change (p.disk.rename (w.place move.1) (w.place move.2))
  return (p.log (.moved move.1 move.2)).record (.ofMove .move move.1 move.2)

/-- A staged deletion carried out, if there is something to delete. -/
def flushDeletion (w : Workspace) (deletion : String × DeleteMode) : Step := fun p =>
  let key := deletion.1
  if p.disk.occupied (w.place key) then
    let p := { p with disk := p.disk.remove (w.place key) }
    .ok ((p.log (.deleted key)).record (.ofPath .delete key))
  else
    let p := if deletion.2 = .warn then p.log (.noFileToDelete key) else p
    .ok (p.record (.ofPath .deleteMissing key))

/-- A staged text written, unless the file says the same already. -/
def flushSave (w : Workspace) (key : String) : Step := fun p => do
  match w.texts.find? key with
  | none => return p
  | some text =>
    let place := w.place key
    match p.disk.bytes? place with
    | some bytes =>
      let before := (Text.Utf8.decodeText? bytes).getD ""
      if before = text then return p
      let p := (p.log (.updatedFile key)).record (.ofUpdate key (LineDiff.chunks before text))
      p.change (p.disk.write place (Disk.bytesOf text))
    | none =>
      let p ← p.change (p.disk.makeParent place)
      let p := (p.log (.createdFile key)).record (.ofPath .create key)
      p.change (p.disk.write place (Disk.bytesOf text))

/-! ### The whole flush -/

/-- All steps of a flush in order. -/
def steps (w : Workspace) : List Step :=
  w.dirs.toList.map w.flushDir ++ w.dirMoves.map w.flushMove
    ++ w.deletions.entries.map w.flushDeletion ++ w.moves.map w.flushMove
    ++ w.saves.toList.map w.flushSave

/-- What became of a flush. -/
structure Flushed where
  /-- The workspace behind it. -/
  workspace : Workspace
  /-- The disk behind it. -/
  disk : Disk
  /-- What was logged. -/
  notices : List Notice
  /-- What was done, if nothing failed. -/
  report? : Option Report

/-- The staged changes written to disk. -/
def flush (w : Workspace) (d : Disk) : Flushed :=
  match w.steps.foldlM (fun p step => step p) (⟨d, [], []⟩ : Progress) with
  | .ok p => ⟨w.reset, p.disk, p.notices, some p.report⟩
  | .error p => ⟨w, p.disk, p.notices, none⟩

end ScriptRefactor.Workspace
