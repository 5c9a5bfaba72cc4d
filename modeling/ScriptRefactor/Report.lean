import ScriptRefactor.LineDiff.Hunk

/-!
# `ScriptRefactor.Report`: what was done on disk

A report lists, in order, what happened when staged changes were
written to disk. A record that warns tells of a thing that was not
there.
-/

set_option autoImplicit false

namespace ScriptRefactor

/-- What happened. -/
inductive Action where
  /-- A directory was created. -/
  | createDir
  /-- A file or a directory was renamed. -/
  | move
  /-- There was nothing to rename. -/
  | moveMissing
  /-- A file or a directory was deleted. -/
  | delete
  /-- There was nothing to delete. -/
  | deleteMissing
  /-- A new file was written. -/
  | create
  /-- A file was written over. -/
  | update
deriving DecidableEq, Repr

namespace Action

/-- All actions. -/
def all : List Action := [createDir, move, moveMissing, delete, deleteMissing, create, update]

/-- The label of an action. -/
def label : Action → String
  | createDir => "create-dir"
  | move => "mv-file"
  | moveMissing => "mv-file-warning"
  | delete => "del-file"
  | deleteMissing => "del-file-warning"
  | create => "create-file"
  | update => "update-file"

/-- The action with a label. -/
def ofLabel? (label : String) : Option Action := all.find? fun a => a.label = label

/-- Nothing was done, since the thing was not there. -/
def isWarning : Action → Bool
  | moveMissing | deleteMissing => true
  | _ => false

end Action

/-- One thing that happened. -/
structure Record where
  /-- What happened. -/
  action : Action
  /-- The path it happened to; for a move, the one it left. -/
  file : String
  /-- Where a move went. -/
  to? : Option String
  /-- How the text of a file changed. -/
  diff? : Option (List LineDiff.Chunk)
deriving DecidableEq, Repr

/-- A record of one path. -/
def Record.ofPath (action : Action) (file : String) : Record := ⟨action, file, none, none⟩

/-- A record of a move. -/
def Record.ofMove (action : Action) (origin target : String) : Record :=
  ⟨action, origin, some target, none⟩

/-- A record of a file written over. -/
def Record.ofUpdate (file : String) (diff : List LineDiff.Chunk) : Record :=
  ⟨.update, file, none, some diff⟩

/-- The record as plain text: a line, and the changed lines of a file
behind it. -/
def Record.render (r : Record) : String :=
  r.action.label ++ ": " ++ r.file
    ++ (match r.to? with | some target => " -> " ++ target | none => "") ++ "\n"
    ++ (match r.diff? with | some chunks => LineDiff.report chunks | none => "")

/-- What happened, in order. -/
abbrev Report : Type := List Record

namespace Report

/-- The records that warn. -/
def warnings (r : Report) : List Record := r.filter (·.action.isWarning)

/-- The records of one action. -/
def ofAction (r : Report) (a : Action) : List Record := r.filter (·.action = a)

/-- The report as plain text. -/
def render (r : Report) : String := String.join (r.map Record.render)

end Report

end ScriptRefactor
