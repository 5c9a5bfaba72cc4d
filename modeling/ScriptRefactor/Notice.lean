import ScriptRefactor.Syntax.Span

/-!
# `ScriptRefactor.Notice`: what is reported beside a result

An operation that goes on in spite of something odd, or that changes
the disk, says so. A notice is the event; `Notice.text` is its line
in the log, the level first and the particulars behind the message.
-/

set_option autoImplicit false

namespace ScriptRefactor

open Syntax

/-- An event worth reporting. -/
inductive Notice where
  /-- Overlapping edits were applied all the same. -/
  | conflict (first second : Span)
  /-- The array bound to a variable has no such element. -/
  | noElement (array element : String)
  /-- A node is no element of the array. -/
  | notAnElement (node : Span)
  /-- An object has the property already; the object goes by its
  variable. -/
  | propertyExists (object? : Option String) (key : String)
  /-- A module was left out because its text could not be parsed. -/
  | skippedInvalid (path : String)
  /-- A module was left out because it could not be read. -/
  | skippedUnreadable (path : String)
  /-- A dependent module was left alone because it could not be
  parsed. -/
  | leftUnparsable (path : String)
  /-- The file to move is not there. -/
  | noFileToMove (path : String)
  /-- There is a file at the target of a move already. -/
  | targetFileExists (path : String)
  /-- The directory to move is not there. -/
  | noDirToMove (path : String)
  /-- There is a directory at the target of a move already. -/
  | targetDirExists (path : String)
  /-- A directory was created on disk. -/
  | createdDir (path : String)
  /-- A file or a directory was renamed on disk. -/
  | moved (origin target : String)
  /-- A file or a directory was deleted from disk. -/
  | deleted (path : String)
  /-- There was nothing to delete. -/
  | noFileToDelete (path : String)
  /-- A file was written over. -/
  | updatedFile (path : String)
  /-- A new file was written. -/
  | createdFile (path : String)
deriving DecidableEq, Repr

namespace Notice

/-- The notice reports something odd. -/
def isWarning : Notice → Bool
  | createdDir _ | moved _ _ | deleted _ | updatedFile _ | createdFile _ => false
  | _ => true

/-- The message and the particulars. -/
def message : Notice → String
  | conflict first second =>
    "applying conflicting edits first=" ++ first.text ++ " second=" ++ second.text
  | noElement array element =>
    "element not found in array array=" ++ array ++ " element=" ++ element
  | notAnElement node => "element not found in array span=" ++ node.text
  | propertyExists object? key =>
    "property already exists object=" ++ object?.getD "<any>" ++ " key=" ++ key
  | skippedInvalid path => "skipping module that failed to parse path=" ++ path
  | skippedUnreadable path => "skipping unreadable module path=" ++ path
  | leftUnparsable path => "skipping unparsable module path=" ++ path
  | noFileToMove path => "no file to move path=" ++ path
  | targetFileExists path => "target file already exists path=" ++ path
  | noDirToMove path => "no dir to move path=" ++ path
  | targetDirExists path => "target dir already exists path=" ++ path
  | createdDir path => "created dir path=" ++ path
  | moved origin target => "moved from=" ++ origin ++ " to=" ++ target
  | deleted path => "deleted path=" ++ path
  | noFileToDelete path => "no file to delete path=" ++ path
  | updatedFile path => "updated file path=" ++ path
  | createdFile path => "created file path=" ++ path

/-- The line of the notice in the log. -/
def text (n : Notice) : String := (if n.isWarning then "WARN " else "INFO ") ++ n.message

end Notice

end ScriptRefactor
