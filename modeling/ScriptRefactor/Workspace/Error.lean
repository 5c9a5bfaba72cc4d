import ScriptRefactor.Glob.Filter
import ScriptRefactor.Notice

/-!
# `ScriptRefactor.Workspace.Error`: why a file operation failed

Each failure names its cause, and `WorkspaceError.message` is its
wording. A move that is refused is also reported as a notice.
-/

set_option autoImplicit false

namespace ScriptRefactor

/-- Why an operation on files failed. -/
inductive WorkspaceError where
  /-- There is no such file. -/
  | notFound (path : String)
  /-- The file has more bytes than may be read. -/
  | tooLarge (size limit : Nat)
  /-- The file holds no text. -/
  | binary
  /-- The file system refused. -/
  | refused
  /-- There is no file to move. -/
  | noFileToMove (key : String)
  /-- There is no directory to move. -/
  | noDirToMove (key : String)
  /-- The target of a file move is taken. -/
  | targetFileExists (key : String)
  /-- The target of a directory move is taken. -/
  | targetDirExists (key : String)
  /-- A glob of the settings cannot be read. -/
  | invalidGlob (e : InvalidGlob)
  /-- The settings file at a path has no valid content. -/
  | invalidSettings (path : String)
deriving DecidableEq, Repr

namespace WorkspaceError

/-- The wording of a failure. -/
def message : WorkspaceError → String
  | notFound path => "File not found: " ++ path
  | tooLarge size limit =>
    "File too large: " ++ toString size ++ " bytes (limit: " ++ toString limit ++ ")"
  | binary => "Binary file detected"
  | refused => "IO error"
  | noFileToMove key | noDirToMove key => "No file to move: " ++ key
  | targetFileExists key | targetDirExists key => "Target file already exists: " ++ key
  | invalidGlob e => "Config error: " ++ e.message
  | invalidSettings path => "Config error: " ++ path

/-- What a refused move reports. -/
def notice? : WorkspaceError → Option Notice
  | noFileToMove key => some (.noFileToMove key)
  | noDirToMove key => some (.noDirToMove key)
  | targetFileExists key => some (.targetFileExists key)
  | targetDirExists key => some (.targetDirExists key)
  | _ => none

end WorkspaceError

end ScriptRefactor
