import ScriptRefactor.Disk
import ScriptRefactor.Toml.Document
import ScriptRefactor.Workspace.Error

/-!
# `ScriptRefactor.Workspace.Settings`: the settings of a project

A project may have a settings file at its root. It limits the size of
the files that are read, and says which paths a listing shows. What
it does not set has its default; what it sets beside that is left
alone.
-/

set_option autoImplicit false

namespace ScriptRefactor

/-- The settings of a project. -/
structure Settings where
  /-- The greatest number of bytes of a file that is read. -/
  maxFileSize : Nat
  /-- Globs of the paths that a listing shows; none means all. -/
  shown : List String
  /-- Globs of the paths that a listing hides. -/
  hidden : List String
deriving DecidableEq, Repr

namespace Settings

/-- The settings of a project that sets nothing. -/
def default : Settings := ⟨10000000, [], []⟩

/-- The name of the settings file. -/
def fileName : String := "forge.toml"

/-- The path of the settings file of a project. -/
def filePath (root : String) : String := root ++ "/" ++ fileName

/-- The size limit that a document sets. -/
def sizeOf? : Option Toml → Option Nat
  | none => some default.maxFileSize
  | some (.integer n) => if 0 ≤ n then some n.toNat else none
  | some _ => none

/-- The globs that a document lists. -/
def globsOf? : Option Toml → Option (List String)
  | none => some []
  | some v => v.strings?

/-- The two lists of globs that a document sets: in a table, under
their names, or one after the other in an array. A date counts as a
table that sets nothing. -/
def listingOf? : Option Toml → Option (List String × List String)
  | none | some .moment => some ([], [])
  | some v =>
    match v.entries?, v.items? with
    | some es, _ => do
      return (← globsOf? (Toml.get? es "include"), ← globsOf? (Toml.get? es "exclude"))
    | none, some items => do return (← globsOf? items[0]?, ← globsOf? items[1]?)
    | none, none => none

/-- The settings that the text of a settings file writes. -/
def ofText? (text : String) : Option Settings := do
  let es ← Toml.parse? text
  let size ← sizeOf? (Toml.get? es "max_file_size")
  let (shown, hidden) ← listingOf? (Toml.get? es "listing")
  return ⟨size, shown, hidden⟩

/-- The settings of the project at a root. -/
def load (d : Disk) (root : String) : Except WorkspaceError Settings :=
  match d.bytes? (Place.ofPath (filePath root)) with
  | none => .ok default
  | some bytes =>
    if Text.Utf8.isWellFormed bytes then
      match ofText? (Text.Utf8.decode bytes) with
      | some s => .ok s
      | none => .error (.invalidSettings (filePath root))
    else .error .refused

/-- The filter of the listings. -/
def filter (s : Settings) : Except WorkspaceError PathFilter :=
  match PathFilter.ofTexts s.shown s.hidden with
  | .ok f => .ok f
  | .error e => .error (.invalidGlob e)

/-- The root of the project: the one that is asked for, else the one
that the environment names, else the directory where the program
runs. -/
def projectRoot (asked? environment? : Option String) (current : String) : String :=
  (asked? <|> environment?).getD current

end Settings

end ScriptRefactor
