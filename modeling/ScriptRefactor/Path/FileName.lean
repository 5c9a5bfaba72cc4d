import ScriptRefactor.Path.Basic

/-!
# `ScriptRefactor.Path.FileName`: the file a path means

A path as it is handed in may end in separators or in `.` segments;
the file it means is the last segment that is neither. A path that
ends in `..` means no file by name.

* `fileOf?` is that segment.
* `stemOf?` and `extensionOf?` cut it at its last dot. A dot in front
  cuts nothing, so `.js` is a stem.
-/

set_option autoImplicit false

namespace ScriptRefactor.Path

/-- The last segment that is not empty and not `.`, unless it is
`..`. -/
def fileOf? (path : String) : Option String :=
  let segments := (Text.splitOn '/' path.toList).filter fun s => s ≠ [] ∧ s ≠ ['.']
  match segments.getLast? with
  | some last => if last = up then none else some (String.ofList last)
  | none => none

/-- A file name cut at its last dot. -/
def cutName (name : String) : String × Option String :=
  match Text.splitLast? '.' name.toList with
  | some (stem, ext) =>
    if stem.isEmpty then (name, none) else (String.ofList stem, some (String.ofList ext))
  | none => (name, none)

/-- The name of the file without its extension. -/
def stemOf? (path : String) : Option String := (fileOf? path).map fun f => (cutName f).1

/-- The extension of the file. -/
def extensionOf? (path : String) : Option String := (fileOf? path).bind fun f => (cutName f).2

end ScriptRefactor.Path
