import ScriptRefactor.Text.Basic

/-!
# `ScriptRefactor.Path.Basic`: paths inside a project

A path is a text of segments separated by `/`. Its *normal form* has
no empty segment, no `.` and no trailing `/`, and keeps a `..` only
in front, where nothing is left to leave; a path from the file
system's root has no `..` at all.

* `normalize` brings a path into normal form. `\` separates segments
  too.
* `isUnder` and `replacePrefix?` work by whole segments, so `src/ab`
  is not under `src/a`.
* `moduleSource` names one file as an import inside another names
  it.
-/

set_option autoImplicit false

namespace ScriptRefactor.Path

open ScriptRefactor

/-! ### Normal form -/

/-- The segment that leaves a directory. -/
def up : List Char := ['.', '.']

/-- The next segment taken onto the segments kept so far, the last
one first. A `..` takes the segment before it away; where there is
none, only a path that does not start at the root keeps it. -/
def keepSegment (fromRoot : Bool) (kept : List (List Char)) (segment : List Char) :
    List (List Char) :=
  if segment = [] ∨ segment = ['.'] then kept
  else if segment = up then
    match kept with
    | last :: before =>
      if last = up then (if fromRoot then kept else up :: kept) else before
    | [] => if fromRoot then [] else [up]
  else segment :: kept

/-- Either separator is written `/`. -/
def separator (c : Char) : Char := if c = '\\' then '/' else c

/-- The path starts at the root of the file system. -/
def isFromRoot (path : List Char) : Bool := path.head? = some '/'

/-- The characters of the normal form. -/
def normalChars (path : List Char) : List Char :=
  let unified := path.map separator
  let fromRoot := isFromRoot unified
  let kept := (Text.splitOn '/' unified).foldl (keepSegment fromRoot) []
  let joined := Text.joinWith ['/'] kept.reverse
  if fromRoot then '/' :: joined else joined

/-- A path in normal form. -/
def normalize (path : String) : String := String.ofList (normalChars path.toList)

/-- The path `rest` as seen from the directory `base`. -/
def join (base rest : String) : String :=
  if base.isEmpty then normalize rest else normalize (base ++ "/" ++ rest)

/-! ### Directories above a path -/

/-- What follows the directory `dir` in `path`: nothing when they are
the same, else a text that starts with `/`. Everything is below the
empty directory. -/
def below? (path dir : String) : Option (List Char) :=
  match Text.afterPrefix? dir.toList path.toList with
  | some rest => if dir.isEmpty || rest.isEmpty || rest.head? = some '/' then some rest else none
  | none => none

/-- `path` is `dir` or lies below it. -/
def isUnder (path dir : String) : Bool := (below? path dir).isSome

/-- `path` with the directory `old` in front replaced by `new`. -/
def replacePrefix? (path old new : String) : Option String :=
  (below? path old).map fun rest => normalize (new ++ String.ofList rest)

/-- The directory that holds `path`; `""` for a path of one
segment. -/
def parent (path : String) : String :=
  match Text.splitLast? '/' path.toList with
  | some (dir, _) => String.ofList dir
  | none => ""

/-- The last segment. -/
def fileName (path : String) : String :=
  match Text.splitLast? '/' path.toList with
  | some (_, name) => String.ofList name
  | none => path

/-! ### File names -/

/-- A file name without its extension. A name that starts with its
only dot has none. -/
def dropExtension (name : String) : String :=
  match Text.splitLast? '.' name.toList with
  | some (stem, _) => if stem.isEmpty then name else String.ofList stem
  | none => name

/-- The segments of the directory that holds `path`. -/
def directorySegments (path : String) : List String :=
  ((Text.splitOn '/' (parent path).toList).filter (!·.isEmpty)).map String.ofList

/-- The number of segments that two paths share from the front. -/
def sharedLength : List String → List String → Nat
  | a :: as, b :: bs => if a = b then sharedLength as bs + 1 else 0
  | _, _ => 0

/-- How the file `origin` names the file `target` in an import: the way
up to the nearest common directory, the way down, and the name
without its extension; it always starts with a dot. -/
def moduleSource (origin target : String) : String :=
  let here := directorySegments origin
  let there := directorySegments target
  let shared := sharedLength here there
  let segments := List.replicate (here.length - shared) ".." ++ there.drop shared
    ++ [dropExtension (fileName target)]
  let joined := "/".intercalate segments
  if joined.toList.head? = some '.' then joined else "./" ++ joined

end ScriptRefactor.Path
