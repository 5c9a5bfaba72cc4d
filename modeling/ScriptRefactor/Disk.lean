import ScriptRefactor.Path.Basic
import ScriptRefactor.Text.Utf8

/-!
# `ScriptRefactor.Disk`: a tree of directories and files

A place on disk is given by the names of the way to it, from the top
down. The disk knows which places hold a directory and which a file
with what bytes; the top always holds a directory.

The operations follow the rules of a file system:

* `makeDirs` creates what is missing on the way to a directory;
* `write` gives a file its bytes, and needs the directory that holds
  it;
* `remove` takes away a place and all below it;
* `rename` moves a place with all below it. A file takes the place of
  a file, a directory that of an empty directory, and nothing can be
  moved below itself.

An operation that breaks a rule gives `none` and changes nothing.
-/

set_option autoImplicit false

namespace ScriptRefactor

/-- The names on the way from the top to a place. -/
abbrev Place : Type := List String

/-- The place of a path from the root of the file system. -/
def Place.ofPath (path : String) : Place :=
  (((Text.splitOn '/' path.toList).foldl (Path.keepSegment true) []).reverse).map String.ofList

/-- The place is `dir` or lies below it. -/
def Place.isUnder (p dir : Place) : Bool := dir.isPrefixOf p

/-- What a place holds. -/
inductive Entry where
  /-- A directory. -/
  | dir
  /-- A file with its bytes. -/
  | file (bytes : List UInt8)
deriving DecidableEq, Repr, Inhabited

/-- The places that hold something, the top left out. -/
structure Disk where
  /-- What each place holds. -/
  entries : List (Place × Entry)
deriving DecidableEq, Repr, Inhabited

namespace Disk

/-! ### Looking -/

/-- A disk with nothing but the top. -/
def empty : Disk := ⟨[]⟩

/-- What a place holds. -/
def find? (d : Disk) (p : Place) : Option Entry :=
  if p = [] then some .dir else (d.entries.find? fun e => e.1 = p).map Prod.snd

/-- The place holds something. -/
def occupied (d : Disk) (p : Place) : Bool := (d.find? p).isSome

/-- The place holds a directory. -/
def isDir (d : Disk) (p : Place) : Bool := d.find? p = some .dir

/-- The bytes of the file at a place. -/
def bytes? (d : Disk) (p : Place) : Option (List UInt8) :=
  match d.find? p with
  | some (.file bytes) => some bytes
  | _ => none

/-- The place holds a file. -/
def isFile (d : Disk) (p : Place) : Bool := (d.bytes? p).isSome

/-- The last name of a place that lies directly in `dir`. -/
def nameIn? (dir p : Place) : Option String :=
  match p.getLast? with
  | some name => if p = dir ++ [name] then some name else none
  | none => none

/-- Where the segments of a path lead from a place. A segment can only
be followed from a directory, the one that stays in place and the one
that goes up too. -/
def follow? (d : Disk) (p : Place) : List (List Char) → Option Place
  | [] => some p
  | segment :: rest =>
    if !d.isDir p then none
    else if segment = [] ∨ segment = ['.'] then d.follow? p rest
    else if segment = Path.up then d.follow? p.dropLast rest
    else d.follow? (p ++ [String.ofList segment]) rest

/-- Where a path from the root of the file system leads on this disk. -/
def placeOf? (d : Disk) (path : String) : Option Place :=
  d.follow? [] (Text.splitOn '/' path.toList)

/-- The names in a directory. -/
def names (d : Disk) (dir : Place) : List String :=
  if d.isDir dir then d.entries.filterMap fun e => nameIn? dir e.1 else []

/-! ### Changing -/

/-- A place given something to hold. -/
def put (d : Disk) (p : Place) (e : Entry) : Disk := ⟨(p, e) :: d.entries.filter (·.1 ≠ p)⟩

/-- A place and all below it taken away. -/
def remove (d : Disk) (p : Place) : Disk := ⟨d.entries.filter fun e => !Place.isUnder e.1 p⟩

/-- One directory created, unless it is there. -/
def makeDir (d : Disk) (p : Place) : Option Disk :=
  match d.find? p with
  | some .dir => some d
  | some (.file _) => none
  | none => some (d.put p .dir)

/-- A directory created, with those on the way to it. -/
def makeDirs (d : Disk) (p : Place) : Option Disk :=
  (List.range (p.length + 1)).foldlM (fun d n => d.makeDir (p.take n)) d

/-- The directory that is to hold a place created. -/
def makeParent (d : Disk) (p : Place) : Option Disk := d.makeDirs p.dropLast

/-- A file given its bytes. -/
def write (d : Disk) (p : Place) (bytes : List UInt8) : Option Disk :=
  if d.isDir p || !d.isDir p.dropLast then none else some (d.put p (.file bytes))

/-- The directory holds nothing. -/
def isBare (d : Disk) (p : Place) : Bool :=
  d.entries.all fun e => e.1 = p || !Place.isUnder e.1 p

/-- A place with all below it carried to another one. -/
def carry (d : Disk) (origin target : Place) : Disk :=
  ⟨d.entries.map fun e =>
    if Place.isUnder e.1 origin then (target ++ e.1.drop origin.length, e.2) else e⟩

/-- Whether what `origin` holds may take the place of what `target`
holds. -/
def mayReplace (d : Disk) (origin target : Place) : Bool :=
  match d.find? origin, d.find? target with
  | none, _ => false
  | some _, none => d.isDir target.dropLast
  | some (.file _), some (.file _) => true
  | some .dir, some .dir => d.isBare target
  | some _, some _ => false

/-- A place renamed. -/
def rename (d : Disk) (origin target : Place) : Option Disk :=
  if origin = target then if d.occupied origin then some d else none
  else if Place.isUnder target origin || !d.mayReplace origin target then none
  else some ((d.remove target).carry origin target)

/-! ### Text -/

/-- The bytes of a text. -/
def bytesOf (text : String) : List UInt8 := text.toList.flatMap String.utf8EncodeChar

/-- The entries below a place, with what follows the place on the way
to them. -/
def below (d : Disk) (top : Place) : List (Place × Entry) :=
  d.entries.filterMap fun e =>
    if e.1 ≠ top ∧ Place.isUnder e.1 top then some (e.1.drop top.length, e.2) else none

end Disk

end ScriptRefactor
