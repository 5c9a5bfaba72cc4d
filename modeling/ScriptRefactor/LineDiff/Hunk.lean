import ScriptRefactor.LineDiff.Compact
import ScriptRefactor.LineDiff.Script

/-!
# `ScriptRefactor.LineDiff.Hunk`: differences of two texts

A *hunk* is a run of shared lines, or all that is deleted and
inserted between two such runs. Differences are shown in two ways:

* `chunks` lists runs of lines that are removed, added or unchanged.
  A missing line feed at the end of a text does not count.
* `unified` shows the changes with three lines around them; dots
  stand between changes that are further apart.
-/

set_option autoImplicit false

namespace ScriptRefactor.LineDiff

/-! ### Hunks -/

/-- Shared lines, or lines that are replaced by others. -/
inductive Hunk where
  /-- Lines of both texts, from the given line of the old one on. -/
  | same (old length : Nat)
  /-- Deleted lines and inserted ones; either may be none. -/
  | change (old deleted new inserted : Nat)
deriving DecidableEq, Repr

/-- A block taken onto the hunks so far, the last one first. -/
def Hunk.take (hunks : List Hunk) (b : Block) : List Hunk :=
  match b.tag, hunks with
  | .equal, .same old length :: rest => .same old (length + b.length) :: rest
  | .equal, rest => .same b.old b.length :: rest
  | .delete, .change old deleted new inserted :: rest =>
    .change (if deleted = 0 then b.old else old) (deleted + b.length) new inserted :: rest
  | .delete, rest => .change b.old b.length b.new 0 :: rest
  | .insert, .change old deleted new inserted :: rest =>
    .change old deleted (if inserted = 0 then b.new else new) (inserted + b.length) :: rest
  | .insert, rest => .change b.old 0 b.new b.length :: rest

/-- The hunks of some blocks. -/
def Hunk.ofBlocks (blocks : List Block) : List Hunk := (blocks.foldl Hunk.take []).reverse

/-- The hunks between two texts. -/
def hunks (old new : Array String) : List Hunk :=
  Hunk.ofBlocks (compact old new (script old new))

/-- Lines of a text. -/
def linesFrom (text : Array String) (start length : Nat) : List String :=
  (text.extract start (start + length)).toList

/-- The lines of a hunk with what they stand for, deleted ones
first. -/
def Hunk.lines (old new : Array String) : Hunk → List (Tag × String)
  | .same start length => (linesFrom old start length).map (Tag.equal, ·)
  | .change o deleted n inserted =>
    (linesFrom old o deleted).map (Tag.delete, ·) ++ (linesFrom new n inserted).map (Tag.insert, ·)

/-! ### Chunks -/

/-- A run of lines that share their kind. -/
structure Chunk where
  /-- Whether the lines are unchanged, removed or added. -/
  tag : Tag
  /-- The lines with their ends. -/
  value : String
  /-- The number of lines. -/
  count : Nat
deriving DecidableEq, Repr

/-- A line taken onto the chunks so far, the last one first. -/
def Chunk.take (chunks : List Chunk) (line : Tag × String) : List Chunk :=
  match chunks with
  | last :: rest =>
    if last.tag = line.1 then ⟨last.tag, last.value ++ line.2, last.count + 1⟩ :: rest
    else ⟨line.1, line.2, 1⟩ :: chunks
  | [] => [⟨line.1, line.2, 1⟩]

/-- The text with a line feed at its end, unless it is empty. -/
def withFinalFeed (text : String) : String :=
  if text.isEmpty || Text.endsWith ['\n'] text.toList then text else text ++ "\n"

/-- The chunks between two texts. -/
def chunks (old new : String) : List Chunk :=
  let old := tokenize (withFinalFeed old)
  let new := tokenize (withFinalFeed new)
  (((hunks old new).flatMap (Hunk.lines old new)).foldl Chunk.take []).reverse

/-- The mark of a changed line in a report. -/
def reportMark? : Tag → Option String
  | .insert => some " +++ "
  | .delete => some " --- "
  | .equal => none

/-- The lines of a chunk in a report; empty lines are left out. -/
def Chunk.report (c : Chunk) : String :=
  match reportMark? c.tag with
  | none => ""
  | some mark =>
    String.join (((Text.linesOf c.value).filter (!·.isEmpty)).map fun line => mark ++ line ++ "\n")

/-- The changed lines as plain text. -/
def report (chunks : List Chunk) : String := String.join (chunks.map Chunk.report)

/-! ### Unified differences -/

/-- The number of unchanged lines around a change. -/
def context : Nat := 3

/-- The last lines of a shared run. -/
def Hunk.tail (n : Nat) : Hunk → Hunk
  | .same old length => .same (old + (length - n)) (min length n)
  | h => h

/-- The first lines of a shared run. -/
def Hunk.front (n : Nat) : Hunk → Hunk
  | .same old length => .same old (min length n)
  | h => h

/-- The first member of a list changed. -/
def changeFirst (f : Hunk → Hunk) : List Hunk → List Hunk
  | [] => []
  | h :: hs => f h :: hs

/-- The last member of a list changed. -/
def changeLast (f : Hunk → Hunk) : List Hunk → List Hunk
  | [] => []
  | [h] => [f h]
  | h :: hs => h :: changeLast f hs

/-- The hunk only shares lines. -/
def Hunk.isSame : Hunk → Bool
  | .same _ _ => true
  | .change _ _ _ _ => false

/-- Groups of hunks, cut inside every shared run of more than twice
the context; `group` is the one begun, its last hunk first. -/
def groupFrom (group : List Hunk) : List Hunk → List (List Hunk)
  | [] => if group.all Hunk.isSame && group.length ≤ 1 then [] else [group.reverse]
  | .same old length :: hs =>
    if 2 * context < length then
      (Hunk.front context (.same old length) :: group).reverse
        :: groupFrom [Hunk.tail context (.same old length)] hs
    else groupFrom (.same old length :: group) hs
  | h :: hs => groupFrom (h :: group) hs

/-- The groups of a difference, with the shared lines at its two ends
cut down to the context. -/
def groups (hunks : List Hunk) : List (List Hunk) :=
  groupFrom [] (changeLast (Hunk.front context) (changeFirst (Hunk.tail context) hunks))

/-- The sign in front of a line. -/
def sign : Tag → String
  | .equal => " "
  | .delete => "-"
  | .insert => "+"

/-- A line of a unified difference. -/
def unifiedLine (line : Tag × String) : String :=
  let ended := Text.endsWith ['\n'] line.2.toList || Text.endsWith ['\r'] line.2.toList
  sign line.1 ++ line.2 ++ (if ended then "" else "\n")

/-- The unified difference of two texts. -/
def unified (old new : String) : String :=
  let old := tokenize old
  let new := tokenize new
  "...\n".intercalate ((groups (hunks old new)).map fun group =>
    String.join ((group.flatMap (Hunk.lines old new)).map unifiedLine))

end ScriptRefactor.LineDiff
