import ScriptRefactor.LineDiff.Block

/-!
# `ScriptRefactor.LineDiff.Script`: a shortest edit script

`script` turns the old lines into the new ones with as few deleted
and inserted lines as possible. It sets equal lines at the front and
at the end apart and cuts what is between at a *middle snake*: a run
of equal lines in the middle of a shortest script. Searches from both
ends meet there; each keeps, for every diagonal of the edit graph,
how far into the old lines `d` changes can reach, and tries `d = 0,
1, …`.
-/

set_option autoImplicit false

namespace ScriptRefactor.LineDiff

/-! ### The furthest points -/

/-- How far each diagonal was reached, with the diagonal `0` at index
`offset`. -/
structure Reach where
  /-- The index of diagonal `0`. -/
  offset : Nat
  /-- The points reached. -/
  points : Array Nat

namespace Reach

/-- Nothing reached yet, with room for `size` diagonals on both
sides. -/
def start (size : Nat) : Reach := ⟨size, Array.replicate (2 * size + 2) 0⟩

/-- The point on a diagonal. -/
def get (r : Reach) (k : Int) : Nat := (r.points[((r.offset : Int) + k).toNat]?).getD 0

/-- A new point on a diagonal. -/
def set (r : Reach) (k : Int) (x : Nat) : Reach :=
  { r with points := r.points.setIfInBounds ((r.offset : Int) + k).toNat x }

/-- Where the diagonal `k` is entered with `d` changes: from the
neighbour that got further. -/
def enter (r : Reach) (d k : Int) : Nat :=
  if k = -d ∨ (k ≠ d ∧ r.get (k - 1) < r.get (k + 1)) then r.get (k + 1) else r.get (k - 1) + 1

end Reach

/-! ### The middle snake -/

/-- Two ranges of lines: the old ones from `oldStart` up to `oldStop`,
the new ones from `newStart` up to `newStop`. -/
structure Ranges where
  oldStart : Nat
  oldStop : Nat
  newStart : Nat
  newStop : Nat

/-- The number of old lines. -/
def Ranges.oldLength (r : Ranges) : Nat := r.oldStop - r.oldStart

/-- The number of new lines. -/
def Ranges.newLength (r : Ranges) : Nat := r.newStop - r.newStart

/-- Both searches, or the point where they met. -/
abbrev Meeting : Type := Except (Nat × Nat) (Reach × Reach)

/-- The difference of the lengths: the diagonal of the end. -/
def Ranges.delta (r : Ranges) : Int := (r.oldLength : Int) - r.newLength

/-- The search from the front goes on along a diagonal. -/
def forwardStep (old new : Array String) (r : Ranges) (d : Nat) (k : Int)
    (forward backward : Reach) : Meeting :=
  let x := forward.enter d k
  let y := ((x : Int) - k).toNat
  let run :=
    if x < r.oldLength ∧ y < r.newLength then
      samePrefix old new (r.oldStart + x) (r.newStart + y)
        (min (r.oldLength - x) (r.newLength - y))
    else 0
  let forward := forward.set k (x + run)
  let meets := r.delta % 2 ≠ 0 ∧ ((k - r.delta).natAbs : Int) ≤ (d : Int) - 1
    ∧ r.oldLength ≤ x + run + backward.get (-(k - r.delta))
  if meets then .error (x + r.oldStart, y + r.newStart) else .ok (forward, backward)

/-- The search from the end goes on along a diagonal. -/
def backwardStep (old new : Array String) (r : Ranges) (d : Nat) (k : Int)
    (forward backward : Reach) : Meeting :=
  let x := backward.enter d k
  let y := ((x : Int) - k).toNat
  let run :=
    if x < r.oldLength ∧ y < r.newLength then
      sameSuffix old new (r.oldStart + (r.oldLength - x)) (r.newStart + (r.newLength - y))
        (min (r.oldLength - x) (r.newLength - y))
    else 0
  let backward := backward.set k (x + run)
  let meets := r.delta % 2 = 0 ∧ (k - r.delta).natAbs ≤ d
    ∧ r.oldLength ≤ x + run + forward.get (-(k - r.delta))
  if meets then
    .error (r.oldLength - (x + run) + r.oldStart, r.newLength - (y + run) + r.newStart)
  else .ok (forward, backward)

/-- The diagonals that `d` changes reach, the highest first. -/
def diagonals (d : Nat) : List Int := (List.range (d + 1)).map fun i : Nat => (d : Int) - 2 * (i : Int)

/-- The searches with `d` changes, from the front and then from the
end. -/
def searchStep (old new : Array String) (r : Ranges) (d : Nat) (both : Reach × Reach) : Meeting := do
  let both ← (diagonals d).foldlM (fun (f, b) k => forwardStep old new r d k f b) both
  (diagonals d).foldlM (fun (f, b) k => backwardStep old new r d k f b) both

/-- A point between the two halves of a shortest script. -/
def middle? (old new : Array String) (r : Ranges) : Option (Nat × Nat) :=
  let most := (r.oldLength + r.newLength + 1) / 2 + 1
  let searches : Meeting := (List.range most).foldlM (fun both d => searchStep old new r d both)
    (Reach.start most, Reach.start most)
  match searches with
  | .error point => some point
  | .ok _ => none

/-! ### The script -/

/-- The script of two ranges that start and end with different
lines; `halves` gives the script of a part. -/
def scriptBetween (old new : Array String) (halves : Ranges → List Block) (r : Ranges) :
    List Block :=
  if r.newLength = 0 then Block.some .delete r.oldStart r.newStart r.oldLength
  else if r.oldLength = 0 then Block.some .insert r.oldStart r.newStart r.newLength
  else
    match middle? old new r with
    | some (x, y) =>
      halves { r with oldStop := x, newStop := y } ++ halves { r with oldStart := x, newStart := y }
    | none =>
      [⟨.delete, r.oldStart, r.newStart, r.oldLength⟩, ⟨.insert, r.oldStart, r.newStart, r.newLength⟩]

/-- The script of two ranges. A cut leaves at least one line to each
half, so halving ends after as many steps as there are lines. -/
def scriptFuel (old new : Array String) : Nat → Ranges → List Block
  | 0, _ => []
  | fuel + 1, r =>
    let front := samePrefix old new r.oldStart r.newStart (min r.oldLength r.newLength)
    let inner := { r with oldStart := r.oldStart + front, newStart := r.newStart + front }
    let back := sameSuffix old new inner.oldStop inner.newStop (min inner.oldLength inner.newLength)
    let inner := { inner with oldStop := inner.oldStop - back, newStop := inner.newStop - back }
    Block.some .equal r.oldStart r.newStart front
      ++ scriptBetween old new (scriptFuel old new fuel) inner
      ++ Block.some .equal inner.oldStop inner.newStop back

/-- A shortest script that turns the old lines into the new ones. -/
def script (old new : Array String) : List Block :=
  scriptFuel old new (old.size + new.size + 2) ⟨0, old.size, 0, new.size⟩

end ScriptRefactor.LineDiff
