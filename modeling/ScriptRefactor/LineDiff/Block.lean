import ScriptRefactor.Text.Basic

/-!
# `ScriptRefactor.LineDiff.Block`: runs of equal, deleted and inserted lines

A text is compared line by line. A line keeps the characters that end
it: a line feed, a carriage return, or both together. A *block* is a
run of lines that the two texts share, that only the old one has, or
that only the new one has; it says where in both texts the run
stands.
-/

set_option autoImplicit false

namespace ScriptRefactor.LineDiff

/-! ### Lines -/

/-- The lines of a text, each with the characters that end it. -/
def linesOf : List Char → List (List Char)
  | [] => []
  | '\r' :: '\n' :: cs => ['\r', '\n'] :: linesOf cs
  | c :: cs =>
    if c = '\n' ∨ c = '\r' then [c] :: linesOf cs
    else
      match linesOf cs with
      | line :: lines => (c :: line) :: lines
      | [] => [[c]]

/-- The lines of a text. -/
def tokenize (text : String) : Array String := ((linesOf text.toList).map String.ofList).toArray

/-! ### Blocks -/

/-- What a block stands for. -/
inductive Tag where
  /-- Lines of both texts. -/
  | equal
  /-- Lines of the old text alone. -/
  | delete
  /-- Lines of the new text alone. -/
  | insert
deriving DecidableEq, Repr, Inhabited

/-- A run of lines. -/
structure Block where
  /-- What the run stands for. -/
  tag : Tag
  /-- The line of the old text where the run starts. -/
  old : Nat
  /-- The line of the new text where the run starts. -/
  new : Nat
  /-- The number of lines. -/
  length : Nat
deriving DecidableEq, Repr, Inhabited

namespace Block

/-- The run moved up over `n` lines. -/
def moveUp (b : Block) (n : Nat) : Block := { b with old := b.old - n, new := b.new - n }

/-- The run moved down over `n` lines. -/
def moveDown (b : Block) (n : Nat) : Block := { b with old := b.old + n, new := b.new + n }

/-- The run with `n` more lines at its end. -/
def extend (b : Block) (n : Nat) : Block := { b with length := b.length + n }

/-- The run without its last `n` lines. -/
def shorten (b : Block) (n : Nat) : Block := { b with length := b.length - n }

/-- Blocks that hold lines. -/
def some (tag : Tag) (old new length : Nat) : List Block :=
  if length = 0 then [] else [⟨tag, old, new, length⟩]

end Block

/-! ### Equal lines in front and at the end -/

/-- The number of equal lines of two ranges from their fronts on; the
ranges start at `i` and `j` and hold at least `limit` lines. -/
def samePrefix (a b : Array String) (i j : Nat) : Nat → Nat
  | 0 => 0
  | limit + 1 =>
    match a[i]?, b[j]? with
    | some x, some y => if x = y then samePrefix a b (i + 1) (j + 1) limit + 1 else 0
    | _, _ => 0

/-- The number of equal lines of two ranges from their ends on; the
ranges end in front of `i` and `j` and hold at least `limit`
lines. -/
def sameSuffix (a b : Array String) (i j : Nat) : Nat → Nat
  | 0 => 0
  | limit + 1 =>
    match a[i - 1]?, b[j - 1]? with
    | some x, some y => if x = y then sameSuffix a b (i - 1) (j - 1) limit + 1 else 0
    | _, _ => 0

end ScriptRefactor.LineDiff
