import ScriptRefactor.LineDiff.Block

/-!
# `ScriptRefactor.LineDiff.Compact`: changes brought together

An inserted run may stand in several places: if the shared lines in
front of it end as the run itself ends, it can slide up, and if the
shared lines behind it start as it starts, down. Each insertion is
slid as far up as it goes and then as far down; on the way it
swallows other insertions and passes deletions. Before that each
deletion passes the insertions next to it and swallows other
deletions, but it stays between its shared lines. So changes that
belong together end up in one run, at the lowest place.

The blocks are held as a zipper: the ones in front of a position, the
nearest first, and the ones behind it.
-/

set_option autoImplicit false

namespace ScriptRefactor.LineDiff

/-- A measure of the blocks on one side: each step of a slide takes a
line or a block away from it. -/
def weight : List Block → Nat
  | [] => 0
  | b :: bs => b.length + 1 + weight bs

/-- A block with the blocks on both sides. -/
structure Focus where
  /-- The blocks in front, the nearest first. -/
  before : List Block
  /-- The block itself. -/
  here : Block
  /-- The blocks behind. -/
  after : List Block

/-- The number of lines by which a run can move up over the shared
lines in front of it. Only an insertion moves over shared lines. -/
def slackAbove (old new : Array String) (here shared : Block) : Nat :=
  if here.tag = .insert then
    sameSuffix old new (shared.old + shared.length) (here.new + here.length)
      (min shared.length here.length)
  else 0

/-- The number of lines by which a run can move down over the shared
lines behind it. -/
def slackBelow (old new : Array String) (here shared : Block) : Nat :=
  if here.tag = .insert then
    samePrefix old new shared.old here.new (min shared.length here.length)
  else 0

/-- `n` shared lines that stood in front of an insertion now stand
behind it. -/
def pushBelow (here shared : Block) (n : Nat) : List Block → List Block
  | next :: rest =>
    if next.tag = .equal then (next.moveUp n).extend n :: rest
    else
      ⟨.equal, shared.old + shared.length - n, here.new + here.length - n, n⟩ :: next :: rest
  | [] => [⟨.equal, shared.old + shared.length - n, here.new + here.length - n, n⟩]

/-- `n` shared lines that stood behind an insertion now stand in front
of it. -/
def pushAbove (here shared : Block) (n : Nat) : List Block → List Block
  | last :: rest =>
    if last.tag = .equal then last.extend n :: rest
    else ⟨.equal, shared.old, here.new, n⟩ :: last :: rest
  | [] => [⟨.equal, shared.old, here.new, n⟩]

/-- Slides a run up as far as it goes. -/
def slideUp (old new : Array String) (after : List Block) (here : Block) :
    List Block → Focus
  | [] => ⟨[], here, after⟩
  | last :: before =>
    if last.tag = .equal then
      let n := slackAbove old new here last
      if n = 0 then
        if last.length = 0 then slideUp old new after here before
        else ⟨last :: before, here, after⟩
      else if last.length ≤ n then
        slideUp old new (pushBelow here last n after) (here.moveUp n) before
      else
        slideUp old new (pushBelow here last n after) (here.moveUp n) (last.shorten n :: before)
    else if last.tag = here.tag then slideUp old new after (last.extend here.length) before
    else slideUp old new (last :: after) here before
termination_by before => weight before
decreasing_by all_goals simp only [weight, Block.shorten]; omega

/-- Slides a run down as far as it goes. -/
def slideDown (old new : Array String) (before : List Block) (here : Block) :
    List Block → Focus
  | [] => ⟨before, here, []⟩
  | next :: after =>
    if next.tag = .equal then
      let n := slackBelow old new here next
      if n = 0 then
        if next.length = 0 then slideDown old new before here after
        else ⟨before, here, next :: after⟩
      else if next.length ≤ n then
        slideDown old new (pushAbove here next n before) (here.moveDown n) after
      else
        slideDown old new (pushAbove here next n before) (here.moveDown n)
          ((next.moveDown n).shorten n :: after)
    else if next.tag = here.tag then slideDown old new before (here.extend next.length) after
    else slideDown old new (next :: before) here after
termination_by after => weight after
decreasing_by all_goals simp only [weight, Block.shorten, Block.moveDown]; omega

/-- Slides all runs of one kind behind the blocks `before`. -/
def compactFuel (old new : Array String) (tag : Tag) : Nat → List Block → List Block → List Block
  | 0, before, after => before.reverse ++ after
  | _ + 1, before, [] => before.reverse
  | fuel + 1, before, here :: after =>
    if here.tag = tag then
      let up := slideUp old new after here before
      let down := slideDown old new up.before up.here up.after
      compactFuel old new tag fuel (down.here :: down.before) down.after
    else compactFuel old new tag fuel (here :: before) after

/-- Slides all runs of one kind. A run that was slid is not visited
again, so there are no more visits than lines and blocks. -/
def compactKind (old new : Array String) (tag : Tag) (blocks : List Block) : List Block :=
  compactFuel old new tag (2 * weight blocks + 2) [] blocks

/-- Slides all deletions and then all insertions. -/
def compact (old new : Array String) (blocks : List Block) : List Block :=
  compactKind old new .insert (compactKind old new .delete blocks)

end ScriptRefactor.LineDiff
