import ScriptRefactor.Edit.Basic
import ScriptRefactor.Text.Basic

/-!
# `ScriptRefactor.Edit.Merge`: a batch of edits made consistent

The edits of a batch come from different operations and may repeat
or contain one another. `mergeEdits` orders them from the end of the
text to its start, longer ones first, and then

* joins the insertions at one point into one, in the order in which
  they were found;
* drops an edit inside another one: a replacement within the span of
  another, an insertion strictly inside it. Of equal spans the first
  one found stays.

A deletion of the whole content of a line then takes the line break
with it, unless an edit starts there.

What is left may still overlap without one containing the other;
`findConflict?` gives the first such pair.
-/

set_option autoImplicit false

namespace ScriptRefactor

namespace Edit

/-- `a` is applied before `b`: it starts further back, or at the same
place and reaches further. Edits of one span keep their order. -/
def appliesBefore (a b : Edit) : Bool :=
  b.start < a.start || (a.start = b.start && b.stop ≤ a.stop)

/-- `outer` makes `inner` superfluous. -/
def covers (outer inner : Edit) : Bool :=
  if outer.isInsertion then false
  else if inner.isInsertion then outer.start < inner.start && inner.start < outer.stop
  else outer.start ≤ inner.start && inner.stop ≤ outer.stop

/-- `later` inserts at the point at which `earlier` inserts. -/
def joins (earlier later : Edit) : Bool :=
  earlier.isInsertion && later.isInsertion && earlier.start = later.start

/-- The next edit taken onto the edits kept so far, the last one kept
first. -/
def keep (kept : List Edit) (e : Edit) : List Edit :=
  let taken :=
    if kept.any (·.covers e) then kept else e :: kept.filter fun k => !(e.covers k)
  match kept with
  | last :: before =>
    if last.joins e then { last with replacement := last.replacement ++ e.replacement } :: before
    else taken
  | [] => taken

/-- The edit deletes everything between two line breaks, or from the
start of the text up to a line break. -/
def emptiesLine (text : String) (e : Edit) : Bool :=
  e.replacement.isEmpty && e.start < e.stop
    && (e.start = 0 || Text.hasCharAt text (e.start - 1) '\n')
    && Text.hasCharAt text e.stop '\n'

/-- The edit with the line break behind it, if it empties a line and
none of the edits of the batch starts there. -/
def withLineBreak (text : String) (batch : List Edit) (e : Edit) : Edit :=
  if e.emptiesLine text && !(batch.any fun k => k.start = e.stop) then
    { e with stop := e.stop + 1 }
  else e

end Edit

/-- The edits of a batch that are applied, in the order in which they
are. -/
def mergeEdits (text : String) (edits : List Edit) : List Edit :=
  let kept := ((edits.mergeSort Edit.appliesBefore).foldl Edit.keep []).reverse
  kept.map (Edit.withLineBreak text kept)

/-- The first pair of neighbours that overlap. -/
def findConflict? : List Edit → Option (Edit × Edit)
  | a :: b :: rest => if a.start < b.stop then some (a, b) else findConflict? (b :: rest)
  | _ => none

end ScriptRefactor
