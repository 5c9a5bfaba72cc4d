import ScriptRefactor.Edit.Merge

/-!
# `ScriptRefactor.Edit.Apply`: edits carried out

The merged edits of a batch are carried out one after the other, from
the end of the text to its start, so that the positions in front stay
valid. A position past the end counts as the end, and one inside a
character as the start of the character.

* `applyEdits` always gives a text; overlapping edits damage each
  other, which is reported.
* `applyEditsChecked` refuses a batch with overlapping edits.
-/

set_option autoImplicit false

namespace ScriptRefactor

open Syntax

/-- Two edits of a batch overlap, and neither contains the other. -/
structure EditConflict where
  /-- The edit that would be applied first. -/
  first : Span
  /-- The edit that overlaps it. -/
  second : Span
deriving DecidableEq, Repr

/-- The wording of a conflict. -/
def EditConflict.message (c : EditConflict) : String :=
  "Conflicting edits at " ++ c.first.text ++ " and " ++ c.second.text

/-- The text with one edit carried out. -/
def Edit.carryOut (cs : List Char) (e : Edit) : List Char :=
  (Text.cutBefore cs (min e.start e.stop)).1 ++ e.replacement.toList
    ++ (Text.cutBefore cs e.stop).2

/-- The text with the edits carried out in the given order. -/
def splice (text : String) (merged : List Edit) : String :=
  String.ofList (merged.foldl Edit.carryOut text.toList)

/-- The conflict among the edits of a batch, if there is one. -/
def conflictAmong? (merged : List Edit) : Option EditConflict :=
  (findConflict? merged).map fun (a, b) => ⟨a.span, b.span⟩

/-- The text with a batch of edits applied, and a notice of a
conflict. -/
def applyEdits (text : String) (edits : List Edit) : String × List Notice :=
  let merged := mergeEdits text edits
  (splice text merged,
    ((conflictAmong? merged).map fun c => Notice.conflict c.first c.second).toList)

/-- The text with a batch of edits applied, if none of them
overlap. -/
def applyEditsChecked (text : String) (edits : List Edit) : Except EditConflict String :=
  let merged := mergeEdits text edits
  match conflictAmong? merged with
  | some c => .error c
  | none => .ok (splice text merged)

end ScriptRefactor
