import ScriptRefactor.Refactoring.ListLayout

/-!
# `ScriptRefactor.Refactoring.ArrayElements`: elements of array literals

An array is found by the variable it is the first value of. A new
element goes to the end, on a line of its own if the array takes
several. An element is dropped with one of its separators.
-/

set_option autoImplicit false

namespace ScriptRefactor.Refactoring

open Syntax

/-- The array in the first declaration of a variable that has an
array for its value. -/
def findArray? (t : Tree) (var : String) : Option Node :=
  (t.nodes.filter (Node.is · .variableDeclarator)).findSome? fun d =>
    if (d.child? .name).any (t.text · = var) then (d.child? .value).filter (·.is .array) else none

/-- A new last element of an array. -/
def appendElement (t : Tree) (array : Node) (code : String) : List Edit :=
  let indent := indentAt t.source (array.stop - 1)
  let several := hasLineBreak (t.text array)
  [match (entriesOf array).getLast? with
    | some last =>
      .insert last.stop (if several then ",\n" ++ indent ++ "  " ++ code else ", " ++ code)
    | none =>
      .insert (array.start + 1) (if several then "\n" ++ indent ++ "  " ++ code ++ "," else code)]

/-- A new last element of the array bound to a variable. -/
def addToArray (t : Tree) (var code : String) : List Edit :=
  match findArray? t var with
  | some array => appendElement t array code
  | none => []

/-- Drops an element of an array. The only element goes with all that
stands in front of it and a comma behind; the first goes up to the
second; any other goes with the comma in front. -/
def removeElement (t : Tree) (array element : Node) : Changes :=
  match entriesOf array with
  | [] => .onlyNotice (.notAnElement element.span)
  | [only] =>
    if only.id = element.id then
      .ofEdits [.delete (array.start + 1) (endWithComma t element)]
    else .onlyNotice (.notAnElement element.span)
  | first :: next :: rest =>
    if first.id = element.id then .ofEdits [.delete element.start next.start]
    else if (next :: rest).any (·.id = element.id) then
      .ofEdits [.delete (startWithComma t element) element.stop]
    else .onlyNotice (.notAnElement element.span)

/-- Drops the first element of an array that is the given name. -/
def removeFromArray (t : Tree) (var name : String) : Changes :=
  match findArray? t var with
  | none => .ofEdits []
  | some array =>
    match (entriesOf array).find? fun e => e.is .identifier && t.text e = name with
    | some element => removeElement t array element
    | none => .onlyNotice (.noElement var name)

end ScriptRefactor.Refactoring
