import ScriptRefactor.Refactoring.ListLayout

/-!
# `ScriptRefactor.Refactoring.ObjectProperties`: properties of object literals

Objects are found by the variable they are the value of; without one,
every object that is the value of a variable is meant. A property
goes by its key only if the key is a plain name, written out or in
short.
-/

set_option autoImplicit false

namespace ScriptRefactor.Refactoring

open Syntax

/-- The objects bound to a variable, or to any. -/
def objectsOf (t : Tree) (var? : Option String) : List Node :=
  (t.nodes.filter (Node.is · .variableDeclarator)).filterMap fun d =>
    let bound := match var? with
      | some var => (d.child? .name).any (t.text · = var)
      | none => true
    if bound then (d.child? .value).filter (·.is .object) else none

/-- The key of a property, if it is a plain name. -/
def propertyKey? (property : Node) : Option Node :=
  if property.is .pair then (property.child? .key).filter (·.is .propertyIdentifier)
  else if property.is .shorthandPropertyIdentifier then some property
  else none

/-- The property goes by the key. -/
def hasKey (t : Tree) (key : String) (property : Node) : Bool :=
  (propertyKey? property).any (t.text · = key)

/-- The first property of an object that goes by a key. -/
def findProperty? (t : Tree) (object : Node) (key : String) : Option Node :=
  (entriesOf object).find? (hasKey t key)

/-- A property in an object that has none of its key. -/
def addEntry (t : Tree) (object : Node) (entry : String) : List Edit :=
  match entriesOf object with
  | [] =>
    let closing := object.stop - 1
    if hasLineBreak (t.text object) then
      [.insert (object.start + 1) ("\n" ++ indentAt t.source closing ++ "  " ++ entry ++ ",")]
    else [⟨object.start + 1, closing, " " ++ entry ++ " "⟩]
  | properties => ((ListLayout.of t object properties).append? properties [entry]).toList

/-- A new last property of each object; one that has the key already
is left alone. -/
def addProperty (t : Tree) (var? : Option String) (key value : String) : Changes :=
  (objectsOf t var?).foldl (fun changes object =>
    changes.append <|
      if (findProperty? t object key).isSome then .onlyNotice (.propertyExists var? key)
      else .ofEdits (addEntry t object (key ++ ": " ++ value))) (.ofEdits [])

/-- Replaces the value of a property. One written in short is written
out. -/
def setProperty (t : Tree) (var? : Option String) (key value : String) : List Edit :=
  (objectsOf t var?).filterMap fun object =>
    (findProperty? t object key).bind fun property =>
      if property.is .shorthandPropertyIdentifier then
        some (.replaceNode property (key ++ ": " ++ value))
      else (property.child? .value).map (.replaceNode · value)

/-- Renames the key of a property. One written in short is written
out and keeps its value. -/
def renameProperty (t : Tree) (var? : Option String) (old new : String) : List Edit :=
  (objectsOf t var?).filterMap fun object =>
    (findProperty? t object old).bind fun property =>
      if property.is .shorthandPropertyIdentifier then
        some (.replaceNode property (new ++ ": " ++ old))
      else (propertyKey? property).map (.replaceNode · new)

/-- The edit that drops the first property with the key among the
given ones; `before?` is the property in front of them. -/
def removeAmong? (t : Tree) (object : Node) (key : String) :
    Option Node → List Node → Option Edit
  | _, [] => none
  | before?, property :: rest =>
    if hasKey t key property then
      match before? with
      | some before => some (.delete before.stop property.stop)
      | none => some (.delete (object.start + 1) (endWithComma t property))
    else removeAmong? t object key (some property) rest

/-- Drops a property of each object: the first with all that stands
in front of it and a comma behind, any other from the end of the
property in front. -/
def removeProperty (t : Tree) (var? : Option String) (key : String) : List Edit :=
  (objectsOf t var?).filterMap fun object => removeAmong? t object key none (entriesOf object)

end ScriptRefactor.Refactoring
