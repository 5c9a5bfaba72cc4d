import ScriptRefactor.Proofs.Refactoring.LinkBatches
import ScriptRefactor.Proofs.Refactoring.LiteralBatches

/-!
# `ScriptRefactor.Proofs.Refactoring.Transforms`: transforms give batches without conflict

A `Transform` is a call of one of the operations that change a module,
with its arguments. On a well-formed tree the edits of every transform
lie in the text and are applied without conflict
(`Transform.edits_without_conflict`).
-/

set_option autoImplicit false

namespace ScriptRefactor

open Syntax

namespace Refactoring

variable {t : Tree}

/-- A call of an operation that changes a module. -/
inductive Transform where
  /-- Adds names from a source. -/
  | addImport (source : String) (default? : Option String) (named : List String)
      (whole? : Option String)
  /-- Exports names of a source. -/
  | addExport (source : String) (default? : Option String) (named : List String)
  /-- Removes the imports of names. -/
  | removeImported (names : List String)
  /-- Removes the exports of names. -/
  | removeExported (names : List String) (source? : Option String)
  /-- Removes all links to a source. -/
  | removeLinks (source : String)
  /-- Renames an imported name. -/
  | renameImported (old new : String) (source? : Option String)
  /-- Renames the name that an import gives. -/
  | renameAlias (old new : String)
  /-- Renames an exported name. -/
  | renameExported (old new : String) (source? : Option String)
  /-- Renames a source. -/
  | renameSource (old new : String)
  /-- Adds an element to an array. -/
  | addToArray (var code : String)
  /-- Removes a name from an array. -/
  | removeFromArray (var name : String)
  /-- Adds a property to objects. -/
  | addProperty (var? : Option String) (key value : String)
  /-- Replaces the value of a property. -/
  | setProperty (var? : Option String) (key value : String)
  /-- Renames the key of a property. -/
  | renameProperty (var? : Option String) (old new : String)
  /-- Removes a property from objects. -/
  | removeProperty (var? : Option String) (key : String)
  /-- Renames a class. -/
  | renameClass (old new : String)
  /-- Renames a function. -/
  | renameFunction (old new : String)
  /-- Replaces a text in strings. -/
  | replaceInStrings (old new : String) (wholeValue : Bool)

/-- The edits of a transform. -/
def Transform.edits (t : Tree) : Transform → List Edit
  | .addImport source default? named whole? =>
    Refactoring.addImport t source default? named whole?
  | .addExport source default? named => Refactoring.addExport t source default? named
  | .removeImported names => Refactoring.removeImported t names
  | .removeExported names source? => Refactoring.removeExported t names source?
  | .removeLinks source => Refactoring.removeLinks t source
  | .renameImported old new source? => Refactoring.renameImported t old new source?
  | .renameAlias old new => Refactoring.renameAlias t old new
  | .renameExported old new source? => Refactoring.renameExported t old new source?
  | .renameSource old new => Refactoring.renameSource t old new
  | .addToArray var code => Refactoring.addToArray t var code
  | .removeFromArray var name => (Refactoring.removeFromArray t var name).edits
  | .addProperty var? key value => (Refactoring.addProperty t var? key value).edits
  | .setProperty var? key value => Refactoring.setProperty t var? key value
  | .renameProperty var? old new => Refactoring.renameProperty t var? old new
  | .removeProperty var? key => Refactoring.removeProperty t var? key
  | .renameClass old new => Refactoring.renameClass t old new
  | .renameFunction old new => Refactoring.renameFunction t old new
  | .replaceInStrings old new wholeValue => Refactoring.replaceInStrings t old new wholeValue

/-- The edits of every transform of a well-formed tree are a clean
batch. -/
theorem Transform.clean (ht : t.WellFormed) (x : Transform) : Clean t (x.edits t) := by
  cases x with
  | addImport source default? named whole? =>
      exact (wholeNodes_addImport ht source default? named whole?).clean ht
  | addExport source default? named =>
      exact (wholeNodes_addExport ht source default? named).clean ht
  | removeImported names => exact clean_removeImported ht names
  | removeExported names source? => exact clean_removeExported ht names source?
  | removeLinks source => exact (wholeNodes_removeLinks t source).clean ht
  | renameImported old new source? => exact (wholeNodes_renameImported t old new source?).clean ht
  | renameAlias old new => exact (wholeNodes_renameAlias t old new).clean ht
  | renameExported old new source? => exact (wholeNodes_renameExported t old new source?).clean ht
  | renameSource old new => exact clean_renameSource ht old new
  | addToArray var code => exact (wholeNodes_addToArray ht var code).clean ht
  | removeFromArray var name => exact clean_removeFromArray ht var name
  | addProperty var? key value => exact clean_addProperty ht var? key value
  | setProperty var? key value => exact clean_setProperty ht var? key value
  | renameProperty var? old new => exact clean_renameProperty ht var? old new
  | removeProperty var? key => exact clean_removeProperty ht var? key
  | renameClass old new => exact (wholeNodes_renameDeclared t _ old new).clean ht
  | renameFunction old new => exact (wholeNodes_renameDeclared t _ old new).clean ht
  | replaceInStrings old new wholeValue => exact clean_replaceInStrings ht old new wholeValue

/-- The edits of every transform of a well-formed tree lie in its text,
and are applied without conflict. -/
theorem Transform.edits_without_conflict (t : Tree) (ht : t.WellFormed) (x : Transform) :
    (∀ e ∈ x.edits t, e.start ≤ e.stop ∧ e.stop ≤ Text.size t.source)
      ∧ ∃ out, applyEditsChecked t.source (x.edits t) = .ok out := by
  obtain ⟨htext, hcompat⟩ := Transform.clean ht x
  exact ⟨htext, Edit.applyEditsChecked_ok t.source (fun e he => (htext e he).1) hcompat⟩

/-- An object in a function of another object, both with a property `x`. -/
def nestedObjects : Tree where
  source := "let o = \x7b x, m() \x7b let p = \x7b x \x7d \x7d \x7d;"
  root := (Node.branch .program
    [.branch .lexicalDeclaration
      [(.token 0 "let" : Node).inRole .kind,
        .branch .variableDeclarator
          [(.leaf (.construct .identifier) 4 "o" : Node).inRole .name, .token 6 "=",
            (.branch .object
              [.token 8 "\x7b", .leaf (.construct .shorthandPropertyIdentifier) 10 "x",
                .token 11 ",",
                .branch .methodDefinition
                  [(.leaf (.construct .propertyIdentifier) 13 "m" : Node).inRole .name,
                    (.branch .formalParameters [.token 14 "(", .token 15 ")"]
                      : Node).inRole .parameters,
                    (.branch .statementBlock
                      [.token 17 "\x7b",
                        .branch .lexicalDeclaration
                          [(.token 19 "let" : Node).inRole .kind,
                            .branch .variableDeclarator
                              [(.leaf (.construct .identifier) 23 "p" : Node).inRole .name,
                                .token 25 "=",
                                (.branch .object
                                  [.token 27 "\x7b",
                                    .leaf (.construct .shorthandPropertyIdentifier) 29 "x",
                                    .token 31 "\x7d"] : Node).inRole .value]],
                        .token 33 "\x7d"] : Node).inRole .body],
                .token 35 "\x7d"] : Node).inRole .value],
        .token 36 ";"]]).numbered
  dialect := .plain
  path? := none

/-- The property is dropped from both objects. -/
theorem Transform.edits_without_conflict_nested :
    let x := Transform.removeProperty none "x"
    x.edits nestedObjects = [⟨9, 12, ""⟩, ⟨28, 30, ""⟩]
      ∧ (∀ e ∈ x.edits nestedObjects,
          e.start ≤ e.stop ∧ e.stop ≤ Text.size nestedObjects.source)
      ∧ ∃ out, applyEditsChecked nestedObjects.source (x.edits nestedObjects) = .ok out := by
  have hwell : nestedObjects.WellFormed := by decide +kernel
  exact ⟨by decide +kernel, Transform.edits_without_conflict nestedObjects hwell _⟩

end Refactoring

end ScriptRefactor
