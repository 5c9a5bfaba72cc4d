import ScriptRefactor.Edit.Basic
import ScriptRefactor.Syntax.Tree

/-!
# `ScriptRefactor.Refactoring.StringLiterals`: texts inside strings

Strings are changed between their quotes, the quoted values of markup
among them; templates are not. A text is sought as the whole value of
a string, or as its first occurrence in it.
-/

set_option autoImplicit false

namespace ScriptRefactor.Refactoring

open Syntax

/-- What stands between the quotes of every string. -/
def stringContents (t : Tree) : List Span :=
  (t.nodes.filter fun n => n.kind.name = "string").filterMap Tree.stringContent?

/-- The edit that replaces `old` between two quotes. -/
def replaceInside? (t : Tree) (old new : String) (wholeValue : Bool) (span : Span) :
    Option Edit :=
  let value := t.slice span
  if wholeValue then if value = old then some (.replace span new) else none
  else
    (Text.before? old.toList value.toList).map fun before =>
      let start := span.start + Text.byteSize before
      ⟨start, start + Text.size old, new⟩

/-- Replaces `old` in strings, unless it is empty. -/
def replaceInStrings (t : Tree) (old new : String) (wholeValue : Bool) : List Edit :=
  if old.isEmpty then [] else (stringContents t).filterMap (replaceInside? t old new wholeValue)

/-- Replaces the strings whose whole value is `old`. -/
def renameString (t : Tree) (old new : String) : List Edit := replaceInStrings t old new true

/-- Drops a text from strings. -/
def removeFromStrings (t : Tree) (text : String) (wholeValue : Bool) : List Edit :=
  replaceInStrings t text "" wholeValue

/-- Renames a style class wherever a string names it. -/
def renameStyleClass (t : Tree) (old new : String) : List Edit := replaceInStrings t old new false

end ScriptRefactor.Refactoring
