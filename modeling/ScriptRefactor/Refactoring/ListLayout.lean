import ScriptRefactor.Edit.Basic
import ScriptRefactor.Syntax.Tree

/-!
# `ScriptRefactor.Refactoring.ListLayout`: entries of bracketed lists

A list in brackets is written on one line or with an entry to a line,
with a comma behind the last entry or without. `ListLayout` reads
this off a list, and new entries follow it. `removeItems` drops
entries together with the separators that become superfluous.
-/

set_option autoImplicit false

namespace ScriptRefactor.Refactoring

open Syntax

/-- The text holds the end of a line. -/
def hasLineBreak (text : String) : Bool := text.toList.contains '\n'

/-- How a list is written. -/
structure ListLayout where
  /-- The list takes several lines. -/
  isMultiline : Bool
  /-- The white space in front of an entry on a line of its own. -/
  indent : String
  /-- The position behind a comma that follows the last entry. -/
  trailingComma? : Option Nat
deriving DecidableEq, Repr

namespace ListLayout

/-- The position behind a comma between the last entry and the
closing bracket. -/
def commaBehind? (t : Tree) (container last : Node) : Option Nat := do
  let between ← Text.slice? t.source last.stop (container.stop - 1)
  let blank := between.toList.takeWhile Text.isSpace
  if (between.toList.drop blank.length).head? = some ',' then
    some (last.stop + Text.byteSize blank + 1)
  else none

/-- The layout of a list. -/
def of (t : Tree) (container : Node) (items : List Node) : ListLayout where
  isMultiline := hasLineBreak (t.text container)
  indent := match items.getLast? with
    | some last => indentAt t.source last.start
    | none => indentAt t.source container.stop ++ "  "
  trailingComma? := items.getLast?.bind (commaBehind? t container)

/-- New entries behind the last one. -/
def append? (l : ListLayout) (items : List Node) (entries : List String) : Option Edit :=
  match items.getLast?, entries with
  | none, _ | _, [] => none
  | some last, _ =>
    match l.isMultiline, l.trailingComma? with
    | true, some behind =>
      some (.insert behind (String.join (entries.map fun e => "\n" ++ l.indent ++ e ++ ",")))
    | true, none =>
      some (.insert last.stop (String.join (entries.map fun e => ",\n" ++ l.indent ++ e)))
    | false, _ => some (.insert last.stop (", " ++ ", ".intercalate entries))

/-- A new entry in front of the first one. -/
def prepend? (l : ListLayout) (items : List Node) (entry : String) : Option Edit :=
  items.head?.map fun first =>
    .insert first.start (entry ++ (if l.isMultiline then ",\n" ++ l.indent else ", "))

end ListLayout

/-- The edits that drop the marked entries of a list. A run of them
goes up to the entry behind it; the last run goes from the end of the
entry in front, `before?`. -/
def removeRuns (before? : Option Node) : List (Node × Bool) → List Edit
  | [] => []
  | (item, false) :: rest => removeRuns (some item) rest
  | (first, true) :: rest => removeRun before? first first rest
where
  /-- The run started at `first` and has reached `last`. -/
  removeRun (before? : Option Node) (first last : Node) : List (Node × Bool) → List Edit
    | (item, true) :: rest => removeRun before? first item rest
    | (next, false) :: rest => .delete first.start next.start :: removeRuns (some next) rest
    | [] => (before?.map fun before => Edit.delete before.stop last.stop).toList

/-- The edits that drop the entries for which the condition holds, if
some stay. -/
def removeItems (items : List Node) (gone : Node → Bool) : List Edit :=
  removeRuns none (items.map fun n => (n, gone n))

/-- The entries of a list: its constructs, comments aside. -/
def entriesOf (n : Node) : List Node := n.namedChildren.filter fun c => !(c.is .comment)

/-- The end of an entry with the comma behind it, if only white space
stands between them. -/
def endWithComma (t : Tree) (item : Node) : Nat :=
  match Text.cutAt? t.source.toList item.stop with
  | some (_, rest) =>
    let blank := rest.takeWhile Text.isAsciiSpace
    if (rest.drop blank.length).head? = some ',' then item.stop + blank.length + 1
    else item.stop
  | none => item.stop

/-- The start of an entry with the comma in front of it, if only
white space stands between them. -/
def startWithComma (t : Tree) (item : Node) : Nat :=
  match Text.cutAt? t.source.toList item.start with
  | some (before, _) =>
    let blank := before.reverse.takeWhile Text.isAsciiSpace
    if (before.reverse.drop blank.length).head? = some ',' then item.start - blank.length - 1
    else item.start
  | none => item.start

end ScriptRefactor.Refactoring
