import ScriptRefactor.Regular.Basic
import ScriptRefactor.Text.Basic

/-!
# `ScriptRefactor.Refactoring.EntryLines`: files changed by whole lines

Files that only name other modules are changed line by line, without
a parse. There are three kinds of lines: imports, exports of another
module, and imports of a style sheet. A new line goes behind the last
one of its kind, or to the top.
-/

set_option autoImplicit false

namespace ScriptRefactor.Refactoring

/-! ### Lines that match -/

/-- What is asked of a line. -/
inductive LineTest where
  /-- It contains a text. -/
  | contains (text : String)
  /-- An expression matches somewhere in it. -/
  | fits (r : Regular)
deriving DecidableEq, Repr

/-- The line passes the test. -/
def LineTest.passes (test : LineTest) (line : String) : Bool :=
  match test with
  | contains text => Text.contains text.toList line.toList
  | fits r => r.found (Regular.symbolsOf line)

/-- The number of the first line that passes the test, from the line
`first` on. -/
def lineIndex? (lines : List String) (test : LineTest) (first : Nat) : Option Nat :=
  ((lines.drop first).findIdx? test.passes).map (first + ·)

/-- The number of the last line that passes the test. -/
def lastLineIndex? (lines : List String) (test : LineTest) : Option Nat :=
  (lines.reverse.findIdx? test.passes).map (lines.length - 1 - ·)

/-- The lines that do not pass the test, and the number of those that
do. -/
def removeLines (lines : List String) (test : LineTest) : List String × Nat :=
  (lines.filter (!test.passes ·), lines.countP test.passes)

/-- A line put in behind the last one that passes the test, or at the
top. -/
def insertAfterLast (lines : List String) (test : LineTest) (line : String) : List String :=
  let n := match lastLineIndex? lines test with
    | some i => i + 1
    | none => 0
  lines.take n ++ line :: lines.drop n

/-! ### Kinds of lines -/

/-- Any character of a line. -/
def anyInLine : Regular := .symbol ⟨true, [(10, 10)]⟩

/-- One or more spaces. -/
def spaces : Regular := .oneOrMore (.text " ")

/-- A quote of either kind. -/
def quote : Regular := .symbol ⟨false, [(39, 39), (34, 34)]⟩

/-- A source in quotes. -/
def quoted (source : String) : Regular := .sequence [quote, .text source, quote]

/-- A line that starts with an import. -/
def importLine : LineTest := .fits (.sequence [.anchor .textStart, .text "import "])

/-- A line that starts with an export of another module. -/
def exportFromLine : LineTest :=
  .fits (.sequence [.anchor .textStart, .text "export ", .many anyInLine, .text " from "])

/-- A line that imports a style sheet. -/
def styleLine : LineTest := .contains "@import "

/-- A statement with a keyword that names a source. -/
def statementFrom (keyword source : String) : LineTest :=
  .fits (.sequence
    [.text keyword, spaces, .many anyInLine, spaces, .text "from", spaces, quoted source])

/-- An import of a style sheet from a source. -/
def styleImportOf (source : String) : LineTest :=
  .fits (.sequence [.text "@import", spaces, quoted source])

/-! ### Changes -/

/-- An import line put in. -/
def addImportLine (lines : List String) (line : String) : List String :=
  insertAfterLast lines importLine line

/-- The imports from a source dropped. -/
def removeImportLine (lines : List String) (source : String) : List String × Nat :=
  removeLines lines (statementFrom "import" source)

/-- A line that exports another module put in. -/
def addExportFromLine (lines : List String) (line : String) : List String :=
  insertAfterLast lines exportFromLine line

/-- The exports from a source dropped. -/
def removeExportFromLine (lines : List String) (source : String) : List String × Nat :=
  removeLines lines (statementFrom "export" source)

/-- The line that imports a style sheet. -/
def styleImport (source : String) : String := "@import '" ++ source ++ "';"

/-- An import of a style sheet put in. -/
def addStyleImport (lines : List String) (source : String) : List String :=
  insertAfterLast lines styleLine (styleImport source)

/-- The imports of a style sheet dropped. -/
def removeStyleImport (lines : List String) (source : String) : List String × Nat :=
  removeLines lines (styleImportOf source)

/-- The first import of a style sheet made one of another; `none` if
there is no import to change. -/
def renameStyleImport? (lines : List String) (old new : String) : Option (List String) :=
  (lineIndex? lines (styleImportOf old) 0).map fun i => lines.set i (styleImport new)

end ScriptRefactor.Refactoring
