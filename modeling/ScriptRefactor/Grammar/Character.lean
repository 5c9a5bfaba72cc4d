import ScriptRefactor.Text.Space

/-!
# `ScriptRefactor.Grammar.Character`: classes of characters

White space is the Unicode property together with the three
zero-width characters that the language skips. A name is made of all
characters that are neither white space nor a mark nor a control
character; it does not start with a digit.
-/

set_option autoImplicit false

namespace ScriptRefactor.Grammar

/-- Ends a line, and with it a line comment. -/
def isLineEnd (c : Char) : Bool :=
  c = '\n' || c = '\r' || c = '\u2028' || c = '\u2029'

/-- May stand between two tokens. -/
def isBlank (c : Char) : Bool :=
  Text.isSpace c || c = '\u200B' || c = '\u2060' || c = '\uFEFF'

/-- The marks that end a name. -/
def marks : List Char :=
  [':', ';', '\x60', '"', '\'', '@', '#', '.', ',', '|', '^', '&', '<', '=', '>', '+', '-', '*',
   '/', '\\', '%', '?', '!', '~', '(', ')', '[', ']', '\x7b', '\x7d']

/-- A decimal digit. -/
def isDigit (c : Char) : Bool := '0' ≤ c && c ≤ '9'

/-- May stand inside a name. -/
def isNameChar (c : Char) : Bool := !(isBlank c) && c.toNat ≥ 32 && !(marks.contains c)

/-- May stand at the front of a name. -/
def isNameStart (c : Char) : Bool := isNameChar c && !(isDigit c)

/-- A hexadecimal digit. -/
def isHexDigit (c : Char) : Bool :=
  isDigit c || ('a' ≤ c && c ≤ 'f') || ('A' ≤ c && c ≤ 'F')

/-- A letter of the basic alphabet. -/
def isLetter (c : Char) : Bool := ('a' ≤ c && c ≤ 'z') || ('A' ≤ c && c ≤ 'Z')

end ScriptRefactor.Grammar
