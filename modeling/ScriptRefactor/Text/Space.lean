import ScriptRefactor.Text.Basic

/-!
# `ScriptRefactor.Text.Space`: white space

Two classes of white space: the Unicode property, and the five ASCII
characters that separate words on a line or end one.
-/

set_option autoImplicit false

namespace ScriptRefactor.Text

/-- The Unicode property of white space. -/
def isSpace (c : Char) : Bool :=
  let n := c.toNat
  (9 ≤ n && n ≤ 13) || n = 0x20 || n = 0x85 || n = 0xA0 || n = 0x1680
    || (0x2000 ≤ n && n ≤ 0x200A) || n = 0x2028 || n = 0x2029 || n = 0x202F || n = 0x205F
    || n = 0x3000

/-- Space, tab, line feed, form feed and carriage return. -/
def isAsciiSpace (c : Char) : Bool :=
  c = ' ' || c = '\t' || c = '\n' || c = '\x0c' || c = '\r'

/-- The text without the white space in front. -/
def trimStart (cs : List Char) : List Char := cs.dropWhile isSpace

/-- The text without the white space at its end. -/
def trimEnd (cs : List Char) : List Char := (cs.reverse.dropWhile isSpace).reverse

/-- The part that is white space on both ends dropped. -/
def trim (cs : List Char) : List Char := trimEnd (trimStart cs)

end ScriptRefactor.Text
