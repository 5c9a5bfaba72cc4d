import ScriptRefactor.Regular.Basic

/-!
# `ScriptRefactor.Regular.SymbolRanges`: named sets of characters

Sets of characters as lists of ranges: blanks, digits and word
characters, with the sets outside them, and the sets of ASCII
characters that go by a name.
-/

set_option autoImplicit false

namespace ScriptRefactor.SymbolRanges

/-- A set of characters as a list of ranges of their numbers. -/
abbrev Ranges : Type := List (Nat × Nat)

/-- The number of the last character. -/
def lastSymbol : Nat := 0x10FFFF

/-- A range without the symbols of another one. -/
def subtract (cut r : Nat × Nat) : Ranges :=
  if cut.2 < r.1 ∨ r.2 < cut.1 then [r]
  else
    (if r.1 < cut.1 then [(r.1, cut.1 - 1)] else []) ++
      (if cut.2 < r.2 then [(cut.2 + 1, r.2)] else [])

/-- The symbols outside a set. -/
def complement (rs : Ranges) : Ranges :=
  rs.foldl (fun left cut => left.flatMap (subtract cut)) [(0, lastSymbol)]

/-- Blank characters. -/
def blank : Ranges :=
  [(9, 13), (32, 32), (0x85, 0x85), (0xA0, 0xA0), (0x1680, 0x1680), (0x2000, 0x200A),
    (0x2028, 0x2029), (0x202F, 0x202F), (0x205F, 0x205F), (0x3000, 0x3000)]

/-- The set of ASCII characters that goes by a name. -/
def ofName? : String → Option Ranges
  | "alnum" => some [(48, 57), (65, 90), (97, 122)]
  | "alpha" => some [(65, 90), (97, 122)]
  | "ascii" => some [(0, 127)]
  | "blank" => some [(9, 9), (32, 32)]
  | "cntrl" => some [(0, 31), (127, 127)]
  | "digit" => some [(48, 57)]
  | "graph" => some [(33, 126)]
  | "lower" => some [(97, 122)]
  | "print" => some [(32, 126)]
  | "punct" => some [(33, 47), (58, 64), (91, 96), (123, 126)]
  | "space" => some [(9, 13), (32, 32)]
  | "upper" => some [(65, 90)]
  | "word" => some [(48, 57), (65, 90), (95, 95), (97, 122)]
  | "xdigit" => some [(48, 57), (65, 70), (97, 102)]
  | _ => none

/-- The set of a letter behind a `\`. -/
def ofLetter? : Char → Option Ranges
  | 'd' => some Letters.digitRanges
  | 'D' => some (complement Letters.digitRanges)
  | 's' => some blank
  | 'S' => some (complement blank)
  | 'w' => some Letters.wordRanges
  | 'W' => some (complement Letters.wordRanges)
  | _ => none

/-- The part of a range that lies in another one, moved by a
distance. -/
def shifted (r frame : Nat × Nat) (move : Nat → Nat) : Ranges :=
  let low := max r.1 frame.1
  let high := min r.2 frame.2
  if low ≤ high then [(move low, move high)] else []

/-- A set with the other case of each of its ASCII letters. -/
def bothCases (rs : Ranges) : Ranges :=
  rs ++ rs.flatMap fun r => shifted r (65, 90) (· + 32) ++ shifted r (97, 122) (· - 32)

end ScriptRefactor.SymbolRanges
