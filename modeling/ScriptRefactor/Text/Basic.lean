/-!
# `ScriptRefactor.Text.Basic`: cutting and joining text

Texts are `String`s; the operations work on their characters, so
that each is a recursion on a list. A position in a text is a count
of UTF-8 bytes, and only the positions between two characters cut
it.

* `splitOn` cuts at every occurrence of one character and gives one
  piece more than there are occurrences.
* `cutAt?` cuts at a byte position, `slice?` takes the text between
  two of them; both refuse a position inside a character.
* `replaceAll` substitutes every occurrence of a text, left to
  right, without overlaps.
-/

set_option autoImplicit false

namespace ScriptRefactor.Text

/-! ### Pieces between separators -/

/-- The pieces of `cs` between the occurrences of `sep`. -/
def splitOn (sep : Char) : List Char → List (List Char)
  | [] => [[]]
  | c :: cs =>
    if c = sep then [] :: splitOn sep cs
    else
      match splitOn sep cs with
      | piece :: pieces => (c :: piece) :: pieces
      | [] => [[c]]

/-- The pieces joined again, with `sep` between two of them. -/
def joinWith (sep : List Char) : List (List Char) → List Char
  | [] => []
  | [piece] => piece
  | piece :: pieces => piece ++ sep ++ joinWith sep pieces

/-- The lines of a text: the pieces between its line feeds. -/
def linesOf (text : String) : List String :=
  (splitOn '\n' text.toList).map String.ofList

/-- The text whose lines are `lines`. -/
def ofLines (lines : List String) : String :=
  String.ofList (joinWith ['\n'] (lines.map String.toList))

/-! ### Parts of a text found by their content -/

/-- What follows `start` in `cs`, if `cs` starts with it. -/
def afterPrefix? : List Char → List Char → Option (List Char)
  | [], cs => some cs
  | _ :: _, [] => none
  | p :: ps, c :: cs => if p = c then afterPrefix? ps cs else none

/-- `cs` starts with `start`. -/
def startsWith (start cs : List Char) : Bool := (afterPrefix? start cs).isSome

/-- `cs` ends with `tail`. -/
def endsWith (tail cs : List Char) : Bool := startsWith tail.reverse cs.reverse

/-- `part` occurs somewhere in `cs`. -/
def contains (part : List Char) : List Char → Bool
  | [] => part.isEmpty
  | c :: cs => startsWith part (c :: cs) || contains part cs

/-- The first occurrence of a text `old` that is not empty replaced
again and again: `skip` characters of the occurrence last replaced
are still to be dropped. -/
def replaceFrom (old new : List Char) : Nat → List Char → List Char
  | _, [] => []
  | skip + 1, _ :: cs => replaceFrom old new skip cs
  | 0, c :: cs =>
    if startsWith old (c :: cs) then new ++ replaceFrom old new (old.length - 1) cs
    else c :: replaceFrom old new 0 cs

/-- Every occurrence of `old` in `cs` replaced by `new`. The empty
text occurs before each character and at the end. -/
def replaceAll (old new cs : List Char) : List Char :=
  if old.isEmpty then new ++ cs.flatMap (fun c => c :: new) else replaceFrom old new 0 cs

/-- What stands before the last occurrence of `sep` and what after
it. -/
def splitLast? (sep : Char) : List Char → Option (List Char × List Char)
  | [] => none
  | c :: cs =>
    match splitLast? sep cs with
    | some (before, after) => some (c :: before, after)
    | none => if c = sep then some ([], cs) else none

/-- What stands before the first occurrence of `part`. -/
def before? (part : List Char) : List Char → Option (List Char)
  | [] => if part.isEmpty then some [] else none
  | c :: cs =>
    if startsWith part (c :: cs) then some [] else (before? part cs).map (c :: ·)

/-! ### Byte positions -/

/-- The number of UTF-8 bytes of a list of characters. -/
def byteSize : List Char → Nat
  | [] => 0
  | c :: cs => c.utf8Size + byteSize cs

/-- `cs` cut at a byte position; `none` if the position lies inside a
character or past the end. -/
def cutAt? : List Char → Nat → Option (List Char × List Char)
  | cs, 0 => some ([], cs)
  | [], _ + 1 => none
  | c :: cs, n + 1 =>
    if c.utf8Size ≤ n + 1 then
      (cutAt? cs (n + 1 - c.utf8Size)).map fun (before, after) => (c :: before, after)
    else none

/-- `cs` cut at the last position between characters that is not
behind a byte position. -/
def cutBefore : List Char → Nat → List Char × List Char
  | [], _ => ([], [])
  | c :: cs, n =>
    if c.utf8Size ≤ n then
      let (before, after) := cutBefore cs (n - c.utf8Size)
      (c :: before, after)
    else ([], c :: cs)

/-- The character `c` starts at a byte position of a text. -/
def hasCharAt (text : String) (pos : Nat) (c : Char) : Bool :=
  match cutAt? text.toList pos with
  | some (_, rest) => rest.head? = some c
  | none => false

/-- The characters between two byte positions. -/
def sliceChars? (cs : List Char) (first last : Nat) : Option (List Char) := do
  if last < first then none
  else
    let (_, rest) ← cutAt? cs first
    let (inside, _) ← cutAt? rest (last - first)
    return inside

/-- The part of a text between two byte positions; `none` when they
are out of order, past the end or inside a character. -/
def slice? (text : String) (first last : Nat) : Option String :=
  (sliceChars? text.toList first last).map String.ofList

/-- The number of UTF-8 bytes of a text. -/
def size (text : String) : Nat := byteSize text.toList

/-- The position is between two characters of the text, or at one of
its ends. -/
def isBoundary (text : String) (pos : Nat) : Bool := (cutAt? text.toList pos).isSome

end ScriptRefactor.Text
