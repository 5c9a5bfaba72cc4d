import ScriptRefactor.Regular.Letters

/-!
# `ScriptRefactor.Regular.Basic`: regular expressions

An expression is matched against a row of symbols: the characters of
a line or the bytes of a path, each given by its number. Where a
match that begins at one of some positions can end is computed for
all of them at once, so a repetition is a question of what can be
reached, and every match ends.

* `ends` gives the positions where a match can end;
* `found` looks for a match anywhere;
* `fits` asks for a match of the whole.
-/

set_option autoImplicit false

namespace ScriptRefactor

/-! ### Sets of symbols -/

/-- A set of symbols, by ranges of their numbers. -/
structure SymbolClass where
  /-- The set holds the symbols outside the ranges. -/
  negated : Bool
  /-- The ranges, both ends included. -/
  ranges : List (Nat × Nat)
deriving DecidableEq, Repr, Inhabited

namespace SymbolClass

/-- The symbol is in one of the ranges. -/
def inRanges (ranges : List (Nat × Nat)) (n : Nat) : Bool := ranges.any fun r => r.1 ≤ n && n ≤ r.2

/-- The symbol is in the set. -/
def has (c : SymbolClass) (n : Nat) : Bool := inRanges c.ranges n != c.negated

/-- The set of one symbol. -/
def one (n : Nat) : SymbolClass := ⟨false, [(n, n)]⟩

/-- The set of all symbols. -/
def all : SymbolClass := ⟨true, []⟩

end SymbolClass

/-! ### Expressions -/

/-- What may be asked of a position. -/
inductive Anchor where
  /-- The text starts here. -/
  | textStart
  /-- The text ends here. -/
  | textEnd
  /-- A line starts here. -/
  | lineStart
  /-- A line ends here. -/
  | lineEnd
  /-- A word starts or ends here. -/
  | wordEdge
  /-- No word starts or ends here. -/
  | noWordEdge
deriving DecidableEq, Repr, Inhabited

/-- A regular expression. -/
inductive Regular where
  /-- The empty match. -/
  | nothing
  /-- One symbol of a set. -/
  | symbol (c : SymbolClass)
  /-- The empty match at some positions only. -/
  | anchor (a : Anchor)
  /-- A match of the first, and then one of the second. -/
  | seq (a b : Regular)
  /-- A match of either. -/
  | either (a b : Regular)
  /-- Any number of matches, one after the other. -/
  | many (a : Regular)
deriving DecidableEq, Repr, Inhabited

namespace Regular

/-- No match at all. -/
def never : Regular := symbol ⟨false, []⟩

/-- Expressions matched one after the other. -/
def sequence : List Regular → Regular
  | [] => nothing
  | [a] => a
  | a :: as => seq a (sequence as)

/-- A match of one of several expressions. -/
def oneOf : List Regular → Regular
  | [] => never
  | [a] => a
  | a :: as => either a (oneOf as)

/-- At least one match. -/
def oneOrMore (a : Regular) : Regular := seq a (many a)

/-- At most one match. -/
def optional (a : Regular) : Regular := either a nothing

/-- A number of matches. -/
def times (a : Regular) : Nat → Regular
  | 0 => nothing
  | n + 1 => seq a (times a n)

/-- At most a number of matches. -/
def upTo (a : Regular) : Nat → Regular
  | 0 => nothing
  | n + 1 => optional (seq a (upTo a n))

/-- The characters of a text, one after the other. -/
def text (s : String) : Regular := sequence (s.toList.map fun c => symbol (.one c.toNat))

/-! ### Matching -/

/-- A word goes on at a position. -/
def isWordAt (symbols : Array Nat) (i : Nat) : Bool :=
  match symbols[i]? with
  | some n => SymbolClass.inRanges Letters.wordRanges n
  | none => false

/-- The position comes behind a part of a word. -/
def isBehindWord (symbols : Array Nat) : Nat → Bool
  | 0 => false
  | i + 1 => isWordAt symbols i

/-- The position has the property. -/
def holdsAt (symbols : Array Nat) (i : Nat) : Anchor → Bool
  | .textStart => i = 0
  | .textEnd => i = symbols.size
  | .lineStart => i = 0 || symbols[i - 1]? = some 10
  | .lineEnd => i = symbols.size || symbols[i]? = some 10
  | .wordEdge => isBehindWord symbols i != isWordAt symbols i
  | .noWordEdge => isBehindWord symbols i == isWordAt symbols i

/-- The positions of a list and what `next` reaches from them; `seen`
were reached before, and there are no more than `fuel` others. -/
def closure (next : List Nat → List Nat) : Nat → List Nat → List Nat → List Nat
  | 0, seen, fresh => fresh ++ seen
  | fuel + 1, seen, fresh =>
    if fresh.isEmpty then seen
    else
      let seen := fresh ++ seen
      closure next fuel seen ((next fresh).filter (!seen.contains ·))

/-- Where matches that begin at the given positions can end. -/
def ends (symbols : Array Nat) : Regular → List Nat → List Nat
  | nothing, starts => starts
  | symbol c, starts => starts.filterMap fun i =>
    match symbols[i]? with
    | some n => if c.has n then some (i + 1) else none
    | none => none
  | anchor a, starts => starts.filter (holdsAt symbols · a)
  | seq a b, starts => ends symbols b (ends symbols a starts)
  | either a b, starts => (ends symbols a starts ++ ends symbols b starts).eraseDups
  | many a, starts => (closure (ends symbols a) (symbols.size + 1) [] starts).eraseDups

/-- There is a match somewhere. -/
def found (r : Regular) (symbols : Array Nat) : Bool :=
  !(ends symbols r (List.range (symbols.size + 1))).isEmpty

/-- There is a match of the whole. -/
def fits (r : Regular) (symbols : Array Nat) : Bool := (ends symbols r [0]).contains symbols.size

/-- The symbols of a text. -/
def symbolsOf (s : String) : Array Nat := (s.toList.map Char.toNat).toArray

end Regular

end ScriptRefactor
