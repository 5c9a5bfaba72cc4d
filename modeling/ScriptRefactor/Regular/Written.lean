import ScriptRefactor.Regular.SymbolRanges

/-!
# `ScriptRefactor.Regular.Written`: regular expressions as text

`Regular.parse?` reads the usual way to write an expression:

* `.`, sets in brackets and sets by a letter, such as `\d`;
* `^`, `$`, `\A`, `\z`, `\b` and `\B` for positions;
* `*`, `+`, `?` and counts in braces behind what they repeat, with a
  `?` behind them that changes nothing about whether a text matches;
* groups in parentheses, with a name or without, and `|`;
* the flags `i`, `m` and `s`.
-/

set_option autoImplicit false

namespace ScriptRefactor.Regular

/-! ### Escapes -/

/-- The value of a hexadecimal digit. -/
def hexValue? (c : Char) : Option Nat :=
  if '0' ≤ c ∧ c ≤ '9' then some (c.toNat - '0'.toNat)
  else if 'a' ≤ c ∧ c ≤ 'f' then some (c.toNat - 'a'.toNat + 10)
  else if 'A' ≤ c ∧ c ≤ 'F' then some (c.toNat - 'A'.toNat + 10)
  else none

/-- The character that hexadecimal digits write. -/
def hexSymbol? (cs : List Char) : Option Nat :=
  if cs.isEmpty then none
  else
    (cs.foldlM (fun n c => (hexValue? c).map (16 * n + ·)) 0).bind fun n =>
      if n.isValidChar then some n else none

/-- Reads the digits of a numbered character: in braces, or exactly
`n` of them. -/
def readHex (n : Nat) (cs : List Char) : Option (Nat × List Char) :=
  match cs with
  | '\x7b' :: rest =>
    let digits := rest.takeWhile (· ≠ '\x7d')
    if digits.length < rest.length then
      (hexSymbol? digits).map (·, rest.drop (digits.length + 1))
    else none
  | _ =>
    if (cs.take n).length = n then (hexSymbol? (cs.take n)).map (·, cs.drop n) else none

/-- A `\` takes the meaning away from the character. -/
def isEscapable (c : Char) : Bool := c.toNat < 128 && !c.isAlphanum && c ≠ '<' && c ≠ '>'

/-- Reads the character that an escape stands for. -/
def readEscape : List Char → Option (Nat × List Char)
  | 'a' :: cs => some (7, cs)
  | 'f' :: cs => some (12, cs)
  | 't' :: cs => some (9, cs)
  | 'n' :: cs => some (10, cs)
  | 'r' :: cs => some (13, cs)
  | 'v' :: cs => some (11, cs)
  | 'x' :: cs => readHex 2 cs
  | 'u' :: cs => readHex 4 cs
  | 'U' :: cs => readHex 8 cs
  | c :: cs => if isEscapable c then some (c.toNat, cs) else none
  | [] => none

/-! ### Sets in brackets -/

/-- Reads one symbol of a set. -/
def readSymbol : List Char → Option (Nat × List Char)
  | '\\' :: cs => readEscape cs
  | c :: cs => some (c.toNat, cs)
  | [] => none

/-- Reads a symbol of a set, or a range. -/
def readRange (cs : List Char) : Option ((Nat × Nat) × List Char) := do
  let (low, rest) ← readSymbol cs
  match rest with
  | '-' :: c :: more =>
    if c = ']' ∨ c = '-' then return ((low, low), rest)
    else
      let (high, rest) ← readSymbol (c :: more)
      if low ≤ high then return ((low, high), rest) else none
  | _ => return ((low, low), rest)

/-- Reads the name of a set of ASCII characters, behind `[:`. -/
def readNamedSet (cs : List Char) : Option (SymbolRanges.Ranges × List Char) :=
  let (negated, cs) := match cs with
    | '^' :: cs => (true, cs)
    | cs => (false, cs)
  let name := cs.takeWhile Char.isAlpha
  match cs.drop name.length with
  | ':' :: ']' :: rest =>
    (SymbolRanges.ofName? (String.ofList name)).map fun rs =>
      (if negated then SymbolRanges.complement rs else rs, rest)
  | _ => none

mutual
/-- Reads a set behind its bracket. -/
def readSet : Nat → List Char → Option (SymbolRanges.Ranges × List Char)
  | 0, _ => none
  | fuel + 1, cs => do
    let (negated, cs) := match cs with
      | '^' :: cs => (true, cs)
      | cs => (false, cs)
    let dashes := (cs.takeWhile (· = '-')).length
    let first := if dashes = 0 then [] else [(45, 45)]
    let cs := cs.drop dashes
    let (first, cs) := match cs with
      | ']' :: rest => if first.isEmpty then ([(93, 93)], rest) else (first, cs)
      | _ => (first, cs)
    let (rs, rest) ← readMembers fuel cs
    let rs := first ++ rs
    return (if negated then SymbolRanges.complement rs else rs, rest)
/-- Reads the members of a set up to its bracket. -/
def readMembers : Nat → List Char → Option (SymbolRanges.Ranges × List Char)
  | 0, _ => none
  | fuel + 1, cs =>
    match cs with
    | [] => none
    | ']' :: rest => some ([], rest)
    | '[' :: rest => do
      let named := match rest with
        | ':' :: rest => readNamedSet rest
        | _ => none
      let (rs, rest) ← match named with
        | some r => some r
        | none => readSet fuel rest
      let (more, rest) ← readMembers fuel rest
      return (rs ++ more, rest)
    | '\\' :: c :: rest =>
      match SymbolRanges.ofLetter? c with
      | some rs => do
        let (more, rest) ← readMembers fuel rest
        return (rs ++ more, rest)
      | none => do
        let (r, rest) ← readRange cs
        let (more, rest) ← readMembers fuel rest
        return (r :: more, rest)
    | _ => do
      let (r, rest) ← readRange cs
      let (more, rest) ← readMembers fuel rest
      return (r :: more, rest)
end

/-! ### Counts -/

/-- Reads a number. -/
def readNumber (cs : List Char) : Option (Nat × List Char) :=
  let digits := cs.takeWhile Char.isDigit
  if digits.isEmpty then none
  else some (digits.foldl (fun n c => 10 * n + (c.toNat - 48)) 0, cs.drop digits.length)

/-- The greatest count that is taken. -/
def maxCount : Nat := 1000

/-- An expression repeated at least `low` times and, if there is an
upper bound, at most `high?` times. -/
def repeated (a : Regular) (low : Nat) (high? : Option Nat) : Regular :=
  match high? with
  | none => seq (times a low) (many a)
  | some high => seq (times a low) (upTo a (high - low))

/-- Reads a count behind its brace, and repeats the expression that
often. -/
def readCount (a : Regular) (cs : List Char) : Option (Regular × List Char) := do
  let (low, rest) ← readNumber cs
  let (high?, rest) ← match rest with
    | ',' :: '\x7d' :: rest => some (none, rest)
    | ',' :: rest =>
      match readNumber rest with
      | some (high, '\x7d' :: rest) => some (some high, rest)
      | _ => none
    | '\x7d' :: rest => some (some low, rest)
    | _ => none
  if low ≤ maxCount ∧ (high?.getD low) ≤ maxCount ∧ low ≤ high?.getD low then
    return (repeated a low high?, rest)
  else none

/-! ### Expressions -/

/-- What the letters of a flag group turn on. -/
structure Flags where
  /-- Upper and lower case are the same. -/
  anyCase : Bool
  /-- `^` and `$` stand for the ends of lines. -/
  byLine : Bool
  /-- `.` stands for a line feed too. -/
  dotAll : Bool

/-- An alternative being read, with those before it. -/
structure Level where
  /-- The complete alternatives, the last one first. -/
  before : List Regular
  /-- The members of the alternative, the last one first. -/
  members : List Regular
  /-- The flags that hold. -/
  flags : Flags

namespace Level

/-- A group that just began. -/
def start (flags : Flags) : Level := ⟨[], [], flags⟩

/-- One more member. -/
def push (l : Level) (a : Regular) : Level := { l with members := a :: l.members }

/-- One more set of symbols. -/
def pushSet (l : Level) (rs : SymbolRanges.Ranges) : Level :=
  l.push (.symbol ⟨false, if l.flags.anyCase then SymbolRanges.bothCases rs else rs⟩)

/-- The group as a whole. -/
def close (l : Level) : Regular := oneOf ((sequence l.members.reverse :: l.before).reverse)

/-- The next alternative. -/
def next (l : Level) : Level :=
  { l with before := sequence l.members.reverse :: l.before, members := [] }

end Level

/-- Reads the letters of a flag group, up to the colon or the closing
parenthesis. -/
def readFlags (on : Bool) (f : Flags) : List Char → Option (Flags × List Char)
  | 'i' :: cs => readFlags on { f with anyCase := on } cs
  | 'm' :: cs => readFlags on { f with byLine := on } cs
  | 's' :: cs => readFlags on { f with dotAll := on } cs
  | 'U' :: cs => readFlags on f cs
  | 'u' :: cs => readFlags on f cs
  | '-' :: c :: cs => if on && c ≠ ':' && c ≠ ')' then readFlags false f (c :: cs) else none
  | cs => some (f, cs)

/-- Reads the name of a group up to its bracket. -/
def readName (cs : List Char) : Option (List Char) :=
  let name := cs.takeWhile fun c => c.isAlphanum || c = '_'
  match name, cs.drop name.length with
  | c :: _, '>' :: rest => if c.isDigit then none else some rest
  | _, _ => none

/-- Opens a group behind its parenthesis, or sets the flags of the
group around it; `outer` are the groups around that one. -/
def openGroup (l : Level) (outer : List Level) (cs : List Char) :
    Option (Level × List Level × List Char) :=
  match cs with
  | '?' :: 'P' :: '<' :: rest => (readName rest).map fun rest => (.start l.flags, l :: outer, rest)
  | '?' :: '<' :: rest => (readName rest).map fun rest => (.start l.flags, l :: outer, rest)
  | '?' :: ':' :: rest => some (.start l.flags, l :: outer, rest)
  | '?' :: ')' :: _ => none
  | '?' :: rest =>
    match readFlags true l.flags rest with
    | some (f, ':' :: rest) => some (.start f, l :: outer, rest)
    | some (f, ')' :: rest) => some ({ l with flags := f }, outer, rest)
    | _ => none
  | _ => some (.start l.flags, l :: outer, cs)

/-- The text behind the mark of a lazy repetition. -/
def dropLazy : List Char → List Char
  | '?' :: cs => cs
  | cs => cs

/-- The last member repeated. -/
def Level.repeatLast (l : Level) (f : Regular → Regular) : Option Level :=
  match l.members with
  | a :: before => some { l with members := f a :: before }
  | [] => none

/-- Reads what a `\` begins. -/
def readBackslash (l : Level) (cs : List Char) : Option (Level × List Char) :=
  match cs with
  | 'b' :: rest => some (l.push (.anchor .wordEdge), rest)
  | 'B' :: rest => some (l.push (.anchor .noWordEdge), rest)
  | 'A' :: rest => some (l.push (.anchor .textStart), rest)
  | 'z' :: rest => some (l.push (.anchor .textEnd), rest)
  | c :: rest =>
    match SymbolRanges.ofLetter? c with
    | some rs => some (l.pushSet rs, rest)
    | none => (readEscape cs).map fun (n, rest) => (l.pushSet [(n, n)], rest)
  | [] => none

/-- Reads an expression from the front. -/
def read : Nat → Level → List Level → List Char → Option Regular
  | 0, _, _, _ => none
  | fuel + 1, l, outer, cs =>
    match cs with
    | [] => if outer.isEmpty then some l.close else none
    | '(' :: rest => do
      let (l, outer, rest) ← openGroup l outer rest
      read fuel l outer rest
    | ')' :: rest =>
      match outer with
      | around :: outer => read fuel (around.push l.close) outer rest
      | [] => none
    | '|' :: rest => read fuel l.next outer rest
    | '*' :: rest => do read fuel (← l.repeatLast many) outer (dropLazy rest)
    | '+' :: rest => do read fuel (← l.repeatLast oneOrMore) outer (dropLazy rest)
    | '?' :: rest => do read fuel (← l.repeatLast optional) outer (dropLazy rest)
    | '\x7b' :: rest => do
      match l.members with
      | a :: before => do
        let (a, rest) ← readCount a rest
        read fuel { l with members := a :: before } outer (dropLazy rest)
      | [] => none
    | '[' :: rest => do
      let (rs, rest) ← readSet (rest.length + 2) rest
      read fuel (l.pushSet rs) outer rest
    | '.' :: rest =>
      read fuel (l.push (.symbol (if l.flags.dotAll then .all else ⟨true, [(10, 10)]⟩))) outer rest
    | '^' :: rest =>
      read fuel (l.push (.anchor (if l.flags.byLine then .lineStart else .textStart))) outer rest
    | '$' :: rest =>
      read fuel (l.push (.anchor (if l.flags.byLine then .lineEnd else .textEnd))) outer rest
    | '\\' :: rest => do
      let (l, rest) ← readBackslash l rest
      read fuel l outer rest
    | c :: rest => read fuel (l.pushSet [(c.toNat, c.toNat)]) outer rest

/-- The expression that a text writes. -/
def parse? (text : String) : Option Regular :=
  let cs := text.toList
  read (cs.length + 1) (.start ⟨false, false, false⟩) [] cs

end ScriptRefactor.Regular
