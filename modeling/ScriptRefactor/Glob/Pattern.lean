import ScriptRefactor.Regular.Basic

/-!
# `ScriptRefactor.Glob.Pattern`: patterns of paths

A glob is a path with wildcards. It is matched against the bytes of a
whole path:

* `?` stands for one byte, `*` for any number of bytes, `/` included;
* `**` as a whole segment stands for any number of segments, with the
  separators next to it; elsewhere it is two `*`;
* `[a-c]` stands for a character of a range, `[!a-c]` for any other;
* `{a,b}` stands for either of the globs in it;
* `\` takes the meaning away from the character behind it.
-/

set_option autoImplicit false

namespace ScriptRefactor

/-! ### Pieces -/

/-- A part of a glob. -/
inductive GlobPiece where
  /-- The character itself. -/
  | char (c : Char)
  /-- One byte. -/
  | anyByte
  /-- Any number of bytes. -/
  | anyBytes
  /-- `**` with what separates it from the segment behind it. -/
  | leadingSegments
  /-- `**` with what separates it from the segment in front. -/
  | trailingSegments
  /-- `**` with what separates it on both sides. -/
  | innerSegments
  /-- A character from some ranges, or, negated, from none of them. -/
  | oneOf (negated : Bool) (ranges : List (Char × Char))
  /-- One of several globs. -/
  | choice (branches : List (List GlobPiece))
deriving Repr, Inhabited

/-- Why a text is no glob. -/
inductive GlobFault where
  /-- A `[` without its `]`. -/
  | openClass
  /-- A range whose first character comes after its last. -/
  | emptyRange (first last : Char)
  /-- A `}` without its `\x7b`. -/
  | closedChoice
  /-- A `\x7b` without its `}`. -/
  | openChoice
  /-- A `\` with nothing behind it. -/
  | danglingEscape
deriving DecidableEq, Repr

/-- The wording of a fault. -/
def GlobFault.message : GlobFault → String
  | openClass => "unclosed character class; missing ']'"
  | emptyRange first last =>
    "invalid range; '" ++ first.toString ++ "' > '" ++ last.toString ++ "'"
  | closedChoice =>
    "unopened alternate group; missing '\x7b' (maybe escape '\x7d' with '[\x7d]'?)"
  | openChoice =>
    "unclosed alternate group; missing '\x7d' (maybe escape '\x7b' with '[\x7b]'?)"
  | danglingEscape => "dangling '\\'"

/-! ### Character classes -/

namespace Glob

/-- The ranges of a class read so far, the last one first. -/
structure ClassState where
  /-- The ranges. -/
  ranges : List (Char × Char)
  /-- A `-` waits for the end of its range. -/
  inRange : Bool
  /-- Nothing was read yet. -/
  isFirst : Bool

/-- The last range gets another end. -/
def extendRange (ranges : List (Char × Char)) (c : Char) : Except GlobFault (List (Char × Char)) :=
  match ranges with
  | (first, _) :: rest =>
    if c < first then .error (.emptyRange first c) else .ok ((first, c) :: rest)
  | [] => .ok [(c, c)]

/-- One more character of a class, which is not its end. -/
def classStep (s : ClassState) (c : Char) : Except GlobFault ClassState :=
  if c = '-' ∧ !s.isFirst ∧ !s.inRange then .ok ⟨s.ranges, true, false⟩
  else if s.inRange then (extendRange s.ranges c).map (⟨·, false, false⟩)
  else .ok ⟨(c, c) :: s.ranges, false, false⟩

/-- The ranges of a class; a `-` at its end stands for itself. -/
def ClassState.close (s : ClassState) : List (Char × Char) :=
  ((if s.inRange then [('-', '-')] else []) ++ s.ranges).reverse

/-- Reads a class up to its `]`, and gives the number of characters
read with the ranges. A `]` in front stands for itself. -/
def readClass : ClassState → List Char → Except GlobFault (Nat × List (Char × Char))
  | _, [] => .error .openClass
  | s, c :: cs =>
    if c = ']' ∧ !s.isFirst then .ok (1, s.close)
    else do
      let s ← if c = ']' then pure ⟨(c, c) :: s.ranges, false, false⟩ else classStep s c
      let (n, ranges) ← readClass s cs
      return (n + 1, ranges)

/-! ### Reading a glob -/

/-- The choices begun around a position and the branch being read. -/
structure State where
  /-- For each choice begun, the innermost one first, its complete
  branches and the branch around the choice, both with the last member
  first. -/
  choices : List (List (List GlobPiece) × List GlobPiece)
  /-- The pieces of the branch, the last one first. -/
  branch : List GlobPiece
  /-- The character in front of the position. -/
  last? : Option Char

/-- The state with one more piece. -/
def State.push (s : State) (p : GlobPiece) : State := { s with branch := p :: s.branch }

/-- Two `*` that are no segment. -/
def State.pushTwoStars (s : State) : State := (s.push .anyBytes).push .anyBytes

/-- A `**` between other pieces takes the place of the separator, or
of the `**`, in front of it. -/
def State.pushSegments (s : State) (p : GlobPiece) : State :=
  match s.branch with
  | .leadingSegments :: _ | .trailingSegments :: _ => s
  | _ :: before => { s with branch := p :: before }
  | [] => s.push p

/-- The state behind `**`, which `next` follow, with the number of
characters of `next` that belong to it. -/
def State.pushDoubleStar (s : State) (next : List Char) : State × Nat :=
  match s.branch, next with
  | [], [] => (s.push .leadingSegments, 0)
  | [], c :: _ => if c = '/' then (s.push .leadingSegments, 1) else (s.pushTwoStars, 0)
  | _ :: _, _ =>
    let opens := s.last? = some '/'
      || (!s.choices.isEmpty && (s.last? = some ',' || s.last? = some '\x7b'))
    if !opens then (s.pushTwoStars, 0)
    else
      match next with
      | [] => (s.pushSegments .trailingSegments, 0)
      | c :: _ =>
        if c = '/' then (s.pushSegments .innerSegments, 1)
        else if !s.choices.isEmpty && (c = ',' || c = '\x7d') then
          (s.pushSegments .trailingSegments, 0)
        else (s.pushTwoStars, 0)

/-- The state behind a `}`: the choice becomes a piece of the branch
around it. -/
def State.closeChoice (s : State) : Except GlobFault State :=
  match s.choices with
  | (branches, around) :: outer =>
    .ok ⟨outer, .choice ((s.branch.reverse :: branches).reverse) :: around, s.last?⟩
  | [] => .error .closedChoice

/-- The state behind a `,`, which stands for itself outside a
choice. -/
def State.comma (s : State) : State :=
  match s.choices with
  | (branches, around) :: outer => ⟨(s.branch.reverse :: branches, around) :: outer, [], s.last?⟩
  | [] => s.push (.char ',')

/-- What one part of a glob does: the state behind it, and the number
of characters read after the first. -/
def step (s : State) (c : Char) (next : List Char) : Except GlobFault (State × Nat) :=
  match c with
  | '?' => .ok (s.push .anyByte, 0)
  | '*' =>
    match next with
    | '*' :: next =>
      let (s, n) := s.pushDoubleStar next
      .ok (s, n + 1)
    | _ => .ok (s.push .anyBytes, 0)
  | '[' =>
    let negated := next.head? = some '!' || next.head? = some '^'
    let skipped := if negated then 1 else 0
    match readClass ⟨[], false, true⟩ (next.drop skipped) with
    | .ok (n, ranges) => .ok (s.push (.oneOf negated ranges), skipped + n)
    | .error fault => .error fault
  | '\x7b' => .ok (⟨([], s.branch) :: s.choices, [], s.last?⟩, 0)
  | '\x7d' => (s.closeChoice).map (·, 0)
  | ',' => .ok (s.comma, 0)
  | '\\' =>
    match next with
    | c :: _ => .ok (s.push (.char c), 1)
    | [] => .error .danglingEscape
  | c => .ok (s.push (.char c), 0)

/-- Reads a glob. -/
def read (s : State) (cs : List Char) : Except GlobFault (List GlobPiece) :=
  match cs with
  | [] => if s.choices.isEmpty then .ok s.branch.reverse else .error .openChoice
  | c :: next =>
    match step s c next with
    | .ok (s, n) => read { s with last? := (c :: next)[n]? } (next.drop n)
    | .error fault => .error fault
termination_by cs.length
decreasing_by simp only [List.length_drop, List.length_cons]; omega

/-! ### Matching -/

/-- The bytes of a character. -/
def bytesOf (c : Char) : List Nat := (String.utf8EncodeChar c).map UInt8.toNat

/-- The bytes that a range of characters allows at one position: those
of its ends, and what lies between the last byte of the first end and
the first byte of the last. -/
def byteRanges (r : Char × Char) : List (Nat × Nat) :=
  let single (n : Nat) : Nat × Nat := (n, n)
  if r.1 = r.2 then (bytesOf r.1).map single
  else
    match (bytesOf r.1).reverse, bytesOf r.2 with
    | a :: before, b :: after => before.map single ++ [(a, b)] ++ after.map single
    | _, _ => []

/-- Any number of bytes. -/
def anything : Regular := .many (.symbol .all)

/-- The separator of segments. -/
def separator : Regular := .text "/"

mutual
/-- A piece as an expression over bytes. -/
def pieceExpr : GlobPiece → Regular
  | .char c => .sequence ((bytesOf c).map fun n => .symbol (.one n))
  | .anyByte => .symbol .all
  | .anyBytes => anything
  | .leadingSegments => .either (.optional separator) (.seq anything separator)
  | .trailingSegments => .seq separator anything
  | .innerSegments => .either separator (.seq separator (.seq anything separator))
  | .oneOf negated ranges => .symbol ⟨negated, ranges.flatMap byteRanges⟩
  | .choice branches =>
    match branchExprs branches with
    | [] => .nothing
    | exprs => .oneOf exprs
/-- The branches of a choice as expressions. Those that stand for
nothing are left out. -/
def branchExprs : List (List GlobPiece) → List Regular
  | [] => []
  | b :: bs =>
    let exprs := pieceExprs b
    if exprs.all (· = .nothing) then branchExprs bs else .sequence exprs :: branchExprs bs
/-- Pieces as expressions. -/
def pieceExprs : List GlobPiece → List Regular
  | [] => []
  | p :: ps => pieceExpr p :: pieceExprs ps
end

end Glob

/-- A pattern of paths. -/
structure Glob where
  /-- What a path has to look like. -/
  expr : Regular
deriving Repr

namespace Glob

/-- The expression of a whole glob. One that is nothing but `**`
matches every path. -/
def exprOf : List GlobPiece → Regular
  | [.leadingSegments] => anything
  | pieces => .sequence (pieceExprs pieces)

/-- The glob that a text writes down. -/
def parse (text : String) : Except GlobFault Glob :=
  (read ⟨[], [], none⟩ text.toList).map fun pieces => ⟨exprOf pieces⟩

/-- The glob matches the path. -/
def fits (g : Glob) (path : String) : Bool :=
  g.expr.fits (path.toList.flatMap bytesOf).toArray

end Glob

end ScriptRefactor
