import ScriptRefactor.Grammar.Reader

/-!
# `ScriptRefactor.Grammar.LineEnd`: statements that end without a mark

A statement may leave its semicolon out at the end of the text,
before a closing brace, and at the end of a line if what follows
cannot go on with it. The typed dialects and the plain one differ in
the marks that go on, and in comments:

* in the plain dialect a comment that reaches over the end of a line
  ends a statement in front of it, unless the statement ends in an
  expression;
* in all other cases the comments that stand between the statement
  and the end of its line belong to it.

`endsHere` decides at one place, `endAfter?` passes the comments that
belong to the statement, and `terminator` reads a semicolon or an
end without one.
-/

set_option autoImplicit false

namespace ScriptRefactor.Grammar

open Syntax

/-- What stands in front of the place where a statement may end. -/
inductive Ending where
  /-- An expression, which an operator could continue. -/
  | expression
  /-- The head of a function without a body, which a block could
  continue. -/
  | signature
  /-- Anything else. -/
  | other
deriving DecidableEq, Repr

/-- A line feed or one of the two Unicode separators. -/
def isFeed (c : Char) : Bool := c = '\n' || c = '\u2028' || c = '\u2029'

/-- The outcome of passing white space and comments. -/
inductive Passed where
  /-- A slash that opens no comment. -/
  | slash
  /-- A block comment was passed that ends no line. -/
  | sameLine (rest : List Char)
  /-- All was passed, up to `rest`. -/
  | all (rest : List Char)

/-- Passes white space and comments in front of a text. With `stop`,
the first block comment ends the passage unless a slash follows it. -/
def passAll (stop : Bool) : Nat → List Char → Passed
  | 0, cs => .all cs
  | fuel + 1, cs =>
    match cs.dropWhile Text.isSpace with
    | '/' :: '/' :: rest => passAll stop fuel (rest.dropWhile (!isFeed ·))
    | '/' :: '*' :: rest =>
      match blockComment? rest with
      | none => .all []
      | some (text, after) =>
        if stop && after.head? ≠ some '/' then
          if text.any isFeed then .all after else .sameLine after
        else passAll stop fuel after
    | '/' :: _ => .slash
    | rest => .all rest

/-- A word in front of a text that could continue an expression: `in`
or `instanceof`. -/
def operatorWord (cs : List Char) : Bool :=
  match Text.afterPrefix? ['i', 'n'] cs with
  | none => false
  | some rest =>
    if !(rest.head?.any isLetter) then true
    else
      match Text.afterPrefix? "stanceof".toList rest with
      | none => false
      | some after => !(after.head?.any isLetter)

/-- What follows the end of a line does not continue the statement in
front of it. -/
def startsAnew (d : Dialect) (before : Ending) (cs : List Char) : Bool :=
  match cs with
  | [] => true
  | c :: rest =>
    let always := ['\x60', ',', ':', ';', '*', '%', '>', '<', '=', '?', '^', '|', '&', '/']
    if always.contains c then false
    else if c = '+' then rest.head? = some '+'
    else if c = '-' then rest.head? = some '-'
    else if c = '!' then rest.head? ≠ some '='
    else if c = 'i' then !(operatorWord cs)
    else if d.hasTypes then
      if c = '.' then false
      else if c = '\x7b' then before ≠ .signature
      else if c = '(' || c = '[' then before ≠ .expression
      else true
    else if c = '.' then rest.head?.any isDigit
    else !(c = '(' || c = '[')

/-- A line feed has been read: what is behind it, comments left
aside, decides. -/
def endsBehindLine (d : Dialect) (before : Ending) (cs : List Char) : Bool :=
  match passAll false (cs.length + 1) cs with
  | .all rest => startsAnew d before rest
  | _ => false

/-- In a typed dialect a closing brace with a colon behind it ends a
statement only in an expression: elsewhere it closes the pattern of a
typed parameter. -/
def endsAtBrace (d : Dialect) (before : Ending) (behind : List Char) : Bool :=
  if d.hasTypes && (behind.dropWhile Text.isSpace).head? = some ':' then before = .expression
  else true

/-- A statement that reaches up to `cs` may end there. -/
def endsHere (d : Dialect) (before : Ending) : Nat → List Char → Bool
  | 0, _ => false
  | _ + 1, [] => true
  | fuel + 1, c :: rest =>
    if c = '\x7d' then endsAtBrace d before rest
    else if isFeed c then
      if d.hasTypes && c ≠ '\n' then endsHere d before fuel rest
      else endsBehindLine d before rest
    else if c = '/' && !d.hasTypes then
      match passAll true (rest.length + 2) (c :: rest) with
      | .slash => false
      | .sameLine after => endsHere d before fuel after
      | .all after =>
        if before ≠ .expression && !(after.head? = some ',' || after.head? = some '=') then true
        else
          match after with
          | [] => false
          | a :: behind =>
            if a = '\x7d' then endsAtBrace d before behind
            else if isFeed a then endsBehindLine d before behind
            else false
    else if Text.isSpace c then endsHere d before fuel rest
    else false

namespace Reader

/-- The reader where the statement in front of it ends: there, or
behind one of at most `fuel` comments. -/
def endAfterFuel? (d : Dialect) (before : Ending) : Nat → Reader → Option Reader
  | 0, _ => none
  | fuel + 1, r =>
    if endsHere d before (r.rest.length + 1) r.rest then some r
    else r.passBlanks.passComment?.bind fun r => r.endAfterFuel? d before fuel

/-- The reader where the statement in front of it ends. -/
def endAfter? (d : Dialect) (before : Ending) (r : Reader) : Option Reader :=
  r.endAfterFuel? d before (r.rest.length + 1)

end Reader

namespace Parser

/-- Nothing is read if a statement ends here without a semicolon, or
the comments that belong to it. -/
def lineEnd (before : Ending) : Parser Nat := fun s r =>
  match r.endAfter? s.dialect before with
  | some r => .ok (r.pos, r)
  | none => .error r.skip.pos

/-- The end of a statement: its semicolon and the position behind
it. -/
def terminator (before : Ending) : Parser (List Node × Nat) := do
  match ← attempt? (lineEnd before) with
  | some stop => return ([], stop)
  | none =>
    let semicolon ← mark ";"
    return ([semicolon], semicolon.stop)

/-- A statement over the given children and its terminator. -/
def terminated (c : Construct) (before : Ending) (children : List Node) : Parser Node := do
  let (semicolon, stop) ← terminator before
  return Node.branchTo c (children ++ semicolon) stop

/-- The end of the line separates what follows from a statement that
may end here. -/
def lineEndsHere (before : Ending) : Parser Bool := fun s r =>
  .ok (s.mayEnd && (r.endAfter? s.dialect before).isSome, r)

/-- Where a construct that may be followed by the end of a statement
ends: at the given position, or behind the comments that the end of
the line leaves to it. -/
def trailingEnd (before : Ending) (stop : Nat) : Parser Nat := do
  return (← attempt? (lineEnd before)).getD stop

end Parser

end ScriptRefactor.Grammar
