import ScriptRefactor.Grammar.Literal

/-!
# `ScriptRefactor.Grammar.Goal`: the rules that call one another

The grammar is recursive through a few rules only, the *goals*. Every
other rule is an ordinary function of the rules for the goals, so no
rule refers to itself; `Grammar/Program.lean` closes the circle by a
recursion on the depth to which goals may nest.
-/

set_option autoImplicit false

namespace ScriptRefactor.Grammar

open Syntax

/-- A rule that others call. -/
inductive Goal where
  /-- A statement, or a declaration in its place. -/
  | statement
  /-- Statements in braces; the ending tells what the block ends. -/
  | block (ending : Ending)
  /-- One expression. -/
  | expression
  /-- Expressions separated by commas, as one node. -/
  | expressions
  /-- Operands joined by operators of at least the given power. -/
  | operand (power : Nat)
  /-- An operand with the accesses and calls behind it. -/
  | access
  /-- What a declaration binds. -/
  | binding
  /-- What an assignment writes to. -/
  | target
  /-- A type. -/
  | type
  /-- A piece of markup from its first angle bracket on. -/
  | markup
  /-- The body of a class. -/
  | classBody
deriving DecidableEq, Repr

/-- A parser for each goal. -/
abbrev Rules : Type := Goal → Parser Node

namespace Parser

/-! ### Names of properties -/

/-- A private name: the mark and the word behind it are one token. -/
def privateName : Parser Node := do
  skipBlanks
  match ← remaining with
  | '#' :: rest =>
    let word := rest.takeWhile isNameChar
    require (word ≠ [])
    leaf (.construct .privatePropertyIdentifier) ('#' :: word)
  | _ => refuse

/-- An expression in square brackets in place of a name. -/
def computedName (rules : Rules) : Parser Node := do
  let nodes ← bracketed "[" "]" do return [← rules .expression]
  return Node.branch .computedPropertyName nodes

/-- The name of a property or a method. -/
def propertyName (rules : Rules) : Parser Node := do
  match ← ahead with
  | .word _ => anyName .propertyIdentifier
  | .number => number
  | .mark m =>
    if m = "[" then computedName rules
    else if m = "#" then privateName
    else string
  | _ => refuse

/-- A value behind an equals sign. -/
def initializer (rules : Rules) : Parser (List Node) := do
  let equals ← mark "="
  return [equals, (← rules .expression).inRole .value]

/-- A value behind an equals sign, if there is one. -/
def initializer? (rules : Rules) : Parser (List Node) := do
  if ← isMark "=" then initializer rules else return []

/-- A type behind a colon. -/
def typeAscription (rules : Rules) : Parser Node := do
  let colon ← mark ":"
  return Node.branch .typeAscription [colon, ← rules .type]

/-- A type behind a colon, if there is one and the dialect has
types. -/
def typeAscription? (rules : Rules) : Parser (List Node) := do
  if (← typed) && (← isMark ":") then return [← typeAscription rules] else return []

/-- Items between angle brackets, separated by commas. -/
def angleList (item : Parser Node) : Parser (List Node) := do
  let opening ← char '<'
  let items ← collect do
    if ← isChar '>' then return none
    let node ← item
    if ← isChar '>' then return some [node]
    return some [node, ← mark ","]
  require (items ≠ [])
  return opening :: items ++ [← char '>']

/-- Types between angle brackets. -/
def typeArguments (rules : Rules) : Parser Node := do
  return Node.branch .typeArguments (← angleList (enclosed (rules .type)))

/-! ### Patterns -/

/-- A pattern with an optional default value. -/
def withDefault (rules : Rules) (goal : Goal) : Parser Node := do
  let left ← rules goal
  if ← isMark "=" then
    let equals ← mark "="
    return Node.branch .assignmentPattern [left.inRole .left, equals, ← rules .expression]
  else return left

/-- What takes the rest of a list or an object. -/
def restPattern (rules : Rules) (goal : Goal) : Parser Node := do
  let dots ← mark "..."
  return Node.branch .restPattern [dots, ← rules goal]

/-- One property taken out of an object. -/
def propertyPattern (rules : Rules) (goal : Goal) : Parser Node := do
  if ← isMark "..." then return ← restPattern rules goal
  let colonBehind ← applies do let _ ← propertyName rules; mark ":"
  if colonBehind then
    let key ← propertyName rules
    let colon ← mark ":"
    let value ← withDefault rules goal
    return Node.branch .pairPattern [key.inRole .key, colon, value.inRole .value]
  else
    let left ← name .shorthandPropertyIdentifierPattern
    if ← isMark "=" then
      let equals ← mark "="
      return Node.branch .objectAssignmentPattern
        [left.inRole .left, equals, ← rules .expression]
    else return left

/-- A pattern in braces. -/
def objectPattern (rules : Rules) (goal : Goal) : Parser Node := do
  let nodes ← bracketed "\x7b" "\x7d"
    (sparseList "\x7d" do return [← propertyPattern rules goal])
  return Node.branch .objectPattern nodes

/-- A pattern in square brackets. -/
def arrayPattern (rules : Rules) (goal : Goal) : Parser Node := do
  let element : Parser (List Node) := do
    if ← isMark "..." then return [← restPattern rules goal]
    return [← withDefault rules goal]
  return Node.branch .arrayPattern (← bracketed "[" "]" (sparseList "]" element))

/-- A name or a pattern that a declaration binds. -/
def binding (rules : Rules) : Parser Node := do
  match ← ahead with
  | .mark m =>
    if m = "\x7b" then objectPattern rules .binding
    else if m = "[" then arrayPattern rules .binding
    else refuse
  | _ => name .identifier

/-- The constructs that may be written to. -/
def isTarget (d : Dialect) (n : Node) : Bool :=
  n.is .identifier || n.is .memberExpression || n.is .subscriptExpression
    || n.is .undefinedWord || (d.hasTypes && n.is .nonNullExpression)

/-- A pattern, or a place that may be written to. -/
def target (rules : Rules) : Parser Node := do
  match ← ahead with
  | .mark m =>
    if m = "\x7b" then return ← objectPattern rules .target
    if m = "[" then return ← arrayPattern rules .target
  | _ => pure ()
  let node ← rules .access
  require (isTarget (← dialect) node)
  return node

end Parser

end ScriptRefactor.Grammar
