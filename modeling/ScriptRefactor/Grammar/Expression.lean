import ScriptRefactor.Grammar.Markup
import ScriptRefactor.Grammar.Member

/-!
# `ScriptRefactor.Grammar.Expression`: values and operators

From the loosest to the tightest: sequences; functions with an
arrow, assignments and `yield`; conditional expressions; operators of
twelve powers; prefix and postfix signs; accesses and calls; and the
values at the bottom. Operators of one power group to the left, the
power operator `**` alone to the right.

A parenthesis may open the parameters of a function: it does if an
arrow stands behind the list. A bracket may open a pattern: it does
if an equals sign stands behind the literal.
-/

set_option autoImplicit false

namespace ScriptRefactor.Grammar

open Syntax

/-! ### Operators -/

/-- How tightly an operator between two operands binds. -/
def operatorPower? (m : String) : Option Nat :=
  match m with
  | "??" => some 1
  | "||" => some 2
  | "&&" => some 3
  | "|" => some 4
  | "^" => some 5
  | "&" => some 6
  | "==" | "!=" | "===" | "!==" => some 7
  | "<" | "<=" | ">" | ">=" => some 8
  | "<<" | ">>" | ">>>" => some 9
  | "+" | "-" => some 10
  | "*" | "/" | "%" => some 11
  | "**" => some 12
  | _ => none

/-- The power of the operators that are words. -/
def wordPower : Nat := 8

/-- The marks that assign the value of an operation. -/
def updatingMarks : List String :=
  ["+=", "-=", "*=", "/=", "%=", "**=", "<<=", ">>=", ">>>=", "&=", "^=", "|=", "&&=", "||=",
   "??="]

/-- The signs in front of an operand. -/
def signMarks : List String := ["!", "~", "-", "+"]

/-- The words in front of an operand. -/
def signWords : List String := ["typeof", "void", "delete"]

namespace Parser

/-! ### Arguments, lists and objects -/

/-- An expression, or a spread one. -/
def spreadable (rules : Rules) : Parser (List Node) := do
  if ← isMark "..." then
    let dots ← mark "..."
    return [Node.branch .spreadElement [dots, ← rules .expression]]
  return [← rules .expression]

/-- The arguments of a call. -/
def arguments (rules : Rules) : Parser Node := do
  return Node.branch .arguments (← bracketed "(" ")" (sparseList ")" (spreadable rules)))

/-- A list of values. -/
def arrayLiteral (rules : Rules) : Parser Node := do
  return Node.branch .array (← bracketed "[" "]" (sparseList "]" (spreadable rules)))

/-- A property behind its key, or a method. -/
def keyedMember (rules : Rules) : Parser Node := do
  let colonBehind ← applies do let _ ← propertyName rules; mark ":"
  if colonBehind then
    let key ← propertyName rules
    let colon ← mark ":"
    return Node.branch .pair [key.inRole .key, colon, (← rules .expression).inRole .value]
  else objectMethod rules

/-- A member of an object. -/
def objectMember (rules : Rules) : Parser (List Node) := do
  match ← ahead with
  | .mark "..." => spreadable rules
  | .word w =>
    match ← second with
    | .mark m =>
      if m = "," || m = "\x7d" then
        require (isFree w)
        return [← anyName .shorthandPropertyIdentifier]
      return [← keyedMember rules]
    | _ => return [← keyedMember rules]
  | _ => return [← keyedMember rules]

/-- An object. -/
def objectLiteral (rules : Rules) : Parser Node := do
  return Node.branch .object
    (← bracketed "\x7b" "\x7d" (sparseList "\x7d" (objectMember rules)))

/-! ### Values -/

/-- An expression in parentheses. -/
def parenthesized (rules : Rules) : Parser Node := do
  let nodes ← bracketed "(" ")" do
    let inside ← rules .expressions
    return inside :: (← typeAscription? rules)
  return Node.branch .parenthesizedExpression nodes

/-- A word with a dot and another word: `new.target` or
`import.meta`. -/
def metaProperty (first last : String) : Parser Node := do
  let front ← word first
  let dot ← mark "."
  return Node.branch .metaProperty [front, dot, ← word last]

/-- A value that is a word. -/
def wordValue (rules : Rules) (w : String) : Parser Node := do
  if ← isFunctionAhead then return ← functionExpression rules
  match w with
  | "class" => classExpression rules
  | "this" => wordLeaf .thisWord
  | "super" => wordLeaf .superWord
  | "null" => wordLeaf .nullLiteral
  | "true" => wordLeaf .trueLiteral
  | "false" => wordLeaf .falseLiteral
  | "undefined" => wordLeaf .undefinedWord
  | "import" =>
    if (← second) = .mark "." then metaProperty "import" "meta" else wordLeaf .importCallee
  | _ => name .identifier

/-- A value without accesses or calls behind it. -/
def primary (rules : Rules) : Parser Node := do
  match ← ahead with
  | .word w => wordValue rules w
  | .number => number
  | .mark m =>
    match m with
    | "(" => parenthesized rules
    | "[" => arrayLiteral rules
    | "\x7b" => objectLiteral rules
    | "\"" | "'" => string
    | "\x60" => template .templateString .templateSubstitution (rules .expressions)
    | "/" | "/=" => regex
    | "#" => privateName
    | "@" => classExpression rules
    | "<" =>
      require (← dialect).hasMarkup
      rules .markup
    | _ => refuse
  | _ => refuse

/-! ### Accesses and calls -/

/-- The name of a member. -/
def memberName : Parser Node := do
  if ← isMark "#" then privateName else anyName .propertyIdentifier

/-- An index in square brackets. -/
def indexing (rules : Rules) : Parser (List Node) :=
  bracketed "[" "]" do return [← rules .expressions]

/-- The mark of an access to a value that may be missing. -/
def optionalChain : Parser Node := do
  let sign ← mark "?."
  if ← typed then return Node.branch .optionalChain [sign]
  return sign.becomes .optionalChain

/-- An access by name or by index, not a call. -/
def memberStep? (rules : Rules) (node : Node) : Parser (Option Node) := do
  match ← ahead with
  | .mark "." =>
    let dot ← mark "."
    return some (Node.branch .memberExpression [node, dot, ← memberName])
  | .mark "[" => return some (Node.branch .subscriptExpression (node :: (← indexing rules)))
  | _ => return none

/-- An access or a call of a value that may be missing. -/
def optionalStep (rules : Rules) (node : Node) : Parser Node := do
  let hasTypes ← typed
  match ← second with
  | .mark "(" =>
    let sign ← do if hasTypes then mark "?." else optionalChain
    return Node.branch .callExpression [node, sign, ← arguments rules]
  | .mark "[" =>
    let sign ← optionalChain
    return Node.branch .subscriptExpression (node :: sign :: (← indexing rules))
  | _ =>
    let sign ← optionalChain
    return Node.branch .memberExpression [node, sign, ← memberName]

/-- What stands behind a value that was given type arguments without
being called. -/
def endsInstantiation (a : Ahead) : Bool :=
  match a with
  | .mark m => [")", "]", "\x7d", ",", ";", ":", "=", "==", "===", "!=", "!=="].contains m
  | .finished => true
  | _ => false

/-- A call with type arguments, or only the type arguments. -/
def typedCall? (rules : Rules) (node : Node) : Parser (Option Node) := do
  let given ← attempt? do
    let given ← typeArguments rules
    let next ← ahead
    require (next = .mark "(" || next = .mark "\x60" || endsInstantiation next)
    return given
  match given with
  | none => return none
  | some given =>
    match ← ahead with
    | .mark "(" => return some (Node.branch .callExpression [node, given, ← arguments rules])
    | .mark "\x60" =>
      let text ← template .templateString .templateSubstitution (rules .expressions)
      return some (Node.branch .callExpression [node, given, text])
    | _ => return some (Node.branch .instantiationExpression [node, given])

/-- One access or call behind a value. -/
def accessStep? (rules : Rules) (node : Node) : Parser (Option Node) := do
  match ← ahead with
  | .mark m =>
    match m with
    | "." | "[" => memberStep? rules node
    | "?." => return some (← optionalStep rules node)
    | "(" => return some (Node.branch .callExpression [node, ← arguments rules])
    | "\x60" =>
      let text ← template .templateString .templateSubstitution (rules .expressions)
      return some (Node.branch .callExpression [node, text])
    | "!" =>
      if !(← typed) || (← lineEndsHere .expression) then return none
      return some (Node.branch .nonNullExpression [node, ← mark "!"])
    | "<" | "<<" => if ← typed then typedCall? rules node else return none
    | _ => return none
  | _ => return none

/-- A new object. The constructor takes accesses but no calls, and
the arguments may be missing. -/
def newExpression (rules : Rules) : Parser Node := do
  let newWord ← word "new"
  let built ← do
    if ← isWord "new" then rules .access
    else grow (memberStep? rules) (← primary rules)
  let given ← do
    if (← typed) && (← isChar '<') then
      pure ((← attempt? (typeArguments rules)).map fun n => [n]).toList.flatten
    else pure []
  let list ← do if ← isMark "(" then pure [← arguments rules] else pure []
  return Node.branch .newExpression (newWord :: built :: given ++ list)

/-- A value with the accesses and calls behind it. -/
def access (rules : Rules) : Parser Node := do
  let first ← do
    if ← isWord "new" then
      if (← second) = .mark "." then metaProperty "new" "target" else newExpression rules
    else primary rules
  grow (accessStep? rules) first

/-! ### Operators -/

/-- A sign behind a value, on the same line where a line can end the
statement. -/
def postfixed (rules : Rules) : Parser Node := do
  let node ← rules .access
  match ← ahead with
  | .mark m =>
    if (m = "++" || m = "--") && !(← lineEndsHere .expression) then
      return Node.branch .updateExpression [node, ← mark m]
    return node
  | _ => return node

/-- An operand without operators between operands, above the power of
all of them. -/
def signed (rules : Rules) : Parser Node := do
  match ← ahead with
  | .mark m =>
    if signMarks.contains m then
      let sign ← mark m
      return Node.branch .unaryExpression [sign, ← rules (.operand 13)]
    if m = "++" || m = "--" then
      let sign ← mark m
      return Node.branch .updateExpression [sign, ← rules (.operand 13)]
    if m = "<" && (← dialect) = .typed then
      let given ← typeArguments rules
      return Node.branch .typeAssertion [given, ← rules (.operand 13)]
    postfixed rules
  | .word w =>
    if signWords.contains w then
      let sign ← word w
      return Node.branch .unaryExpression [sign, ← rules (.operand 13)]
    if w = "await" then
      let sign ← word w
      return Node.branch .awaitExpression [sign, ← rules (.operand 13)]
    postfixed rules
  | _ => postfixed rules

/-- A conversion to another type behind a value. -/
def conversion (rules : Rules) (left : Node) (w : String) : Parser Node := do
  let sign ← word w
  if w = "as" && (← isWord "const") then
    return Node.branch .asExpression [left, sign, ← word "const"]
  let c := if w = "as" then Construct.asExpression else .satisfiesExpression
  return Node.branch c [left, sign, ← rules .type]

/-- An operator of at least the given power and the operand behind
it. -/
def operatorStep? (rules : Rules) (power : Nat) (left : Node) : Parser (Option Node) := do
  let join (sign : Parser Node) (own : Nat) : Parser (Option Node) := do
    if own < power then return none
    let sign ← sign
    let right ← rules (.operand (if own = 12 then 12 else own + 1))
    return some (Node.branch .binaryExpression [left, sign, right])
  match ← ahead with
  | .mark m =>
    match operatorPower? m with
    | some own => join (mark m) own
    | none => return none
  | .word w =>
    if w = "instanceof" || (w = "in" && (← surroundings).inOperator) then
      join (word w) wordPower
    else if (w = "as" || w = "satisfies") && (← typed) && wordPower ≥ power
        && !(← lineEndsHere .expression) then
      return some (← conversion rules left w)
    else return none
  | _ => return none

/-- Operands joined by operators of at least the given power. -/
def operand (rules : Rules) (power : Nat) : Parser Node := do
  let first ← signed rules
  grow (operatorStep? rules power) first

/-- The first value of a choice with the colon behind it. Where a
function with an arrow takes the colon for the type of its result,
the value is read again without such types. -/
def consequence (rules : Rules) : Parser (List Node) := do
  let value (place : Parser Node → Parser Node) : Parser (List Node) := do
    let value ← place (rules .expression)
    return [value, ← mark ":"]
  if (← typed) && (← isMark "(") then either (value enclosed) (value beforeColon)
  else value enclosed

/-- A choice between two values, or a value without one. -/
def conditional (rules : Rules) : Parser Node := do
  let condition ← rules (.operand 0)
  if !(← isMark "?") then return condition
  let question ← mark "?"
  let first ← consequence rules
  return Node.branch .ternaryExpression (condition :: question :: first ++ [← rules .expression])

/-! ### Assignments and functions with an arrow -/

/-- A pattern that is assigned a value. -/
def patternAssignment (rules : Rules) : Parser Node := do
  let left ← enclosed (rules .target)
  let equals ← mark "="
  return Node.branch .assignmentExpression [left.inRole .left, equals, ← rules .expression]

/-- A value that was read, or an assignment to it. -/
def assignmentTo (rules : Rules) (left : Node) : Parser Node := do
  let writable := isTarget (← dialect) left || left.is .parenthesizedExpression
  match ← ahead with
  | .mark m =>
    if m = "=" then
      require writable
      let equals ← mark m
      return Node.branch .assignmentExpression [left.inRole .left, equals, ← rules .expression]
    if updatingMarks.contains m then
      require writable
      let sign ← mark m
      return Node.branch .augmentedAssignmentExpression [left, sign, ← rules .expression]
    return left
  | _ => return left

/-- A value that is no literal with an equals sign behind it. -/
def noPattern (rules : Rules) : Parser Node := do
  let node ← conditional rules
  require (!((node.is .array || node.is .object) && (← isMark "=")))
  return node

/-- A value, or an assignment of one. A literal with an equals sign
behind it is read again as a pattern. -/
def assignment (rules : Rules) : Parser Node := do
  if (← isMark "[") || (← isMark "\x7b") then
    let first ← either (do return (some (← noPattern rules), none))
      (do return (none, some (← patternAssignment rules)))
    match first with
    | (some value, _) => assignmentTo rules value
    | (_, some whole) => return whole
    | _ => refuse
  else assignmentTo rules (← conditional rules)

/-- The parameters of a function with an arrow, and the arrow. -/
def arrowHead (rules : Rules) : Parser (List Node) := do
  let asyncWord ← do
    if !(← isWord "async") then pure []
    else
      match ← second with
      | .mark "=>" => pure []
      | _ => word? "async"
  let parameters ← do
    if ← isNameAhead then pure [(← name .identifier).inRole .parameter]
    else if (← surroundings).namesResult then enclosed (signature rules)
    else enclosed do
      let generic ← typeParameters? rules
      return generic ++ [(← formalParameters rules).inRole .parameters]
  return asyncWord ++ parameters ++ [← mark "=>"]

/-- A function with an arrow, behind its head. -/
def arrowBody (rules : Rules) (head : List Node) : Parser Node := do
  let body ← do
    if ← isMark "\x7b" then rules (.block .expression) else rules .expression
  return Node.branch .arrowFunction (head ++ [body.inRole .body])

/-- The next token may begin the head of a function with an arrow. -/
def mayOpenArrow : Parser Bool := do
  match ← ahead with
  | .word w =>
    if !(isFree w) then return false
    match ← second with
    | .mark "=>" => return true
    | .mark "(" => return w = "async"
    | .mark "<" => return w = "async" && (← typed)
    | .word _ => return w = "async"
    | _ => return false
  | .mark "(" => return true
  | .mark "<" => typed
  | _ => return false

/-- A value that a generator hands out. -/
def yieldExpression (rules : Rules) : Parser Node := do
  let yieldWord ← word "yield"
  let stops ← do
    match ← ahead with
    | .mark m => pure ([")", "]", "\x7d", ",", ";", ":"].contains m)
    | .finished => pure true
    | _ => pure false
  if stops || (← lineEndsHere .other) then return Node.branch .yieldExpression [yieldWord]
  let star ← mark? "*"
  return Node.branch .yieldExpression (yieldWord :: star ++ [← rules .expression])

/-- One expression. -/
def expression (rules : Rules) : Parser Node := do
  let head ← do if ← mayOpenArrow then attempt? (arrowHead rules) else pure none
  match head with
  | some head => arrowBody rules head
  | none => if ← isWord "yield" then yieldExpression rules else assignment rules

/-- Expressions separated by commas. -/
def expressions (rules : Rules) : Parser Node := do
  let first ← rules .expression
  if !(← isMark ",") then return first
  let rest ← collect do
    if ← isMark "," then
      let comma ← mark ","
      return some [comma, ← rules .expression]
    else return none
  return Node.branch .sequenceExpression (first :: rest)

end Parser

end ScriptRefactor.Grammar
