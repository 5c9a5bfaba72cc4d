import ScriptRefactor.Grammar.TypeExpression

/-!
# `ScriptRefactor.Grammar.Member`: functions, methods and classes

A function in an expression may go without a name; its body ends an
expression. A function in place of a statement has a name, and in a
typed dialect it may be a mere signature without a body.

The members of a class are methods, fields, static blocks and, in a
typed dialect, signatures of all kinds. Decorators belong to the
member behind them, except to a method of a typed dialect, which has
them in front of it.
-/

set_option autoImplicit false

namespace ScriptRefactor.Grammar

open Syntax

namespace Parser

/-! ### Functions -/

/-- The word `function` with what may stand around it. The last part
tells whether the function is a generator. -/
def functionHead : Parser (List Node × Bool) := do
  let asyncWord ← word? "async"
  let functionWord ← word "function"
  let star ← mark? "*"
  return (asyncWord ++ functionWord :: star, star ≠ [])

/-- A function that stands for a value. -/
def functionExpression (rules : Rules) : Parser Node := do
  let (head, generates) ← functionHead
  let own ← do if ← isNameAhead then pure [(← name .identifier).inRole .name] else pure []
  let rest ← signature rules
  let body ← rules (.block .expression)
  let c := if generates then Construct.generatorFunction else .functionExpression
  return Node.branch c (head ++ own ++ rest ++ [body.inRole .body])

/-- A function in place of a statement. -/
def functionDeclaration (rules : Rules) : Parser Node := do
  let (head, generates) ← functionHead
  let own ← name .identifier
  let rest ← signature rules
  let front := head ++ own.inRole .name :: rest
  if (← typed) && !(← isMark "\x7b") then terminated .functionSignature .signature front
  else
    let body ← rules (.block .other)
    let c := if generates then Construct.generatorFunctionDeclaration else .functionDeclaration
    return Node.branch c (front ++ [body.inRole .body])

/-- The next words start a function. -/
def isFunctionAhead : Parser Bool := do
  match ← ahead with
  | .word w => return w = "function" || (w = "async" && (← second) = .word "function")
  | _ => return false

/-! ### Methods of objects -/

/-- A method in an object. -/
def objectMethod (rules : Rules) : Parser Node := do
  let modifiers ← memberModifiers ["static", "async", "get", "set", "*"]
  let key ← propertyName rules
  let rest ← signature rules
  let body ← rules (.block .other)
  return Node.branch .methodDefinition
    (modifiers ++ key.inRole .name :: rest ++ [body.inRole .body])

/-! ### Members of classes -/

/-- The modifiers of a class member. -/
def classModifiers : Parser (List Node) := do
  if ← typed then
    memberModifiers
      ["public", "private", "protected", "declare", "static", "override", "readonly", "abstract",
       "accessor", "async", "get", "set", "*"]
  else memberModifiers ["static", "async", "get", "set", "*"]

/-- The end of a member: a semicolon, a comma in a typed dialect, or
the end of the line. -/
def memberEnd (before : Ending) : Parser (List Node) := do
  if (← typed) && (← isMark ",") then return [← mark ","]
  return (← terminator before).1

/-- A method, or its signature, behind its name. -/
def classMethod (rules : Rules) (front decorating : List Node) (abstractMember : Bool) :
    Parser (List Node) := do
  let rest ← signature rules
  if ← isMark "\x7b" then
    let body ← rules (.block .other)
    let inside := front ++ rest ++ [body.inRole .body]
    if ← typed then return decorating ++ [Node.branch .methodDefinition inside]
    return [Node.branch .methodDefinition (decorating ++ inside)]
  else
    require (← typed)
    let c := if abstractMember then Construct.abstractMethodSignature else .methodSignature
    let stop ← memberEnd .signature
    return decorating ++ Node.branch c (front ++ rest) :: stop

/-- A field behind its name. -/
def classField (rules : Rules) (front : List Node) : Parser (List Node) := do
  let ascribed ← typeAscription? rules
  let value ← Parser.ending (initializer? rules)
  let c := if ← typed then Construct.publicFieldDefinition else .fieldDefinition
  let stop ← memberEnd (if value = [] then .other else .expression)
  return Node.branch c (front ++ ascribed ++ value) :: stop

/-- A member of a class with what ends it. -/
def classMember (rules : Rules) : Parser (List Node) := do
  if ← isMark ";" then return [← mark ";"]
  if (← isWord "static") && (← second) = .mark "\x7b" then
    let staticWord ← word "static"
    let body ← rules (.block .other)
    return [Node.branch .classStaticBlock [staticWord, body.inRole .body]]
  let decorating ← decorators rules
  let index ← do if ← typed then attempt? (indexSignature rules) else pure none
  match index with
  | some index => return decorating ++ index :: (← memberEnd .other)
  | none =>
    let modifiers ← classModifiers
    let key ← propertyName rules
    let sign ← do
      if ← typed then
        if ← isMark "?" then mark? "?" else mark? "!"
      else pure []
    let front := modifiers ++ key.inRole .name :: sign
    if (← isMark "(") || ((← typed) && (← isChar '<')) then
      classMethod rules front decorating (modifiers.any fun m => m.kind = .token "abstract")
    else classField rules (decorating ++ front)

/-- The body of a class. -/
def classBody (rules : Rules) : Parser Node := do
  return Node.branch .classBody
    (← bracketed "\x7b" "\x7d" (untilMark "\x7d" (classMember rules)))

/-! ### Classes -/

/-- The clause that names the class extended. -/
def extendsClause (rules : Rules) : Parser Node := do
  let extendsWord ← word "extends"
  let values ← commaSeparated do
    let value ← enclosed (rules .access)
    let arguments ← do if ← isChar '<' then pure [← typeArguments rules] else pure []
    return value.inRole .value :: arguments
  return Node.branch .extendsClause (extendsWord :: values)

/-- The clause that names the interfaces implemented. -/
def implementsClause (rules : Rules) : Parser Node := do
  let implementsWord ← word "implements"
  let types ← commaSeparated do return [← enclosed (rules .type)]
  return Node.branch .implementsClause (implementsWord :: types)

/-- What a class is built upon. -/
def classHeritage (rules : Rules) : Parser (List Node) := do
  if ← typed then
    let extended ← do
      if ← isWord "extends" then pure [← extendsClause rules] else pure []
    let implemented ← do
      if ← isWord "implements" then pure [← implementsClause rules] else pure []
    if extended = [] ∧ implemented = [] then return []
    return [Node.branch .classHeritage (extended ++ implemented)]
  else if ← isWord "extends" then
    let extendsWord ← word "extends"
    return [Node.branch .classHeritage [extendsWord, ← enclosed (rules .access)]]
  else return []

/-- The name of a class, if it has one. -/
def className? : Parser (List Node) := do
  let hasTypes ← typed
  if !(← isNameAhead) || (hasTypes && (← isWord "implements")) then return []
  let c := if hasTypes then Construct.typeIdentifier else .identifier
  return [(← name c).inRole .name]

/-- The word `class` and what follows it. -/
def classRest (rules : Rules) (named : Bool) : Parser (List Node) := do
  let classWord ← word "class"
  let own ← className?
  require (!named || own ≠ [])
  let generic ← typeParameters? rules
  let heritage ← classHeritage rules
  let body ← rules .classBody
  return classWord :: own ++ generic ++ heritage ++ [body.inRole .body]

/-- A class that stands for a value. -/
def classExpression (rules : Rules) : Parser Node := do
  let decorating ← decorators rules
  return Node.branch .classExpression (decorating ++ (← classRest rules false))

/-- A class in place of a statement, behind its decorators. -/
def classDeclaration (rules : Rules) (decorating : List Node) : Parser Node := do
  if ← isWord "abstract" then
    let abstractWord ← word "abstract"
    return Node.branch .abstractClassDeclaration
      (decorating ++ abstractWord :: (← classRest rules true))
  else
    let nodes ← classRest rules true
    let stop ← trailingEnd .other ((nodes.getLast?.map Node.stop).getD 0)
    return Node.branchTo .classDeclaration (decorating ++ nodes) stop

end Parser

end ScriptRefactor.Grammar
