import ScriptRefactor.Grammar.Goal

/-!
# `ScriptRefactor.Grammar.TypeExpression`: types and signatures

A type is a conditional type over unions over intersections; both
operators group to the left. Below them stand the types that begin
with a word, such as `keyof`, then the array and lookup types behind
an element type, then names, literals and bracketed types.

A signature is what stands between the name of a function and its
body: type parameters, parameters and the type of the result. The
plain dialect has only parameters in it.
-/

set_option autoImplicit false

namespace ScriptRefactor.Grammar

open Syntax

/-- The words that are types of their own. -/
def predefinedTypes : List String :=
  ["any", "number", "boolean", "string", "symbol", "void", "unknown", "never", "object"]

/-- The words that say who may use a member. -/
def accessWords : List String := ["public", "private", "protected"]

namespace Parser

/-- Reads the next word as a leaf of a construct. -/
def wordLeaf (c : Construct) : Parser Node := anyName c

/-- Reads the next word as a construct over one token. -/
def wordBranch (c : Construct) : Parser Node := do
  match ← ahead with
  | .word w => return Node.branch c [← word w]
  | _ => refuse

/-! ### Type parameters -/

/-- A type parameter with its bound and its default. -/
def typeParameter (rules : Rules) : Parser Node := do
  let constant ← word? "const"
  let parameter ← name .typeIdentifier
  let bound ← do
    if ← isWord "extends" then
      let extendsWord ← word "extends"
      pure [Node.branch .constraint [extendsWord, ← enclosed (rules .type)]]
    else pure []
  let default ← do
    if ← isMark "=" then
      let equals ← mark "="
      pure [(Node.branch .defaultType [equals, ← enclosed (rules .type)]).inRole .value]
    else pure []
  return Node.branch .typeParameter (constant ++ parameter.inRole .name :: bound ++ default)

/-- Type parameters in angle brackets. -/
def typeParameters (rules : Rules) : Parser Node := do
  return Node.branch .typeParameters (← angleList (typeParameter rules))

/-- Type parameters, if there are any and the dialect has types. -/
def typeParameters? (rules : Rules) : Parser (List Node) := do
  if (← typed) && (← isChar '<') then return [← typeParameters rules] else return []

/-! ### Parameters -/

/-- The word is a modifier here: a name or a pattern follows it. -/
def isModifier : Parser Bool := do
  match ← second with
  | .word w => return w ≠ "in"
  | .mark m => return m = "\x7b" || m = "["
  | _ => return false

/-- A decorator: a name with the accesses and calls behind it. -/
def decorator (rules : Rules) : Parser Node := do
  let sign ← mark "@"
  return Node.branch .decorator [sign, ← enclosed (rules .access)]

/-- The decorators in front of a declaration. -/
def decorators (rules : Rules) : Parser (List Node) :=
  collect do if ← isMark "@" then return some [← decorator rules] else return none

/-- The modifiers in front of a parameter. -/
def parameterModifiers : Parser (List Node) :=
  collect do
    match ← ahead with
    | .word w =>
      if !(← isModifier) then return none
      if accessWords.contains w then return some [← wordBranch .accessibilityModifier]
      if w = "override" then return some [← wordBranch .overrideModifier]
      if w = "readonly" then return some [← word "readonly"]
      return none
    | _ => return none

/-- A parameter of a dialect with types. -/
def typedParameter (rules : Rules) : Parser Node := do
  let before ← decorators rules
  let modifiers ← parameterModifiers
  let pattern ← do
    if ← isMark "..." then restPattern rules .binding
    else if ← isWord "this" then wordLeaf .thisWord
    else rules .binding
  let optional ← mark? "?"
  let ascribed ← typeAscription? rules
  let value ← initializer? rules
  let c := if optional = [] then Construct.requiredParameter else .optionalParameter
  return Node.branch c
    (before ++ modifiers ++ pattern.inRole .pattern :: optional ++ ascribed ++ value)

/-- A parameter of the plain dialect. -/
def plainParameter (rules : Rules) : Parser Node := do
  if ← isMark "..." then restPattern rules .binding else withDefault rules .binding

/-- Parameters in parentheses. -/
def formalParameters (rules : Rules) : Parser Node := do
  let hasTypes ← typed
  let parameter : Parser (List Node) := do
    if hasTypes then return [← typedParameter rules] else return [← plainParameter rules]
  return Node.branch .formalParameters (← bracketed "(" ")" (commaList ")" parameter))

/-! ### Results -/

/-- The subject of a type predicate. -/
def predicateSubject : Parser Node := do
  if ← isWord "this" then wordLeaf .thisWord else name .identifier

/-- A type predicate: a parameter is of a type. -/
def typePredicate (rules : Rules) : Parser Node := do
  let subject ← predicateSubject
  let isWord ← word "is"
  return Node.branch .typePredicate [subject.inRole .name, isWord, ← rules .type]

/-- An assertion: the function returns only if its argument holds. -/
def assertion (rules : Rules) : Parser Node := do
  let asserts ← word "asserts"
  return Node.branch .asserts [asserts, ← either (typePredicate rules) predicateSubject]

/-- The next words start an assertion. -/
def isAssertion : Parser Bool := do
  if !(← isWord "asserts") then return false
  match ← second with
  | .word w => return w ≠ "is"
  | _ => return false

/-- What a function gives back, behind a colon. -/
def resultAscription (rules : Rules) : Parser Node := do
  let colon ← mark ":"
  if ← isAssertion then
    return Node.branch .assertsAscription [colon, ← assertion rules]
  match ← attempt? (typePredicate rules) with
  | some predicate => return Node.branch .typePredicateAscription [colon, predicate]
  | none => return Node.branch .typeAscription [colon, ← rules .type]

/-- Type parameters, parameters and result of a function. -/
def signature (rules : Rules) : Parser (List Node) := do
  let generic ← typeParameters? rules
  let parameters ← formalParameters rules
  let result ← do
    if (← typed) && (← isMark ":") then pure [← resultAscription rules] else pure []
  return generic ++ parameters.inRole .parameters :: result

/-! ### Types of functions -/

/-- The result of a function type. -/
def functionResult (rules : Rules) : Parser Node := do
  if ← isAssertion then return ← assertion rules
  match ← attempt? (typePredicate rules) with
  | some predicate => return predicate
  | none => rules .type

/-- The type of a function. -/
def functionType (rules : Rules) : Parser Node := do
  let head ← attempt? do
    let generic ← typeParameters? rules
    let parameters ← formalParameters rules
    let arrow ← mark "=>"
    return generic ++ [parameters.inRole .parameters, arrow]
  match head with
  | some head => return Node.branch .functionType (head ++ [← functionResult rules])
  | none => refuse

/-- The type of a constructor. -/
def constructorType (rules : Rules) : Parser Node := do
  let modifier ← word? "abstract"
  let newWord ← word "new"
  let generic ← typeParameters? rules
  let parameters ← formalParameters rules
  let arrow ← mark "=>"
  return Node.branch .constructorType
    (modifier ++ newWord :: generic ++ [parameters.inRole .parameters, arrow, ← rules .type])

/-! ### Members of object types -/

/-- What an index ranges over: a name with its type, or the names of
another type. -/
def indexRange (rules : Rules) : Parser (List Node) := do
  match ← second with
  | .mark ":" =>
    let key ← anyName .identifier
    let colon ← mark ":"
    return [key.inRole .name, colon, ← rules .type]
  | .word "in" =>
    let key ← anyName .typeIdentifier
    let inWord ← word "in"
    let range ← rules .type
    let renamed ← do
      if ← isWord "as" then
        let asWord ← word "as"
        pure [asWord, (← rules .type).inRole .alias]
      else pure []
    return [Node.branch .mappedTypeClause ([key.inRole .name, inWord, range] ++ renamed)]
  | _ => refuse

/-- The type behind an index: the mark tells whether members become
optional, stay so, or stop being so. -/
def indexResult (rules : Rules) : Parser Node := do
  skipBlanks
  let cs ← remaining
  let annotated (c : Construct) (text : String) : Parser Node := do
    let sign ← token text.toList
    return Node.branch c [sign, ← rules .type]
  if Text.startsWith ['-', '?', ':'] cs then annotated .omittingTypeAscription "-?:"
  else if Text.startsWith ['+', '?', ':'] cs then annotated .addingTypeAscription "+?:"
  else if Text.startsWith ['?', ':'] cs then annotated .optingTypeAscription "?:"
  else typeAscription rules

/-- A member that stands for all members of some names. -/
def indexSignature (rules : Rules) : Parser Node := do
  let sign ← do
    if ← isMark "-" then pure [← mark "-"] else if ← isMark "+" then pure [← mark "+"] else pure []
  let readonly ← word? "readonly"
  let index ← bracketed "[" "]" (indexRange rules)
  return Node.branch .indexSignature (sign ++ readonly ++ index ++ [← indexResult rules])

/-- The words that may stand in front of a member. The word is a
modifier if a name follows it. -/
def memberModifiers (words : List String) : Parser (List Node) :=
  collect do
    match ← ahead with
    | .word w =>
      let nameBehind ← do
        match ← second with
        | .word _ => pure true
        | .number => pure true
        | .mark m => pure (["[", "#", "\"", "'", "*"].contains m)
        | _ => pure false
      if !(words.contains w && nameBehind) then return none
      if accessWords.contains w then return some [← wordBranch .accessibilityModifier]
      if w = "override" then return some [← wordBranch .overrideModifier]
      return some [← word w]
    | .mark "*" => if words.contains "*" then return some [← mark "*"] else return none
    | _ => return none

/-- A property or a method of an object type. -/
def namedSignature (rules : Rules) : Parser Node := do
  let modifiers ← memberModifiers
    ["public", "private", "protected", "static", "override", "readonly", "async", "get", "set", "*"]
  let key ← propertyName rules
  let optional ← mark? "?"
  if (← isMark "(") || (← isChar '<') then
    return Node.branch .methodSignature
      (modifiers ++ key.inRole .name :: optional ++ (← signature rules))
  else
    let ascribed ← typeAscription? rules
    return Node.branch .propertySignature
      (modifiers ++ key.inRole .name :: optional ++ ascribed)

/-- A member of an object type. -/
def typeMember (rules : Rules) : Parser Node := do
  match ← attempt? (indexSignature rules) with
  | some index => return index
  | none =>
    if (← isMark "(") || (← isChar '<') then
      return Node.branch .callSignature (← signature rules)
    let constructs ← do
      if ← isWord "new" then
        match ← second with
        | .mark m => pure (m = "(" || m = "<")
        | _ => pure false
      else pure false
    if constructs then
      let newWord ← word "new"
      let generic ← typeParameters? rules
      let parameters ← formalParameters rules
      let ascribed ← typeAscription? rules
      return Node.branch .constructSignature
        (newWord :: generic ++ parameters.inRole .parameters :: ascribed)
    namedSignature rules

/-- The mark behind a member, which the end of a line can stand
for. -/
def memberSeparator : Parser (List Node) := do
  if ← isMark "," then return [← mark ","]
  if ← isMark ";" then return [← mark ";"]
  if ← isMark "\x7d" then return []
  let _ ← lineEnd .other
  return []

/-- Members in braces, as the given construct. -/
def objectType (rules : Rules) (c : Construct) : Parser Node := do
  let nodes ← bracketed "\x7b" "\x7d" (untilMark "\x7d" do
    let member ← Parser.ending (typeMember rules)
    return member :: (← memberSeparator))
  return Node.branch c nodes

/-! ### Types -/

/-- A member of a tuple. -/
def tupleMember (rules : Rules) : Parser Node := do
  let labelled ← attempt? do
    let pattern ← do
      if ← isMark "..." then restPattern rules .binding else name .identifier
    let optional ← mark? "?"
    let ascribed ← typeAscription rules
    let c := if optional = [] then Construct.requiredParameter else .optionalParameter
    return Node.branch c (pattern.inRole .name :: optional ++ [ascribed])
  match labelled with
  | some node => return node
  | none =>
    if ← isMark "..." then
      let dots ← mark "..."
      return Node.branch .restType [dots, ← rules .type]
    let element ← rules .type
    if ← isMark "?" then return Node.branch .optionalType [element, ← mark "?"]
    return element

/-- Names separated by dots, as one node. -/
def nestedName (first : Node) : Parser Node :=
  grow (fun node => do
    if ← isMark "." then
      let dot ← mark "."
      return some (Node.branch .nestedIdentifier [node, dot, ← anyName .propertyIdentifier])
    else return none) first

/-- Names, with the dots between them, grouped to the left. -/
def joinNames (node : Node) : List Node → Node
  | dot :: part :: rest =>
    joinNames (Node.branch .nestedIdentifier [node, dot, part.becomes .propertyIdentifier]) rest
  | _ => node

/-- A name of a type: names in front of a dot are modules. -/
def typeName : Parser Node := do
  let names ← do
    let first ← name .identifier
    let more ← collect do
      if ← isMark "." then
        let dot ← mark "."
        return some [dot, ← anyName .identifier]
      else return none
    pure (first :: more)
  match names.reverse with
  | last :: dot :: before =>
    let qualifier := match before.reverse with
      | first :: rest => joinNames first rest
      | [] => dot
    return Node.branch .nestedTypeIdentifier
      [qualifier, dot, (last.becomes .typeIdentifier).inRole .name]
  | [only] => return only.becomes .typeIdentifier
  | [] => refuse

/-- A name of a type with its arguments. -/
def typeReference (rules : Rules) : Parser Node := do
  let reference ← typeName
  if (← isChar '<') && !(← lineEndsHere .other) then
    return Node.branch .genericType [reference.inRole .name, ← typeArguments rules]
  return reference

/-- A value whose type is meant: names, accesses and imports. -/
def valueReference (rules : Rules) : Parser Node := do
  let first ← do
    if ← isWord "import" then wordLeaf .importCallee
    else if ← isWord "this" then wordLeaf .thisWord
    else name .identifier
  let whole ← grow (fun node => do
    if ← isMark "." then
      let dot ← mark "."
      let property ← do if ← isMark "#" then privateName else anyName .propertyIdentifier
      return some (Node.branch .memberExpression [node, dot, property])
    if (← isMark "(") && node.is .importCallee then
      let inside ← bracketed "(" ")" (commaList ")" do return [← rules .expression])
      return some (Node.branch .callExpression [node, Node.branch .arguments inside])
    if (← isMark "[") && !(node.is .importCallee) && !(← lineEndsHere .other) then
      let inside ← attempt? (bracketed "[" "]" do return [← rules .expression])
      return inside.map fun inside => Node.branch .subscriptExpression (node :: inside)
    return none) first
  if (← isChar '<') && !(← lineEndsHere .other) then
    return Node.branch .instantiationExpression [whole, ← typeArguments rules]
  return whole

/-- A type that is one literal value. -/
def literalType (node : Node) : Node := Node.branch .literalType [node]

/-- A type without operators around it. -/
def primaryType (rules : Rules) : Parser Node := do
  match ← ahead with
  | .word w =>
    if w = "unique" && (← second) = .word "symbol" then
      let first ← word "unique"
      let last ← word "symbol"
      return Node.mk ⟨0, .construct .predefinedType, none, ⟨first.start, last.stop⟩, ""⟩
        [.mk ⟨0, .token "unique symbol", none, ⟨first.start, last.stop⟩, "unique symbol"⟩ []]
    let qualified := (← second) = .mark "."
    if predefinedTypes.contains w && !qualified then return ← wordBranch .predefinedType
    match w with
    | "true" => return literalType (← wordLeaf .trueLiteral)
    | "false" => return literalType (← wordLeaf .falseLiteral)
    | "null" => return literalType (← wordLeaf .nullLiteral)
    | "undefined" => return literalType (← wordLeaf .undefinedWord)
    | "this" => wordLeaf .thisType
    | "typeof" =>
      let typeofWord ← word "typeof"
      return Node.branch .typeQuery [typeofWord, ← valueReference rules]
    | "import" => valueReference rules
    | _ => typeReference rules
  | .number => return literalType (← number)
  | .mark m =>
    match m with
    | "\"" | "'" => return literalType (← string)
    | "-" =>
      let sign ← mark "-"
      return literalType (Node.branch .unaryExpression [sign, ← number])
    | "(" =>
      return Node.branch .parenthesizedType (← bracketed "(" ")" do return [← rules .type])
    | "[" =>
      return Node.branch .tupleType
        (← bracketed "[" "]" (commaList "]" do return [← tupleMember rules]))
    | "\x7b" => objectType rules .objectType
    | "\x60" => template .templateLiteralType .templateType (rules .type)
    | "*" => return Node.branch .existentialType [← mark "*"]
    | _ => refuse
  | _ => refuse

/-- An element type with the brackets behind it. -/
def postfixType (rules : Rules) : Parser Node := do
  let first ← primaryType rules
  grow (fun node => do
    if !(← isMark "[") || (← lineEndsHere .other) then return none
    let opening ← mark "["
    if ← isMark "]" then return some (Node.branch .arrayType [node, opening, ← mark "]"])
    let index ← enclosed (rules .type)
    return some (Node.branch .lookupType [node, opening, index, ← mark "]"])) first

/-- A type that may begin with a word or with parameters. -/
def prefixType (rules : Rules) : Parser Node := do
  match ← ahead with
  | .word w =>
    let typeBehind ← do
      match ← second with
      | .word _ => pure true
      | .number => pure true
      | .mark m => pure (["(", "[", "\x7b", "\"", "'", "\x60", "<"].contains m)
      | _ => pure false
    if typeBehind then
      match w with
      | "keyof" =>
        let keyof ← word "keyof"
        return Node.branch .indexTypeQuery [keyof, ← postfixType rules]
      | "readonly" =>
        let readonly ← word "readonly"
        return Node.branch .readonlyType [readonly, ← postfixType rules]
      | "infer" =>
        let infer ← word "infer"
        let inferred ← name .typeIdentifier
        let bound ← attempt? do
          let extendsWord ← word "extends"
          return [extendsWord, ← rules .type]
        return Node.branch .inferType (infer :: inferred :: bound.getD [])
      | "new" => return ← constructorType rules
      | "abstract" => if (← second) = .word "new" then return ← constructorType rules
      | _ => pure ()
    postfixType rules
  | .mark m =>
    if m = "(" then either (functionType rules) (postfixType rules)
    else if m = "<" then functionType rules
    else postfixType rules
  | _ => postfixType rules

/-- Types joined by a mark, grouped to the left. The mark may also
stand in front. -/
def joinedTypes (m : String) (c : Construct) (operand : Parser Node) : Parser Node := do
  let first ← do
    if ← isMark m then
      let sign ← mark m
      pure (Node.branch c [sign, ← operand])
    else operand
  grow (fun left => do
    if ← isMark m then
      let sign ← mark m
      return some (Node.branch c [left, sign, ← operand])
    else return none) first

/-- Unions of intersections. -/
def unionType (rules : Rules) : Parser Node :=
  joinedTypes "|" .unionType (joinedTypes "&" .intersectionType (prefixType rules))

/-- A type. -/
def type (rules : Rules) : Parser Node := do
  let left ← unionType rules
  if !(← isWord "extends") || (← lineEndsHere .other) then return left
  let conditional ← attempt? do
    let extendsWord ← word "extends"
    let bound ← enclosed (unionType rules)
    let question ← mark "?"
    return [left, extendsWord, bound, question]
  match conditional with
  | none => return left
  | some head =>
    let consequence ← enclosed (rules .type)
    let colon ← mark ":"
    return Node.branch .conditionalType (head ++ [consequence, colon, ← rules .type])

end Parser

end ScriptRefactor.Grammar
