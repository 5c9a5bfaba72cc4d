import ScriptRefactor.Grammar.Expression

/-!
# `ScriptRefactor.Grammar.Statement`: statements and declarations

The first token decides which statement it is, sometimes together
with the second: `let` and the words of typed declarations are names
unless a name follows. A statement that starts with nothing special
is an expression.
-/

set_option autoImplicit false

namespace ScriptRefactor.Grammar

open Syntax

/-- The construct of a declaration that starts with the word. -/
def declarationOf (w : String) : Construct :=
  if w = "var" then .variableDeclaration else .lexicalDeclaration

namespace Parser

/-! ### Blocks -/

/-- Statements up to a token that ends them. -/
def statementsUntil (rules : Rules) (stop : Ahead → Bool) : Parser (List Node) :=
  untilAhead (fun a => a = .finished || stop a) do return [← rules .statement]

/-- Statements in braces. The end of the line behind the block
belongs to it. -/
def block (rules : Rules) (before : Ending) : Parser Node := do
  let opening ← mark "\x7b"
  let inside ← statementsUntil rules (· = .mark "\x7d")
  let closing ← mark "\x7d"
  let stop ← trailingEnd before closing.stop
  return Node.branchTo .statementBlock (opening :: inside ++ [closing]) stop

/-! ### Declarations of variables -/

/-- One declared name or pattern with its type and its value. -/
def declarator (rules : Rules) (value : Parser (List Node)) : Parser Node := do
  let own ← enclosed (binding rules)
  let definite ← do if ← typed then mark? "!" else pure []
  let ascribed ← typeAscription? rules
  let given ← value
  return Node.branch .variableDeclarator (own.inRole .name :: definite ++ ascribed ++ given)

/-- The word of a declaration and the declared names; whether the
last one has a value decides how the declaration can end. -/
def declarators (rules : Rules) (value : Parser (List Node)) : Parser (List Node × Ending) := do
  match ← ahead with
  | .word w =>
    let kind ← word w
    let kind := if w = "var" then kind else kind.inRole .kind
    let names ← commaSeparated do return [← declarator rules value]
    let last := names.getLast?.bind fun d => d.child? .value
    return (kind :: names, if last.isSome then .expression else .other)
  | _ => refuse

/-- A declaration of variables. -/
def variableDeclaration (rules : Rules) : Parser Node := do
  match ← ahead with
  | .word w =>
    let (nodes, before) ← Parser.ending (declarators rules (initializer? rules))
    terminated (declarationOf w) before nodes
  | _ => refuse

/-! ### Conditions and loops -/

/-- A condition in parentheses. -/
def condition (rules : Rules) : Parser Node := parenthesized rules

/-- A choice between two statements. -/
def ifStatement (rules : Rules) : Parser Node := do
  let ifWord ← word "if"
  let test ← condition rules
  let consequence ← rules .statement
  let alternative ← do
    if ← isWord "else" then
      let elseWord ← word "else"
      pure [Node.branch .elseClause [elseWord, ← rules .statement]]
    else pure []
  return Node.branch .ifStatement ([ifWord, test, consequence] ++ alternative)

/-- A loop with its test in front. -/
def whileStatement (rules : Rules) : Parser Node := do
  let whileWord ← word "while"
  let test ← condition rules
  return Node.branch .whileStatement [whileWord, test, (← rules .statement).inRole .body]

/-- A loop with its test behind. -/
def doStatement (rules : Rules) : Parser Node := do
  let doWord ← word "do"
  let body ← rules .statement
  let whileWord ← word "while"
  let test ← condition rules
  let nodes := [doWord, body.inRole .body, whileWord, test]
  if ← isMark ";" then return Node.branch .doStatement (nodes ++ [← mark ";"])
  return Node.branchTo .doStatement nodes (← trailingEnd .other test.stop)

/-- The next word declares what a loop runs over. -/
def declaresAhead : Parser Bool := do
  match ← ahead with
  | .word w =>
    if w = "var" || w = "const" then return true
    if w ≠ "let" then return false
    match ← second with
    | .word w => return isFree w
    | .mark m => return m = "[" || m = "\x7b"
    | _ => return false
  | _ => return false

/-- The word between what a loop declares and what it runs over. -/
def rangeWord : Parser Node := do if ← isWord "of" then word "of" else word "in"

/-- The head of a loop over the members of a value. -/
def rangeHead (rules : Rules) : Parser (List Node) := do
  let opening ← mark "("
  let left ← do
    if ← declaresAhead then
      match ← ahead with
      | .word w =>
        let kind ← word w
        let own ← withoutIn (binding rules)
        let value ← do
          if w = "var" then withoutIn (initializer? rules) else pure []
        pure ([kind.inRole .kind, own.inRole .left] ++ value)
      | _ => refuse
    else
      let left ← withoutIn (either (rules .target) (rules .access))
      require (isTarget (← dialect) left || left.is .parenthesizedExpression
        || left.is .objectPattern || left.is .arrayPattern)
      pure [left.inRole .left]
  let between ← rangeWord
  return opening :: left ++ [between]

/-- An empty statement in the head of a loop. -/
def emptyPart : Parser Node := do return Node.branch .emptyStatement [← mark ";"]

/-- The head of a loop with a start, a test and a step. -/
def stepHead (rules : Rules) : Parser (List Node) := do
  let opening ← mark "("
  let first ← do
    if ← isMark ";" then pure [← emptyPart]
    else if ← declaresAhead then
      match ← ahead with
      | .word w =>
        let (nodes, _) ← withoutIn (declarators rules (initializer? rules))
        pure [Node.branch (declarationOf w) (nodes ++ [← mark ";"])]
      | _ => refuse
    else
      let start ← withoutIn (rules .expressions)
      pure [start, ← mark ";"]
  let test ← do
    if ← isMark ";" then pure [← emptyPart]
    else
      let test ← enclosed (rules .expressions)
      pure [test, ← mark ";"]
  let step ← do
    if ← isMark ")" then pure [] else pure [← enclosed (rules .expressions)]
  return opening :: first ++ test ++ step ++ [← mark ")"]

/-- A loop of either kind. -/
def forStatement (rules : Rules) : Parser Node := do
  let forWord ← word "for"
  let awaitWord ← word? "await"
  match ← attempt? (rangeHead rules) with
  | some head =>
    let source ← enclosed (rules .expressions)
    let closing ← mark ")"
    let body ← rules .statement
    return Node.branch .forInStatement
      (forWord :: awaitWord ++ head ++ [source, closing, body.inRole .body])
  | none =>
    let head ← stepHead rules
    return Node.branch .forStatement (forWord :: head ++ [(← rules .statement).inRole .body])

/-! ### Cases and failures -/

/-- The token ends the statements of a case. -/
def endsCase (a : Ahead) : Bool := a = .word "case" || a = .word "default" || a = .mark "\x7d"

/-- One case of a switch. -/
def switchCase (rules : Rules) : Parser Node := do
  if ← isWord "default" then
    let defaultWord ← word "default"
    let colon ← mark ":"
    return Node.branch .switchDefault (defaultWord :: colon :: (← statementsUntil rules endsCase))
  else
    let caseWord ← word "case"
    let value ← enclosed (rules .expressions)
    let colon ← mark ":"
    return Node.branch .switchCase
      ([caseWord, value.inRole .value, colon] ++ (← statementsUntil rules endsCase))

/-- A choice between cases. -/
def switchStatement (rules : Rules) : Parser Node := do
  let switchWord ← word "switch"
  let value ← condition rules
  let opening ← mark "\x7b"
  let cases ← untilMark "\x7d" do return [← switchCase rules]
  let body := Node.branch .switchBody (opening :: cases ++ [← mark "\x7d"])
  return Node.branch .switchStatement [switchWord, value.inRole .value, body.inRole .body]

/-- What is done with a failure. -/
def catchClause (rules : Rules) : Parser Node := do
  let catchWord ← word "catch"
  let parameter ← do
    if ← isMark "(" then
      bracketed "(" ")" do
        let parameter ← binding rules
        return parameter.inRole .parameter :: (← typeAscription? rules)
    else pure []
  let body ← rules (.block .other)
  return Node.branch .catchClause (catchWord :: parameter ++ [body.inRole .body])

/-- What is done in any case. -/
def finallyClause (rules : Rules) : Parser Node := do
  let finallyWord ← word "finally"
  return Node.branch .finallyClause [finallyWord, (← rules (.block .other)).inRole .body]

/-- Statements whose failures are caught. -/
def tryStatement (rules : Rules) : Parser Node := do
  let tryWord ← word "try"
  let body ← rules (.block .other)
  let handler ← do if ← isWord "catch" then pure [← catchClause rules] else pure []
  let finalizer ← do if ← isWord "finally" then pure [← finallyClause rules] else pure []
  require (!(handler ++ finalizer).isEmpty)
  return Node.branch .tryStatement (tryWord :: body.inRole .body :: handler ++ finalizer)

/-! ### Simple statements -/

/-- Expressions in place of a statement. -/
def expressionStatement (rules : Rules) : Parser Node := do
  let node ← Parser.ending (rules .expressions)
  terminated .expressionStatement .expression [node]

/-- A word with a value behind it, unless the line ends there. -/
def valueStatement (rules : Rules) (c : Construct) (w : String) : Parser Node := do
  let first ← word w
  if ← applies (terminator .other) then terminated c .other [first]
  else
    let value ← Parser.ending (rules .expressions)
    terminated c .expression [first, value]

/-- A word with a label behind it, unless the line ends there. -/
def labelStatement (c : Construct) (w : String) : Parser Node := do
  let first ← word w
  if ← applies (terminator .other) then terminated c .other [first]
  else
    let label ← name .statementIdentifier
    terminated c .other [first, label]

/-- A statement with a label. -/
def labeledStatement (rules : Rules) : Parser Node := do
  let label ← name .statementIdentifier
  let colon ← mark ":"
  return Node.branch .labeledStatement [label, colon, (← rules .statement).inRole .body]

/-- Statements in which the members of a value are names. -/
def withStatement (rules : Rules) : Parser Node := do
  let withWord ← word "with"
  let value ← condition rules
  return Node.branch .withStatement [withWord, value, (← rules .statement).inRole .body]

/-! ### Typed declarations -/

/-- An interface. -/
def interfaceDeclaration (rules : Rules) : Parser Node := do
  let interfaceWord ← word "interface"
  let own ← name .typeIdentifier
  let generic ← typeParameters? rules
  let extended ← do
    if ← isWord "extends" then
      let extendsWord ← word "extends"
      let types ← commaSeparated do return [← typeReference rules]
      pure [Node.branch .extendsTypeClause (extendsWord :: types)]
    else pure []
  let body ← objectType rules .interfaceBody
  return Node.branch .interfaceDeclaration
    (interfaceWord :: own.inRole .name :: generic ++ extended ++ [body.inRole .body])

/-- Another name for a type. -/
def typeAlias (rules : Rules) : Parser Node := do
  let typeWord ← word "type"
  let own ← name .typeIdentifier
  let generic ← typeParameters? rules
  let equals ← mark "="
  let value ← Parser.ending (rules .type)
  terminated .typeAliasDeclaration .other
    (typeWord :: own.inRole .name :: generic ++ [equals, value.inRole .value])

/-- A member of an enumeration. -/
def enumMember (rules : Rules) : Parser Node := do
  let key ← propertyName rules
  if ← isMark "=" then
    return Node.branch .enumAssignment (key.inRole .name :: (← initializer rules))
  return key.inRole .name

/-- An enumeration. -/
def enumDeclaration (rules : Rules) : Parser Node := do
  let constWord ← word? "const"
  let enumWord ← word "enum"
  let own ← name .identifier
  let members ← bracketed "\x7b" "\x7d" (commaList "\x7d" do return [← enumMember rules])
  return Node.branch .enumDeclaration
    (constWord ++ [enumWord, own.inRole .name, (Node.branch .enumBody members).inRole .body])

/-- The name of a module and its body. -/
def moduleRest (rules : Rules) (before : Ending) : Parser (List Node) := do
  let own ← do if ← isStringAhead then string else nestedName (← name .identifier)
  if ← isMark "\x7b" then
    return [own.inRole .name, (← rules (.block before)).inRole .body]
  return [own.inRole .name]

/-- A module inside a module. -/
def internalModule (rules : Rules) (before : Ending) : Parser Node := do
  let namespaceWord ← word "namespace"
  return Node.branch .internalModule (namespaceWord :: (← moduleRest rules before))

/-- A module that is named as a whole. -/
def moduleDeclaration (rules : Rules) : Parser Node := do
  let moduleWord ← word "module"
  return Node.branch .moduleDeclaration (moduleWord :: (← moduleRest rules .other))

/-- The declarations that only a dialect with types has. -/
inductive TypedDeclaration where
  | interface | alias | enumeration | internalModule | module | abstractClass | ambient
deriving DecidableEq, Repr

/-- The typed declaration that the next two tokens start. -/
def typedDeclarationAhead : Parser (Option TypedDeclaration) := do
  if !(← typed) then return none
  match ← ahead, ← second with
  | .word w, .word next =>
    match w with
    | "interface" => return if isFree next then some .interface else none
    | "type" => return if isFree next then some .alias else none
    | "enum" => return if isFree next then some .enumeration else none
    | "const" => return if next = "enum" then some .enumeration else none
    | "namespace" => return if isFree next then some .internalModule else none
    | "module" => return if isFree next then some .module else none
    | "abstract" => return if next = "class" then some .abstractClass else none
    | "declare" => return some .ambient
    | _ => return none
  | .word w, .mark m =>
    if (w = "module" || w = "namespace") && (m = "\"" || m = "'") then return some .module
    return none
  | _, _ => return none

/-- A declaration, as it may stand behind `export` or `declare`. -/
def declaration (rules : Rules) (ambient : Parser Node) (decorating : List Node) :
    Parser Node := do
  match ← typedDeclarationAhead with
  | some .interface => interfaceDeclaration rules
  | some .alias => typeAlias rules
  | some .enumeration => enumDeclaration rules
  | some .internalModule => internalModule rules .other
  | some .module => moduleDeclaration rules
  | some .abstractClass => classDeclaration rules decorating
  | some .ambient => ambient
  | none =>
    if ← isFunctionAhead then return ← functionDeclaration rules
    match ← ahead with
    | .word w =>
      if w = "class" then classDeclaration rules decorating
      else if w = "var" || w = "const" || w = "let" then variableDeclaration rules
      else refuse
    | _ => refuse

/-- A declaration of something that exists elsewhere. -/
def ambientDeclaration (rules : Rules) : Parser Node := do
  let declareWord ← word "declare"
  if (← isWord "global") && (← second) = .mark "\x7b" then
    let globalWord ← word "global"
    return Node.branch .ambientDeclaration [declareWord, globalWord, ← rules (.block .other)]
  return Node.branch .ambientDeclaration [declareWord, ← declaration rules refuse []]

end Parser

end ScriptRefactor.Grammar
