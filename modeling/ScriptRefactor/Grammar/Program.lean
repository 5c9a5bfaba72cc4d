import ScriptRefactor.Grammar.Statement

/-!
# `ScriptRefactor.Grammar.Program`: imports, exports and whole modules

`parse` reads a module: it gives the tree of a text, with its
comments in place and its nodes numbered, or the byte position of the
first thing that fits no rule.

The rules for the goals are closed here by recursion on a number that
bounds how deep goals nest. Between two goals in a chain at most a
few read nothing, so a multiple of the length of the text is always
enough.

A comment belongs to the smallest construct that starts in front of
it and does not end before it.
-/

set_option autoImplicit false

namespace ScriptRefactor.Grammar

open Syntax

namespace Parser

/-! ### Imports -/

/-- A name in the list of an import or an export: any word, or a
string. The word `default` stays a token. -/
def listedName : Parser Node := do
  if ← isStringAhead then return ← string
  match ← ahead with
  | .word "default" => word "default"
  | _ => anyName .identifier

/-- The word `type` in front of what is imported or exported as a
type. It is a name itself if a comma, a brace, `from` or `as` makes
it one. -/
def typeMarker? : Parser (List Node) := do
  if !(← typed) then return []
  match ← ahead with
  | .word w =>
    if w ≠ "type" && w ≠ "typeof" then return []
    match ← second with
    | .word next => if next = "from" || next = "as" then return [] else return [← word w]
    | .mark m => if ["\x7b", "*", "\"", "'"].contains m then return [← word w] else return []
    | _ => return []
  | _ => return []

/-- One imported name. -/
def importSpecifier : Parser Node := do
  let marker ← typeMarker?
  let own ← listedName
  if ← isWord "as" then
    let asWord ← word "as"
    let renamed ← name .identifier
    return Node.branch .importSpecifier
      (marker ++ [own.inRole .name, asWord, renamed.inRole .alias])
  require (own.is .identifier && isFree own.lexeme)
  return Node.branch .importSpecifier (marker ++ [own.inRole .name])

/-- Imported names in braces. -/
def namedImports : Parser Node := do
  return Node.branch .namedImports
    (← bracketed "\x7b" "\x7d" (commaList "\x7d" do return [← importSpecifier]))

/-- The import of a whole module under one name. -/
def namespaceImport : Parser Node := do
  let star ← mark "*"
  let asWord ← word "as"
  return Node.branch .namespaceImport [star, asWord, ← name .identifier]

/-- A list or a whole module. -/
def importedNames : Parser Node := do
  if ← isMark "*" then namespaceImport else namedImports

/-- What an import brings in. -/
def importClause : Parser Node := do
  if ← isNameAhead then
    let own ← name .identifier
    if ← isMark "," then
      let comma ← mark ","
      return Node.branch .importClause [own, comma, ← importedNames]
    return Node.branch .importClause [own]
  return Node.branch .importClause [← importedNames]

/-- The module that names come from. -/
def fromClause : Parser (List Node) := do
  let fromWord ← word "from"
  return [fromWord, (← string).inRole .source]

/-- The attributes of an import. -/
def importAttribute? (rules : Rules) : Parser (List Node) := do
  let hasTypes ← typed
  match ← ahead with
  | .word w =>
    if w = "with" || (hasTypes && w = "assert") then
      let first ← word w
      return [Node.branch .importAttribute [first, ← enclosed (objectLiteral rules)]]
    return []
  | _ => return []

/-- The import of a module by a call, of a typed dialect. -/
def requireClause : Parser Node := do
  let own ← name .identifier
  let equals ← mark "="
  let requireWord ← word "require"
  let list ← bracketed "(" ")" do return [(← string).inRole .source]
  return Node.branch .importRequireClause ([own, equals, requireWord] ++ list)

/-- Another name for a part of a module. -/
def importAlias (importWord : Node) : Parser Node := do
  let own ← name .identifier
  let equals ← mark "="
  let whole ← nestedName (← name .identifier)
  terminated .importAlias .other [importWord, own, equals, whole]

/-- An import. -/
def importStatement (rules : Rules) : Parser Node := do
  let importWord ← word "import"
  if ← isStringAhead then
    let source ← string
    let attributes ← importAttribute? rules
    return ← terminated .importStatement .other
      (importWord :: source.inRole .source :: attributes)
  let marker ← typeMarker?
  if (← typed) && (← isNameAhead) && (← second) = .mark "=" then
    match ← attempt? requireClause with
    | some clause => terminated .importStatement .other (importWord :: marker ++ [clause])
    | none => importAlias importWord
  else
    let clause ← importClause
    let source ← fromClause
    let attributes ← importAttribute? rules
    terminated .importStatement .other (importWord :: marker ++ clause :: source ++ attributes)

/-! ### Exports -/

/-- One exported name. -/
def exportSpecifier : Parser Node := do
  let marker ← typeMarker?
  let own ← listedName
  if ← isWord "as" then
    let asWord ← word "as"
    let renamed ← listedName
    return Node.branch .exportSpecifier
      (marker ++ [own.inRole .name, asWord, renamed.inRole .alias])
  return Node.branch .exportSpecifier (marker ++ [own.inRole .name])

/-- Exported names in braces. -/
def exportClause : Parser Node := do
  return Node.branch .exportClause
    (← bracketed "\x7b" "\x7d" (commaList "\x7d" do return [← exportSpecifier]))

/-- The export of all names of a module, under one name or each under
its own. -/
def exportAll : Parser (List Node) := do
  let star ← mark "*"
  if ← isWord "as" then
    let asWord ← word "as"
    return [Node.branch .namespaceExport [star, asWord, ← listedName]]
  return [star]

/-- What a module exports by default. -/
def defaultExport (rules : Rules) (front : List Node) (decorating : List Node) :
    Parser Node := do
  let defaultWord ← word "default"
  let front := front ++ [defaultWord]
  let decorated ← decorators rules
  let declared ← attempt? do
    let next ← typedDeclarationAhead
    require ((← isFunctionAhead) || (← isWord "class") || next = some .abstractClass
      || next = some .interface)
    declaration rules refuse (decorating ++ decorated)
  match declared with
  | some node => return Node.branch .exportStatement (front ++ [node.inRole .declaration])
  | none =>
    let value ← Parser.ending (rules .expression)
    terminated .exportStatement .expression (front ++ [value.inRole .value])

/-- An export, behind its decorators. -/
def exportStatement (rules : Rules) (decorating : List Node) : Parser Node := do
  let exportWord ← word "export"
  let front := decorating ++ [exportWord]
  match ← ahead with
  | .mark "*" =>
    let all ← exportAll
    terminated .exportStatement .other (front ++ all ++ (← fromClause))
  | .mark "\x7b" =>
    let clause ← exportClause
    let source ← do if ← isWord "from" then fromClause else pure []
    terminated .exportStatement .other (front ++ clause :: source)
  | .mark "=" =>
    require (← typed)
    let equals ← mark "="
    let value ← Parser.ending (rules .expression)
    terminated .exportStatement .expression (front ++ [equals, value])
  | .word "default" => defaultExport rules front []
  | .word w =>
    let hasTypes ← typed
    let next ← second
    if hasTypes && w = "type" && (next = .mark "\x7b" || next = .mark "*") then
      let typeWord ← word "type"
      let what ← do if next = .mark "*" then exportAll else pure [← exportClause]
      let source ← do if ← isWord "from" then fromClause else pure []
      return ← terminated .exportStatement .other (front ++ typeWord :: what ++ source)
    if hasTypes && w = "as" && next = .word "namespace" then
      let asWord ← word "as"
      let namespaceWord ← word "namespace"
      return ← terminated .exportStatement .other
        (front ++ [asWord, namespaceWord, ← name .identifier])
    if hasTypes && w = "import" then
      let importWord ← word "import"
      let declared ← importAlias importWord
      return Node.branch .exportStatement (front ++ [declared.inRole .declaration])
    let declared ← declaration rules (ambientDeclaration rules) []
    return Node.branch .exportStatement (front ++ [declared.inRole .declaration])
  | .mark "@" =>
    let decorated ← decorators rules
    let declared ← declaration rules refuse decorated
    return Node.branch .exportStatement (front ++ [declared.inRole .declaration])
  | _ => refuse

/-! ### Statements -/

/-- A statement that starts with a word. -/
def wordStatement (rules : Rules) (w : String) : Parser Node := do
  match ← typedDeclarationAhead with
  | some .internalModule =>
    let inside ← internalModule rules .expression
    return ← terminated .expressionStatement .expression [inside]
  | some _ => return ← declaration rules (ambientDeclaration rules) []
  | none => pure ()
  if (← isFunctionAhead) then return ← functionDeclaration rules
  match w with
  | "import" =>
    match ← second with
    | .mark m => if m = "(" || m = "." then expressionStatement rules else importStatement rules
    | _ => importStatement rules
  | "export" => exportStatement rules []
  | "var" | "const" => variableDeclaration rules
  | "let" => if ← declaresAhead then variableDeclaration rules else expressionStatement rules
  | "class" => classDeclaration rules []
  | "if" => ifStatement rules
  | "for" => forStatement rules
  | "while" => whileStatement rules
  | "do" => doStatement rules
  | "switch" => switchStatement rules
  | "try" => tryStatement rules
  | "with" => withStatement rules
  | "break" => labelStatement .breakStatement "break"
  | "continue" => labelStatement .continueStatement "continue"
  | "return" => valueStatement rules .returnStatement "return"
  | "throw" =>
    let throwWord ← word "throw"
    let value ← Parser.ending (rules .expressions)
    terminated .throwStatement .expression [throwWord, value]
  | "debugger" => terminated .debuggerStatement .other [← word "debugger"]
  | _ =>
    if isFree w && (← second) = .mark ":" then labeledStatement rules
    else expressionStatement rules

/-- A class or an export behind decorators. -/
def decoratedStatement (rules : Rules) : Parser Node := do
  let decorating ← decorators rules
  if ← isWord "export" then
    let exportWord ← word "export"
    let front := decorating ++ [exportWord]
    if ← isWord "default" then defaultExport rules front []
    else
      let declared ← classDeclaration rules []
      return Node.branch .exportStatement (front ++ [declared.inRole .declaration])
  else classDeclaration rules decorating

/-- A statement. -/
def statement (rules : Rules) : Parser Node := do
  match ← ahead with
  | .word w => wordStatement rules w
  | .mark m =>
    if m = "\x7b" then either (rules (.block .other)) (expressionStatement rules)
    else if m = ";" then emptyPart
    else if m = "@" then decoratedStatement rules
    else expressionStatement rules
  | _ => expressionStatement rules

/-! ### The rules -/

/-- The rule for each goal, given the rules for the goals inside. -/
def rule (rules : Rules) : Goal → Parser Node
  | .statement => Parser.ending (statement rules)
  | .block before => block rules before
  | .expression => expression rules
  | .expressions => expressions rules
  | .operand power => operand rules power
  | .access => access rules
  | .binding => binding rules
  | .target => target rules
  | .type => type rules
  | .markup => markup rules
  | .classBody => classBody rules

/-- The rules for goals that nest at most `depth` deep. -/
def rulesTo : Nat → Rules
  | 0 => fun _ => refuse
  | depth + 1 => rule (rulesTo depth)

/-- A line at the very front that names an interpreter. -/
def interpreterLine? : Parser (List Node) := do
  match ← remaining with
  | '#' :: '!' :: _ =>
    return [← leaf (.construct .hashBangLine) ((← remaining).takeWhile (!isLineEnd ·))]
  | _ => return []

/-- The text starts with a mark that closes a bracket. -/
def closesBracket (cs : List Char) : Bool :=
  cs.head?.any fun c => c = ')' || c = ']' || c = '\x7d'

/-- A refusal of the rule is reported at the next token, where the
rule starts. Only a closing bracket that nothing has opened is
reported where it stands. -/
def reportedAtStart {α : Type} (p : Parser α) : Parser α := fun s r =>
  match p s r with
  | .ok a => .ok a
  | .error pos =>
    match Text.cutAt? r.rest (pos - r.pos) with
    | some (_, rest) => .error (if closesBracket rest then pos else r.skip.pos)
    | none => .error r.skip.pos

/-- The first statement of a module. -/
def firstStatement : Parser Node := do
  let _ ← interpreterLine?
  rulesTo (32 * ((← remaining).length + 4)) .statement

/-- The statements of a module, up to its end. -/
def statements : Parser (List Node) := do
  let rules := rulesTo (32 * ((← remaining).length + 4))
  let first ← interpreterLine?
  let rest ← untilAhead (· = .finished) do return [← reportedAtStart (rules .statement)]
  skipBlanks
  return first ++ rest

/-- Passes over the next token, or over a character that starts
none. -/
def passToken : Parser Unit := do
  skipBlanks
  match ← ahead, ← remaining with
  | .word w, _ => pass w.toList
  | .mark m, _ => pass m.toList
  | _, c :: _ => pass [c]
  | _, [] => pure ()

/-- The statements that can be read. A token where no statement starts
is passed over. -/
def readableStatements : Parser (List Node) := do
  let rules := rulesTo (32 * ((← remaining).length + 4))
  let first ← interpreterLine?
  let rest ← untilAhead (· = .finished) do
    match ← attempt? (rules .statement) with
    | some n => return [n]
    | none => do passToken; return []
  skipBlanks
  return first ++ rest

end Parser

/-! ### Comments in the tree -/

/-- The node belongs in front of the other. -/
def isBefore (a b : Node) : Bool := a.start < b.start

/-- Two lists of nodes in text order as one. -/
def mergeNodes : List Node → List Node → List Node
  | [], bs => bs
  | a :: as, bs =>
    bs.takeWhile (isBefore · a) ++ a :: mergeNodes as (bs.dropWhile (isBefore · a))

/-- The comment lies inside the span of the node. -/
def holds (n comment : Node) : Bool :=
  n.start < comment.start && comment.stop ≤ n.stop && !n.children.isEmpty

mutual

/-- The tree with the comments put into it that lie inside. -/
def withComments (comments : List Node) : Node → Node
  | .mk l cs =>
    let own := comments.filter fun c => !(cs.any fun n => holds n c)
    .mk l (mergeNodes (childrenWithComments comments cs) own)

/-- Each tree with the comments that lie inside it. -/
def childrenWithComments (comments : List Node) : List Node → List Node
  | [] => []
  | n :: ns => withComments (comments.filter (holds n ·)) n :: childrenWithComments comments ns

end

/-! ### A module -/

/-- The tree that a rule for the parts of a module gives, or the byte
position where the rule refuses. -/
def parseWith (parts : Parser (List Node)) (dialect : Dialect) (text : String) : Except Nat Node :=
  match parts.runAt ⟨dialect, true, true, true⟩ ⟨text.toList, 0, []⟩ with
  | .error pos => .error pos
  | .ok (nodes, r) =>
    let all := mergeNodes nodes r.comments.reverse
    let start := (all.head?.map Node.start).getD r.pos
    let program : Node := .mk ⟨0, .construct .program, none, ⟨start, r.pos⟩, ""⟩ nodes
    .ok (withComments r.comments.reverse program).numbered

/-- The tree of a module, or the byte position where no rule
applies. -/
def parse : Dialect → String → Except Nat Node := parseWith Parser.statements

/-- The tree of the statements of a text that can be read. -/
def parseReadable : Dialect → String → Except Nat Node := parseWith Parser.readableStatements

/-- The text ends inside its first statement. -/
def breaksOff (dialect : Dialect) (text : String) : Bool :=
  match Parser.firstStatement.runAt ⟨dialect, true, true, true⟩ ⟨text.toList, 0, []⟩ with
  | .error pos => !text.isEmpty && (Text.cutBefore text.toList pos).2.all isBlank
  | .ok _ => false

end ScriptRefactor.Grammar
