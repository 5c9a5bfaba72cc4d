import ScriptRefactor.Scope.Basic

/-!
# `ScriptRefactor.Scope.Build`: the scopes of a syntax tree

`Scopes.ofTree` walks a syntax tree once, in document order. A
construct that opens a scope is walked inside it; the names that a
construct declares are declared before its children are walked, so
a name may be used in front of its declaration.

* Functions, methods, classes, class bodies, blocks, the bodies of
  switches, loops and handlers open a scope. So do the words
  `function` and `class` themselves, whose scope stays empty.
* The name of a declared function or class belongs to the scope
  around it, the name of one that is a value to its own scope.
* A declaration with `var` goes to the nearest function.
* The names inside an import are not walked: of each imported name
  only the local one is declared. Exported names of another module
  are not walked either, nor are the new names of an export.
-/

set_option autoImplicit false

namespace ScriptRefactor

open Syntax

namespace Scopes

/-- The children of a pattern that hold the names it binds. -/
inductive Part where
  /-- All constructs among the children. -/
  | all
  /-- The first construct among the children. -/
  | first
  /-- The first child in a role. -/
  | inRole (role : Role)
deriving DecidableEq, Repr

/-- Where a pattern of this kind holds the names it binds. -/
def partOf? : Construct → Option Part
  | .objectPattern | .arrayPattern | .formalParameters => some .all
  | .pairPattern => some (.inRole .value)
  | .assignmentPattern | .objectAssignmentPattern => some (.inRole .left)
  | .restPattern => some .first
  | .requiredParameter | .optionalParameter => some (.inRole .pattern)
  | _ => none

mutual

/-- Declares the names that a pattern binds. -/
def declarePattern (t : Scopes) (scope : Nat) (kind : BindingKind) : Node → Scopes
  | .mk l cs =>
    match l.kind with
    | .construct .identifier | .construct .shorthandPropertyIdentifierPattern =>
      t.declare (.mk l cs) scope kind
    | .construct c =>
      match partOf? c with
      | some part => declareParts t scope kind part cs
      | none => t
    | .token _ => t

/-- Declares the names in the chosen ones of some nodes. -/
def declareParts (t : Scopes) (scope : Nat) (kind : BindingKind) (part : Part) :
    List Node → Scopes
  | [] => t
  | n :: ns =>
    match part with
    | .all =>
      declareParts (if n.isNamed then declarePattern t scope kind n else t) scope kind part ns
    | .first =>
      if n.isNamed then declarePattern t scope kind n else declareParts t scope kind part ns
    | .inRole role =>
      if n.label.role = some role then declarePattern t scope kind n
      else declareParts t scope kind part ns

end

/-- Declares the names in a child, if there is such a child. -/
def declareChild (t : Scopes) (scope : Nat) (kind : BindingKind) (n : Node) (role : Role) :
    Scopes :=
  match n.child? role with
  | some child => t.declarePattern scope kind child
  | none => t

/-- Declares the parameters of a function. -/
def declareParameters (t : Scopes) (scope : Nat) (n : Node) : Scopes :=
  (t.declareChild scope .parameter n .parameters).declareChild scope .parameter n .parameter

/-- Declares the name of a construct. -/
def declareName (t : Scopes) (scope : Nat) (kind : BindingKind) (n : Node) : Scopes :=
  match n.child? .name with
  | some own => t.declare own scope kind
  | none => t

/-- Declares the variables of a declaration. -/
def declareVariables (t : Scopes) (scope : Nat) (kind : BindingKind) (n : Node) : Scopes :=
  (n.childrenOf .variableDeclarator).foldl (fun t d => t.declareChild scope kind d .name) t

/-- The local name that a part of an import declares. -/
def importedName? (n : Node) : Option Node :=
  match n.kind with
  | .construct .importClause => n.firstNamed?.filter (·.is .identifier)
  | .construct .namespaceImport => n.firstNamed?
  | .construct .importSpecifier => (n.child? .alias).or (n.child? .name)
  | _ => none

/-- Declares the local names of an import. -/
def declareImports (t : Scopes) (scope : Nat) (n : Node) : Scopes :=
  (n.preorder.filterMap importedName?).foldl (fun t own => t.declare own scope .imported) t

/-- Declares what a loop runs over, if its head declares it. -/
def declareLoop (t : Scopes) (inner outer : Nat) (n : Node) : Scopes :=
  match n.child? .kind, n.child? .left with
  | some word, some left =>
    if word.lexeme = "var" then t.declarePattern (t.hoist outer) .var left
    else t.declarePattern inner (if word.lexeme = "const" then .const else .let) left
  | _, _ => t

/-- The children of a node that are walked. -/
inductive Walked where
  /-- No child. -/
  | nothing
  /-- All children. -/
  | all
  /-- The first child in a role. -/
  | only (role : Role)
deriving DecidableEq, Repr

/-- What happens when a node is reached from a scope. -/
structure Step where
  /-- The scopes, with what the node declares and opens. -/
  scopes : Scopes
  /-- The scope that the children are walked in. -/
  inner : Nat
  /-- The children that are walked. -/
  walked : Walked

/-- All children are walked in the given scope. -/
def Step.within (scopes : Scopes) (inner : Nat) : Step := ⟨scopes, inner, .all⟩

/-- Declares and opens what a node declares and opens. -/
def enter (t : Scopes) (scope : Nat) (n : Node) : Step :=
  let opened (t : Scopes) (kind : ScopeKind) : Scopes × Nat := t.openScope kind n.span (some scope)
  match n.kind with
  | .token "function" =>
    let (t, inner) := opened t .function
    .within t inner
  | .token "class" =>
    let (t, inner) := opened t .classBody
    .within t inner
  | .token _ => .within t scope
  | .construct c =>
    match c with
    | .functionDeclaration | .generatorFunctionDeclaration =>
      let (t, inner) := opened (t.declareName scope .function n) .function
      .within (t.declareParameters inner n) inner
    | .functionExpression | .generatorFunction =>
      let (t, inner) := opened t .function
      .within ((t.declareName inner .function n).declareParameters inner n) inner
    | .arrowFunction | .methodDefinition =>
      let (t, inner) := opened t .function
      .within (t.declareParameters inner n) inner
    | .classDeclaration | .abstractClassDeclaration =>
      let (t, inner) := opened (t.declareName scope .classLike n) .classBody
      .within t inner
    | .classExpression =>
      let (t, inner) := opened t .classBody
      .within (t.declareName inner .classLike n) inner
    | .lexicalDeclaration =>
      let constant := (n.child? .kind).any (·.lexeme = "const")
      .within (t.declareVariables scope (if constant then .const else .let) n) scope
    | .variableDeclaration => .within (t.declareVariables (t.hoist scope) .var n) scope
    | .statementBlock | .switchBody =>
      let (t, inner) := opened t .block
      .within t inner
    | .classBody =>
      let (t, inner) := opened t .classBody
      .within t inner
    | .forStatement | .forInStatement =>
      let (t, inner) := opened t .loop
      .within (t.declareLoop inner scope n) inner
    | .catchClause =>
      let (t, inner) := opened t .handler
      .within (t.declareChild inner .caught n .parameter) inner
    | .importStatement => ⟨t.declareImports scope n, scope, .nothing⟩
    | .exportStatement => ⟨t, scope, if (n.child? .source).isSome then .nothing else .all⟩
    | .exportSpecifier => ⟨t, scope, .only .name⟩
    | .interfaceDeclaration | .typeAliasDeclaration | .enumDeclaration =>
      .within (t.declareName scope .type n) scope
    | _ => if c.isName then ⟨t.place n.id scope, scope, .nothing⟩ else .within t scope

mutual

/-- Walks a node in a scope. -/
def walk (t : Scopes) (scope : Nat) : Node → Scopes
  | .mk l cs =>
    let step := t.enter scope (.mk l cs)
    match step.walked with
    | .nothing => step.scopes
    | .all => walkAll step.scopes step.inner cs
    | .only role => walkOnly step.scopes step.inner role cs

/-- Walks some nodes in a scope, one after the other. -/
def walkAll (t : Scopes) (scope : Nat) : List Node → Scopes
  | [] => t
  | n :: ns => walkAll (walk t scope n) scope ns

/-- Walks the first of some nodes that plays a role. -/
def walkOnly (t : Scopes) (scope : Nat) (role : Role) : List Node → Scopes
  | [] => t
  | n :: ns =>
    if n.label.role = some role then walk t scope n else walkOnly t scope role ns

end

/-- The scopes of a module. -/
def ofTree (root : Node) : Scopes :=
  let (t, program) := (⟨[], []⟩ : Scopes).openScope .program root.span none
  t.walkAll program root.children

end Scopes

end ScriptRefactor
