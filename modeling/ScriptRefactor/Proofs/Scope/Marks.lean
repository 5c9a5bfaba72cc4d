import ScriptRefactor.Proofs.Syntax.Nodes
import ScriptRefactor.Scope.Build

/-!
# `ScriptRefactor.Proofs.Scope.Marks`: the walk of a tree as a list of marks

A walk opens scopes, declares names in them and places the other
names. Each of these is a `Mark`, and a walk leaves behind the scopes
with its marks made (`walk_eq_marked`).

* `entry` is what a node says about itself when it is reached: the
  names that it declares around itself, inside itself and in the
  nearest function, the scope that it opens, and which of its children
  are walked. It is read off the node alone (`enter_eq_marked`).
* `walkMarks` puts the marks of all walked nodes together. Of the
  scopes it only asks for their number and for the nearest function,
  not for any name declared so far.
-/

set_option autoImplicit false

namespace ScriptRefactor

open Syntax

/-- One change of the scopes during a walk. -/
inductive Mark where
  /-- A scope was opened. -/
  | opened (parent? : Option Nat) (kind : ScopeKind) (span : Span)
  /-- A name was declared in a scope. -/
  | declared (b : Binding) (scope : Nat)
  /-- A name that declares nothing was met in a scope. -/
  | placed (node scope : Nat)

/-- The declaration that a name makes. -/
def Syntax.Node.binding (n : Node) (kind : BindingKind) : Binding :=
  ⟨n.lexeme, n.id, n.span, kind⟩

namespace Scopes

/-! ### Marks -/

/-- The scopes with a mark made. -/
def mark (t : Scopes) : Mark → Scopes
  | .opened parent? kind span => (t.openScope kind span parent?).1
  | .declared b scope =>
    { scopes := t.scopes.modify scope (·.add b), places := (b.node, scope) :: t.places }
  | .placed node scope => t.place node scope

/-- The scopes with some marks made, one after the other. -/
def marked (t : Scopes) (ms : List Mark) : Scopes := ms.foldl mark t

/-- No mark changes nothing. -/
@[simp]
theorem marked_nil (t : Scopes) : t.marked [] = t := rfl

/-- The first mark, and then the others. -/
theorem marked_cons (t : Scopes) (m : Mark) (ms : List Mark) :
    t.marked (m :: ms) = (t.mark m).marked ms := rfl

/-- Some marks, and then the others. -/
theorem marked_append (t : Scopes) (ms ms' : List Mark) :
    t.marked (ms ++ ms') = (t.marked ms).marked ms' := List.foldl_append

/-- The marks of nodes that are to declare their texts in a scope; only
names do. -/
def declaring (scope : Nat) (ns : List (BindingKind × Node)) : List Mark :=
  (ns.filter fun p => p.2.kind.isName).map fun p => .declared (p.2.binding p.1) scope

/-- No nodes declare nothing. -/
@[simp]
theorem declaring_nil (scope : Nat) : declaring scope [] = [] := rfl

/-- Some nodes, and then the others. -/
theorem declaring_append (scope : Nat) (ns ns' : List (BindingKind × Node)) :
    declaring scope (ns ++ ns') = declaring scope ns ++ declaring scope ns' := by
  rw [declaring, List.filter_append, List.map_append]
  rfl

/-- Declarations open no scope. -/
theorem length_marked_declaring (t : Scopes) (scope : Nat) (ns : List (BindingKind × Node)) :
    (t.marked (declaring scope ns)).scopes.length = t.scopes.length := by
  unfold declaring
  induction ns.filter fun p => p.2.kind.isName generalizing t with
  | nil => rfl
  | cons p ns ih =>
      rw [List.map_cons, marked_cons, ih]
      exact List.length_modify ..

/-! ### What a node declares -/

/-- Some nodes, all declared in the same way. -/
def allAs (kind : BindingKind) (ns : List Node) : List (BindingKind × Node) := ns.map (kind, ·)

mutual

/-- The names that a pattern binds. -/
def patternNames : Node → List Node
  | .mk l cs =>
    match l.kind with
    | .construct .identifier | .construct .shorthandPropertyIdentifierPattern => [.mk l cs]
    | .construct c =>
      match partOf? c with
      | some part => partNames part cs
      | none => []
    | .token _ => []

/-- The names in the chosen ones of some nodes. -/
def partNames (part : Part) : List Node → List Node
  | [] => []
  | n :: ns =>
    match part with
    | .all => (if n.isNamed then patternNames n else []) ++ partNames part ns
    | .first => if n.isNamed then patternNames n else partNames part ns
    | .inRole role => if n.label.role = some role then patternNames n else partNames part ns

end

/-- The names in the pattern that plays a role. -/
def namesIn (n : Node) (role : Role) : List Node := (n.child? role).toList.flatMap patternNames

/-- The name of a construct. -/
def ownName (n : Node) : List Node := (n.child? .name).toList

/-- The parameters of a function. -/
def parameterNames (n : Node) : List Node := namesIn n .parameters ++ namesIn n .parameter

/-- The variables of a declaration. -/
def variableNames (n : Node) : List Node :=
  (n.childrenOf .variableDeclarator).flatMap (namesIn · .name)

/-- The local names of an import. -/
def importedNames (n : Node) : List Node := n.preorder.filterMap importedName?

/-- The local names of a part of an import, and those below. -/
theorem importedNames_eq (n : Node) :
    importedNames n = (importedName? n).toList ++ n.children.flatMap importedNames := by
  rw [importedNames, Node.preorder_eq, List.filterMap_cons, List.filterMap_flatMap]
  cases importedName? n <;> rfl

/-- How the word in the head of a loop declares. -/
def loopKind (word : Node) : BindingKind :=
  if word.lexeme = "var" then .var else if word.lexeme = "const" then .const else .let

/-- What the head of a loop declares. -/
def loopNames (n : Node) : List (BindingKind × Node) :=
  (n.child? .kind).toList.flatMap fun word => allAs (loopKind word) (namesIn n .left)

/-- What happens when a node is reached, as far as the node alone tells. -/
structure Entry where
  /-- What is declared in the scope that the node stands in. -/
  around : List (BindingKind × Node) := []
  /-- The scope that the node opens. -/
  opens? : Option ScopeKind := none
  /-- What is declared in the scope that the node opens. -/
  inside : List (BindingKind × Node) := []
  /-- What is declared in the nearest function. -/
  hoisted : List (BindingKind × Node) := []
  /-- The node is a name, and is looked up from the scope it stands in. -/
  places : Bool := false
  /-- The children that are walked. -/
  walked : Walked := .all

/-- What happens when a node is reached. -/
def entry (n : Node) : Entry :=
  match n.kind with
  | .token "function" => { opens? := some .function }
  | .token "class" => { opens? := some .classBody }
  | .token _ => {}
  | .construct c =>
    match c with
    | .functionDeclaration | .generatorFunctionDeclaration =>
      { around := allAs .function (ownName n), opens? := some .function,
        inside := allAs .parameter (parameterNames n) }
    | .functionExpression | .generatorFunction =>
      { opens? := some .function,
        inside := allAs .function (ownName n) ++ allAs .parameter (parameterNames n) }
    | .arrowFunction | .methodDefinition =>
      { opens? := some .function, inside := allAs .parameter (parameterNames n) }
    | .classDeclaration | .abstractClassDeclaration =>
      { around := allAs .classLike (ownName n), opens? := some .classBody }
    | .classExpression => { opens? := some .classBody, inside := allAs .classLike (ownName n) }
    | .lexicalDeclaration =>
      let constant := (n.child? .kind).any (·.lexeme = "const")
      { around := allAs (if constant then .const else .let) (variableNames n) }
    | .variableDeclaration => { hoisted := allAs .var (variableNames n) }
    | .statementBlock | .switchBody => { opens? := some .block }
    | .classBody => { opens? := some .classBody }
    | .forStatement | .forInStatement =>
      { opens? := some .loop, inside := (loopNames n).filter (·.1 ≠ .var),
        hoisted := (loopNames n).filter (·.1 = .var) }
    | .catchClause => { opens? := some .handler, inside := allAs .caught (namesIn n .parameter) }
    | .importStatement => { around := allAs .imported (importedNames n), walked := .nothing }
    | .exportStatement => { walked := if (n.child? .source).isSome then .nothing else .all }
    | .exportSpecifier => { walked := .only .name }
    | .interfaceDeclaration | .typeAliasDeclaration | .enumDeclaration =>
      { around := allAs .type (ownName n) }
    | _ => if c.isName then { places := true, walked := .nothing } else {}

/-! ### The marks of a walk -/

namespace Entry

variable (e : Entry) (t : Scopes) (scope : Nat) (n : Node)

/-- The scope that the children of a node are walked in. -/
def inner : Nat := if e.opens?.isSome then t.scopes.length else scope

/-- The marks of a node up to the scope that it opens. -/
def opening : List Mark :=
  declaring scope e.around ++ e.opens?.toList.map (.opened (some scope) · n.span)

/-- The marks of a node without those of its children. -/
def marks : List Mark :=
  e.opening scope n ++ declaring (e.inner t scope) e.inside
    ++ declaring ((t.marked (e.opening scope n)).hoist scope) e.hoisted
    ++ if e.places then [.placed n.id scope] else []

end Entry

mutual

/-- The marks of a node and of what is walked below it. -/
def walkMarks (t : Scopes) (scope : Nat) : Node → List Mark
  | .mk l cs =>
    let e := entry (.mk l cs)
    let ms := e.marks t scope (.mk l cs)
    match e.walked with
    | .nothing => ms
    | .all => ms ++ walkAllMarks (t.marked ms) (e.inner t scope) cs
    | .only role => ms ++ walkOnlyMarks (t.marked ms) (e.inner t scope) role cs

/-- The marks of some nodes, one after the other. -/
def walkAllMarks (t : Scopes) (scope : Nat) : List Node → List Mark
  | [] => []
  | n :: ns =>
    let ms := walkMarks t scope n
    ms ++ walkAllMarks (t.marked ms) scope ns

/-- The marks of the first of some nodes that plays a role. -/
def walkOnlyMarks (t : Scopes) (scope : Nat) (role : Role) : List Node → List Mark
  | [] => []
  | n :: ns =>
    if n.label.role = some role then walkMarks t scope n else walkOnlyMarks t scope role ns

end

/-! ### The walk makes the marks -/

/-- A node declared. -/
theorem declare_eq_marked (t : Scopes) (n : Node) (scope : Nat) (kind : BindingKind) :
    t.declare n scope kind = t.marked (declaring scope [(kind, n)]) := by
  unfold declare declaring
  cases h : n.kind.isName
  · simp [h]
  · simp [h, marked, mark, Node.binding]

/-- Some nodes declared. -/
theorem foldl_declare_eq_marked (t : Scopes) (ns : List Node) (scope : Nat) (kind : BindingKind) :
    ns.foldl (fun t n => t.declare n scope kind) t = t.marked (declaring scope (allAs kind ns)) := by
  induction ns generalizing t with
  | nil => rfl
  | cons n ns ih =>
      rw [List.foldl_cons, ih, declare_eq_marked, ← marked_append, ← declaring_append]
      rfl

/-- The names in the chosen ones of the children of a pattern. -/
theorem declareParts_eq_marked (scope : Nat) (kind : BindingKind) (part : Part) (ns : List Node)
    (h : ∀ n ∈ ns, ∀ t : Scopes,
      t.declarePattern scope kind n = t.marked (declaring scope (allAs kind (patternNames n))))
    (t : Scopes) :
    t.declareParts scope kind part ns
      = t.marked (declaring scope (allAs kind (partNames part ns))) := by
  induction ns generalizing t with
  | nil =>
      unfold declareParts partNames
      rfl
  | cons n ns ih =>
      have hns := ih fun m hm => h m (List.mem_cons_of_mem n hm)
      have hn := h n (List.mem_cons_self ..)
      unfold declareParts partNames
      cases part with
      -- Every named child is bound, and the walk goes on behind it.
      | all =>
          by_cases hnamed : n.isNamed = true
          · simp only [if_pos hnamed]
            rw [hns, hn, ← marked_append, ← declaring_append, allAs, allAs, allAs, List.map_append]
          · simp only [if_neg hnamed]
            rw [hns, List.nil_append]
      -- The first named child is bound, and the walk ends there.
      | first =>
          by_cases hnamed : n.isNamed = true
          · simp only [if_pos hnamed]
            exact hn t
          · simp only [if_neg hnamed]
            exact hns t
      | inRole role =>
          by_cases hrole : n.label.role = some role
          · simp only [if_pos hrole]
            exact hn t
          · simp only [if_neg hrole]
            exact hns t

/-- A pattern declares its names. -/
theorem declarePattern_eq_marked (t : Scopes) (scope : Nat) (kind : BindingKind) (n : Node) :
    t.declarePattern scope kind n = t.marked (declaring scope (allAs kind (patternNames n))) := by
  induction n using Node.childrenRec generalizing t with
  | h l cs ih =>
      have hparts := fun part => declareParts_eq_marked scope kind part cs ih t
      have hname := declare_eq_marked t (.mk l cs) scope kind
      unfold declarePattern patternNames
      cases hk : l.kind with
      | token text => rfl
      | construct c => cases c <;> first | exact hname | exact hparts _ | rfl

/-- The pattern in a role declares its names. -/
theorem declareChild_eq_marked (t : Scopes) (scope : Nat) (kind : BindingKind) (n : Node)
    (role : Role) :
    t.declareChild scope kind n role = t.marked (declaring scope (allAs kind (namesIn n role))) := by
  unfold declareChild namesIn
  cases n.child? role with
  | none => rfl
  | some c =>
      rw [Option.toList_some, List.flatMap_singleton]
      exact declarePattern_eq_marked t scope kind c

/-- The name of a construct is declared. -/
theorem declareName_eq_marked (t : Scopes) (scope : Nat) (kind : BindingKind) (n : Node) :
    t.declareName scope kind n = t.marked (declaring scope (allAs kind (ownName n))) := by
  unfold declareName ownName
  cases n.child? .name with
  | none => rfl
  | some own => exact declare_eq_marked t own scope kind

/-- The parameters of a function are declared. -/
theorem declareParameters_eq_marked (t : Scopes) (scope : Nat) (n : Node) :
    t.declareParameters scope n
      = t.marked (declaring scope (allAs .parameter (parameterNames n))) := by
  rw [declareParameters, declareChild_eq_marked, declareChild_eq_marked, ← marked_append,
    ← declaring_append, parameterNames, allAs, allAs, allAs, List.map_append]

/-- The variables of a declaration are declared. -/
theorem declareVariables_eq_marked (t : Scopes) (scope : Nat) (kind : BindingKind) (n : Node) :
    t.declareVariables scope kind n
      = t.marked (declaring scope (allAs kind (variableNames n))) := by
  unfold declareVariables variableNames
  induction n.childrenOf .variableDeclarator generalizing t with
  | nil => rfl
  | cons d ds ih =>
      rw [List.foldl_cons, ih, declareChild_eq_marked, ← marked_append, ← declaring_append,
        List.flatMap_cons, allAs, allAs, allAs, List.map_append]

/-- What the head of a loop declares, inside the loop or in the nearest
function. -/
theorem declareLoop_eq_marked (t : Scopes) (inner outer : Nat) (n : Node) :
    t.declareLoop inner outer n
      = t.marked (declaring inner ((loopNames n).filter (·.1 ≠ .var))
          ++ declaring (t.hoist outer) ((loopNames n).filter (·.1 = .var))) := by
  have hall : ∀ kind : BindingKind, ∀ ns : List Node, ∀ p : BindingKind → Bool,
      (allAs kind ns).filter (fun q => p q.1) = if p kind then allAs kind ns else [] := by
    intro kind ns p
    cases hp : p kind <;> simp [allAs, List.filter_map, Function.comp_def, hp]
  unfold declareLoop loopNames
  cases n.child? .kind with
  | none => rfl
  | some word =>
      simp only [Option.toList_some, List.flatMap_singleton]
      rw [hall _ _ (· ≠ .var), hall _ _ (· = .var)]
      unfold namesIn loopKind
      cases n.child? .left with
      | none => simp [allAs]
      | some left =>
          simp only [Option.toList_some, List.flatMap_singleton, declarePattern_eq_marked]
          by_cases hvar : word.lexeme = "var"
          · simp [hvar]
          · by_cases hconst : word.lexeme = "const" <;> simp [hvar, hconst]

/-- A node makes its marks when it is reached. -/
theorem enter_eq_marked (t : Scopes) (scope : Nat) (n : Node) :
    t.enter scope n
      = ⟨t.marked ((entry n).marks t scope n), (entry n).inner t scope, (entry n).walked⟩ := by
  -- A scope that is opened behind some declarations has the number it would have without them.
  have hopen : ∀ ns kind, (t.marked (declaring scope ns)).openScope kind n.span (some scope)
      = ((t.marked (declaring scope ns)).mark (.opened (some scope) kind n.span),
        t.scopes.length) := by
    intro ns kind
    rw [openScope, length_marked_declaring]
    rfl
  have hopen' : ∀ kind, t.openScope kind n.span (some scope)
      = (t.mark (.opened (some scope) kind n.span), t.scopes.length) := fun kind => hopen [] kind
  unfold enter entry
  cases hk : n.kind with
  | token text =>
      split <;> simp_all [Entry.marks, Entry.opening, Entry.inner, marked_cons, Step.within]
  | construct c =>
      simp only [declareName_eq_marked, declareParameters_eq_marked, declareChild_eq_marked,
        declareVariables_eq_marked, declareLoop_eq_marked, declareImports, foldl_declare_eq_marked,
        hopen, hopen']
      cases c <;>
        simp [Entry.marks, Entry.opening, Entry.inner, marked_append, marked_cons, Step.within,
          Construct.isName, declaring_append, importedNames] <;> rfl

/-- Nodes that make their marks one by one make them together. -/
theorem walkAll_eq_marked (ns : List Node)
    (h : ∀ n ∈ ns, ∀ (t : Scopes) scope, t.walk scope n = t.marked (t.walkMarks scope n))
    (t : Scopes) (scope : Nat) : t.walkAll scope ns = t.marked (t.walkAllMarks scope ns) := by
  induction ns generalizing t with
  | nil => rfl
  | cons n ns ih =>
      rw [walkAll, walkAllMarks, marked_append, h n (List.mem_cons_self ..),
        ih fun m hm => h m (List.mem_cons_of_mem n hm)]

/-- If each node makes its marks, then so does the one in a role. -/
theorem walkOnly_eq_marked (role : Role) (ns : List Node)
    (h : ∀ n ∈ ns, ∀ (t : Scopes) scope, t.walk scope n = t.marked (t.walkMarks scope n))
    (t : Scopes) (scope : Nat) :
    t.walkOnly scope role ns = t.marked (t.walkOnlyMarks scope role ns) := by
  induction ns with
  | nil => rfl
  | cons n ns ih =>
      rw [walkOnly, walkOnlyMarks]
      by_cases hrole : n.label.role = some role
      · rw [if_pos hrole, if_pos hrole]
        exact h n (List.mem_cons_self ..) t scope
      · rw [if_neg hrole, if_neg hrole]
        exact ih fun m hm => h m (List.mem_cons_of_mem n hm)

/-- A walk makes its marks. -/
theorem walk_eq_marked (t : Scopes) (scope : Nat) (n : Node) :
    t.walk scope n = t.marked (t.walkMarks scope n) := by
  induction n using Node.childrenRec generalizing t scope with
  | h l cs ih =>
      rw [walk, walkMarks, enter_eq_marked]
      dsimp only
      cases (entry (.mk l cs)).walked with
      | nothing => rfl
      | all => exact (walkAll_eq_marked cs ih _ _).trans (marked_append ..).symm
      | only role => exact (walkOnly_eq_marked role cs ih _ _).trans (marked_append ..).symm

/-- The marks of a walk are those of the node and of the children that
are walked. -/
theorem walkMarks_eq (t : Scopes) (scope : Nat) (n : Node) :
    t.walkMarks scope n = (entry n).marks t scope n ++
      let after := t.marked ((entry n).marks t scope n)
      match (entry n).walked with
      | .nothing => []
      | .all => after.walkAllMarks ((entry n).inner t scope) n.children
      | .only role => after.walkOnlyMarks ((entry n).inner t scope) role n.children := by
  obtain ⟨l, cs⟩ := n
  rw [walkMarks]
  dsimp only
  split
  · exact (List.append_nil _).symm
  · rfl
  · rfl

/-- A name is placed, and nothing below it is walked. -/
theorem entry_of_isName {n : Node} (h : n.kind.isName = true) :
    entry n = { places := true, walked := .nothing } := by
  unfold entry
  cases hk : n.kind with
  | token text =>
      rw [hk] at h
      exact absurd h Bool.false_ne_true
  | construct c =>
      rw [hk] at h
      cases c <;> first | rfl | exact absurd h Bool.false_ne_true

/-- The walk of a name is its place. -/
theorem walkMarks_of_isName {n : Node} (h : n.kind.isName = true) (t : Scopes) (scope : Nat) :
    t.walkMarks scope n = [.placed n.id scope] := by
  rw [walkMarks_eq, entry_of_isName h]
  rfl

/-- The scopes of a module before anything in it is walked. -/
def moduleScope (root : Node) : Scopes := ⟨[⟨none, .program, root.span, []⟩], []⟩

/-- The marks of a module. -/
def treeMarks (root : Node) : List Mark := (moduleScope root).walkAllMarks 0 root.children

/-- The scopes of a module are what its marks leave behind. -/
theorem ofTree_eq_marked (root : Node) :
    ofTree root = (moduleScope root).marked (treeMarks root) :=
  walkAll_eq_marked root.children (fun n _ t scope => walk_eq_marked t scope n) _ 0

end Scopes

end ScriptRefactor
