import ScriptRefactor.Proofs.Scope.Bindings
import ScriptRefactor.Refactoring.Rename

/-!
# `ScriptRefactor.Proofs.Refactoring.RenamedTree`: renaming edits on a tree

The edits that rename a declaration are made to the text. Made to the
tree (`Renaming.node`) they do the following at each name that they
replace.

* The name gets the new name.
* A property or a pattern in short form becomes a pair: its key is the
  old name, and its value is an identifier with the new one.
* In an export list without another name, the new name is exported as
  the old one.

The walk of the renamed tree makes the marks of the walk of the tree,
with the new name where a declaring name is replaced
(`walkMarks_node`).
-/

set_option autoImplicit false

namespace ScriptRefactor

open Syntax

/-- The name stands for a property and for the variable of the same
name. -/
def Syntax.Node.isShort (n : Node) : Bool :=
  n.is .shorthandPropertyIdentifier || n.is .shorthandPropertyIdentifierPattern

/-- What happens at a node, with the names that it declares changed. -/
def Scopes.Entry.map (f : Node → Node) (e : Scopes.Entry) : Scopes.Entry :=
  { e with
    around := e.around.map (Prod.map id f)
    inside := e.inside.map (Prod.map id f)
    hoisted := e.hoisted.map (Prod.map id f) }

namespace Refactoring

/-- A renaming as it is made to a tree. -/
structure Renaming where
  /-- The edits of the text. -/
  edits : List Edit
  /-- The name before. -/
  old : String
  /-- The name behind. -/
  new : String
  /-- The numbers for the nodes that are added. -/
  added : Nat → Nat

namespace Renaming

/-! ### The renamed tree -/

section Definitions

variable (r : Renaming)

/-- An edit replaces what stands at the span. -/
def replaces (s : Span) : Bool := r.edits.any (·.span = s)

/-- The node is a name that an edit replaces. -/
def hits (n : Node) : Bool := n.kind.isName && r.replaces n.span

/-- The declaration under its new name, if the declaring name is
replaced. -/
def binding (b : Binding) : Binding :=
  if r.replaces b.span then { b with name := r.new } else b

/-- A leaf that is added to what is left of a node. -/
def leafAt (place : Label) (i : Nat) (kind : Kind) (role : Option Role) (text : String) : Node :=
  .mk ⟨r.added (3 * place.id + i), kind, role, place.span, text⟩ []

/-- The value of the pair that a name in short form becomes. -/
def value (l : Label) (cs : List Node) : Node :=
  .mk { l with kind := .construct .identifier, role := some .value, lexeme := r.new } cs

/-- The pair that a name in short form becomes. -/
def pair (c : Construct) (l : Label) (cs : List Node) : Node :=
  .mk ⟨r.added (3 * l.id), .construct c, l.role, l.span, ""⟩
    [r.leafAt l 1 (.construct .propertyIdentifier) (some .key) r.old,
      r.leafAt l 2 (.token ":") none ":", r.value l cs]

/-- What is added to a node: to an exported name that is replaced, the
name it is exported under. -/
def exportedAs (n : Node) : List Node :=
  if n.is .exportSpecifier && (n.child? .alias).isNone
      && (n.child? .name).any fun own => r.hits own && !own.isShort then
    [r.leafAt n.label 1 (.token "as") none "as",
      r.leafAt n.label 2 (.construct .identifier) (some .alias) r.old]
  else []

mutual

/-- The tree with the edits made. -/
def node : Node → Node
  | .mk l cs =>
    if r.hits (.mk l cs) then
      match l.kind with
      | .construct .shorthandPropertyIdentifier => r.pair .pair l (nodes cs)
      | .construct .shorthandPropertyIdentifierPattern => r.pair .pairPattern l (nodes cs)
      | _ => .mk { l with lexeme := r.new } (nodes cs)
    else .mk l (nodes cs ++ r.exportedAs (.mk l cs))

/-- Some trees with the edits made. -/
def nodes : List Node → List Node
  | [] => []
  | n :: ns => node n :: nodes ns

end

/-- The name in the renamed tree that corresponds to a name. -/
def name (n : Node) : Node :=
  if r.hits n && n.isShort then r.value n.label (r.nodes n.children) else r.node n

end Definitions

variable {r : Renaming} {n m c : Node} {ns cs : List Node} {l : Label} {role : Role}

/-! ### Nodes of the renamed tree -/

/-- Each tree is renamed. -/
theorem nodes_eq_map (ns : List Node) : r.nodes ns = ns.map r.node := by
  induction ns with
  | nil => rfl
  | cons n ns ih => rw [nodes, ih, List.map_cons]

/-- A name that is not replaced, and what is no name, stays. -/
theorem node_of_not_hits (h : r.hits n = false) :
    r.node n = .mk n.label (n.children.map r.node ++ r.exportedAs n) := by
  obtain ⟨l, cs⟩ := n
  rw [node, if_neg (by simp [h]), nodes_eq_map]
  rfl

/-- A name that is replaced gets the new name, in short form as the
value of a pair. -/
theorem node_of_hits (h : r.hits n = true) :
    (n.kind = .construct .shorthandPropertyIdentifier ∧
        r.node n = r.pair .pair n.label (n.children.map r.node))
      ∨ (n.kind = .construct .shorthandPropertyIdentifierPattern ∧
        r.node n = r.pair .pairPattern n.label (n.children.map r.node))
      ∨ (n.isShort = false ∧
        r.node n = .mk { n.label with lexeme := r.new } (n.children.map r.node)) := by
  obtain ⟨l, cs⟩ := n
  rw [node, if_pos h, nodes_eq_map]
  split
  · exact .inl ⟨‹_›, rfl⟩
  · exact .inr (.inl ⟨‹_›, rfl⟩)
  · rename_i h1 h2
    refine .inr (.inr ⟨?_, rfl⟩)
    simp only [Node.isShort, Node.is, Bool.or_eq_false_iff, decide_eq_false_iff_not]
    exact ⟨h1, h2⟩

/-- A name in full form that is replaced stays where it is. -/
theorem node_of_hits_of_not_isShort (h : r.hits n = true) (hshort : n.isShort = false) :
    r.node n = .mk { n.label with lexeme := r.new } (n.children.map r.node) := by
  rcases node_of_hits h with ⟨hk, -⟩ | ⟨hk, -⟩ | ⟨-, h⟩
  · simp [Node.isShort, Node.is, hk] at hshort
  · simp [Node.isShort, Node.is, hk] at hshort
  · exact h

/-- A name in short form that is replaced is the value of a pair. -/
theorem name_of_isShort (h : r.hits n = true) (hshort : n.isShort = true) :
    r.name n = r.value n.label (n.children.map r.node) := by
  rw [name, if_pos (by simp [h, hshort]), nodes_eq_map]

/-- Any other node is told by its place. -/
theorem name_of_not_isShort (h : n.isShort = false) : r.name n = r.node n := by
  rw [name, if_neg (by simp [h])]

/-- A node that is not replaced is told by its place. -/
theorem name_of_not_hits (h : r.hits n = false) : r.name n = r.node n := by
  rw [name, if_neg (by simp [h])]

/-- A node that is no name is not replaced. -/
theorem hits_eq_false (h : n.kind.isName = false) : r.hits n = false := by
  rw [hits, h, Bool.false_and]

/-- A node keeps its role. -/
@[simp]
theorem role_node (n : Node) : (r.node n).label.role = n.label.role := by
  cases h : r.hits n with
  | false => rw [node_of_not_hits h]; rfl
  | true => rcases node_of_hits h with ⟨-, h⟩ | ⟨-, h⟩ | ⟨-, h⟩ <;> rw [h] <;> rfl

/-- A construct stays a construct, and a token a token. -/
@[simp]
theorem isNamed_node (n : Node) : (r.node n).isNamed = n.isNamed := by
  cases h : r.hits n with
  | false => rw [node_of_not_hits h]; rfl
  | true =>
      rcases node_of_hits h with ⟨hk, h⟩ | ⟨hk, h⟩ | ⟨-, h⟩ <;> rw [h]
      · rw [Node.isNamed, Node.isNamed, hk]
        rfl
      · rw [Node.isNamed, Node.isNamed, hk]
        rfl
      · rfl

/-- The number, the span and the new name of what corresponds to a
name. -/
theorem binding_name (hname : m.kind.isName = true) (kind : BindingKind) :
    (r.name m).binding kind = r.binding (m.binding kind) := by
  have hspan : (m.binding kind).span = m.span := rfl
  cases h : r.hits m with
  | false =>
      have hno : r.replaces m.span = false := by simpa [hits, hname] using h
      rw [name_of_not_hits h, node_of_not_hits h, binding, hspan, if_neg (by simp [hno])]
      rfl
  | true =>
      have hyes : r.replaces m.span = true := by simpa [hits, hname] using h
      rw [binding, hspan, if_pos hyes]
      cases hshort : m.isShort with
      | true =>
          rw [name_of_isShort h hshort]
          rfl
      | false =>
          rw [name_of_not_isShort hshort, node_of_hits_of_not_isShort h hshort]
          rfl

/-- What corresponds to a name is a name, and nothing else is. -/
theorem isName_name (m : Node) : (r.name m).kind.isName = m.kind.isName := by
  cases h : r.hits m with
  | false =>
      rw [name_of_not_hits h, node_of_not_hits h]
      rfl
  | true =>
      have hname : m.kind.isName = true := (Bool.and_eq_true_iff.mp h).1
      cases hshort : m.isShort with
      | true =>
          rw [name_of_isShort h hshort, hname]
          rfl
      | false =>
          rw [name_of_not_isShort hshort, node_of_hits_of_not_isShort h hshort]
          rfl

/-! ### Children of the renamed tree -/

/-- Only a part of an export list has something added. -/
theorem exportedAs_of_ne (h : n.is .exportSpecifier = false) : r.exportedAs n = [] := by
  rw [exportedAs, if_neg (by simp [h])]

/-- What is added plays no role but that of another name. -/
theorem role_of_mem_exportedAs (h : c ∈ r.exportedAs n) :
    c.label.role = none ∨ c.label.role = some .alias := by
  unfold exportedAs at h
  split at h
  · rcases List.mem_cons.mp h with rfl | h
    · exact .inl rfl
    · rw [List.mem_singleton.mp h]
      exact .inr rfl
  · exact absurd h List.not_mem_nil

/-- The children of a node that is not replaced are renamed in place. -/
theorem children_node (h : r.hits n = false) (hexport : n.is .exportSpecifier = false) :
    (r.node n).children = n.children.map r.node := by
  rw [node_of_not_hits h, exportedAs_of_ne hexport, List.append_nil]
  rfl

/-- The child in a role is renamed in place. -/
theorem child?_node (h : r.hits n = false) (hexport : n.is .exportSpecifier = false ∨ role ≠ .alias) :
    (r.node n).child? role = (n.child? role).map r.node := by
  have hmap : (n.children.map r.node).find? (fun c => c.label.role = some role)
      = (n.child? role).map r.node := by
    rw [List.find?_map, Node.child?]
    congr 2
    funext c
    simp
  rw [node_of_not_hits h]
  show (n.children.map r.node ++ r.exportedAs n).find? (fun c => c.label.role = some role) = _
  rw [List.find?_append, hmap]
  have hadded : (r.exportedAs n).find? (fun c => c.label.role = some role) = none := by
    rcases hexport with hexport | hrole
    · rw [exportedAs_of_ne hexport]
      rfl
    · refine List.find?_eq_none.mpr fun c hc => ?_
      rcases role_of_mem_exportedAs hc with hc | hc <;> rw [hc] <;> simp [Ne.symm hrole]
  rw [hadded, Option.or_none]

/-- The kind of a node that is not replaced. -/
theorem kind_node (h : r.hits n = false) : (r.node n).kind = n.kind := by
  rw [node_of_not_hits h]
  rfl

/-- A node that is not in short form keeps its kind. -/
theorem kind_node_of_not_isShort (h : n.isShort = false) : (r.node n).kind = n.kind := by
  cases hits : r.hits n with
  | false => exact kind_node hits
  | true =>
      rw [node_of_hits_of_not_isShort hits h]
      rfl

/-- The children of a kind that is no name, and that names in short form
do not become, are renamed in place. -/
theorem is_node {c : Construct} (hname : c.isName = false) (hpair : c ≠ .pair ∧ c ≠ .pairPattern)
    (n : Node) : (r.node n).is c = n.is c := by
  cases h : r.hits n with
  | false => rw [Node.is, kind_node h, Node.is]
  | true =>
      have hno : n.is c = false := by
        have hn : n.kind.isName = true := (Bool.and_eq_true_iff.mp h).1
        rw [Node.is, decide_eq_false_iff_not]
        intro hk
        rw [hk, Kind.isName, hname] at hn
        exact Bool.false_ne_true hn
      rw [hno]
      rcases node_of_hits h with ⟨-, h⟩ | ⟨-, h⟩ | ⟨-, h⟩ <;> rw [h]
      · exact decide_eq_false fun hk => hpair.1 (Kind.construct.inj hk).symm
      · exact decide_eq_false fun hk => hpair.2 (Kind.construct.inj hk).symm
      · exact hno

/-! ### Names that are declared -/

/-- What the names below a node may be: only the parts of an object and
of its pattern are in short form, and no word is a name. -/
structure Spelled (n : Node) : Prop where
  /-- Names in short form stand in objects and their patterns. -/
  short : ∀ m ∈ n.preorder, ∀ c ∈ m.children, c.isShort = true →
    m.is .object = true ∨ m.is .objectPattern = true ∨ m.is .objectAssignmentPattern = true
  /-- The word that tells how a name is declared is no name. -/
  word : ∀ m ∈ n.preorder, m.label.role = some .kind → m.kind.isName = false

instance (n : Node) : Decidable (Spelled n) :=
  decidable_of_iff ((∀ m ∈ n.preorder, ∀ c ∈ m.children, c.isShort = true →
        m.is .object = true ∨ m.is .objectPattern = true ∨ m.is .objectAssignmentPattern = true)
      ∧ ∀ m ∈ n.preorder, m.label.role = some .kind → m.kind.isName = false)
    ⟨fun ⟨h1, h2⟩ => ⟨h1, h2⟩, fun h => ⟨h.short, h.word⟩⟩

/-- So are the names below a child. -/
theorem Spelled.child (hn : Spelled n) (hc : c ∈ n.children) : Spelled c where
  short m hm := hn.short m (Node.mem_preorder.mpr (.inr ⟨c, hc, hm⟩))
  word m hm := hn.word m (Node.mem_preorder.mpr (.inr ⟨c, hc, hm⟩))

/-- A child of anything but an object is in full form. -/
theorem Spelled.isShort_eq (hn : Spelled n) {k : Construct} (hk : n.kind = .construct k)
    (hobject : k ≠ .object ∧ k ≠ .objectPattern ∧ k ≠ .objectAssignmentPattern)
    (hc : c ∈ n.children) : c.isShort = false := by
  refine Bool.eq_false_iff.mpr fun hshort => ?_
  have h := hn.short n (Node.mem_preorder_self n) c hc hshort
  simp [Node.is, hk, hobject] at h

/-- A child of anything but an object is told by its place. -/
theorem Spelled.name_eq (hn : Spelled n) {k : Construct} (hk : n.kind = .construct k)
    (hobject : k ≠ .object ∧ k ≠ .objectPattern ∧ k ≠ .objectAssignmentPattern)
    (hc : c ∈ n.children) : r.name c = r.node c :=
  name_of_not_isShort (hn.isShort_eq hk hobject hc)

/-- The word that tells how a name is declared keeps its text. -/
theorem Spelled.lexeme_word (hn : Spelled n) (hc : n.child? .kind = some c) :
    (r.node c).lexeme = c.lexeme := by
  have hno := hn.word c (Node.mem_preorder_of_child (Node.mem_of_child? hc)) (Node.role_of_child? hc)
  rw [node_of_not_hits (hits_eq_false hno)]
  rfl

/-- What a pattern binds, by the kind of the pattern. -/
theorem patternNames_eq (n : Node) :
    Scopes.patternNames n =
      match n.kind with
      | .construct .identifier | .construct .shorthandPropertyIdentifierPattern => [n]
      | .construct c => ((Scopes.partOf? c).map (Scopes.partNames · n.children)).getD []
      | .token _ => [] := by
  obtain ⟨l, cs⟩ := n
  rw [Scopes.patternNames]
  cases hk : l.kind with
  | token text => rw [Node.kind, Node.label, hk]
  | construct c =>
      rw [Node.kind, Node.label, hk]
      cases c <;> rfl

/-- What the chosen ones of renamed nodes bind. -/
theorem partNames_map (part : Scopes.Part)
    (h : ∀ n ∈ ns, Scopes.patternNames (r.node n) = (Scopes.patternNames n).map r.name) :
    Scopes.partNames part (ns.map r.node) = (Scopes.partNames part ns).map r.name := by
  induction ns with
  | nil =>
      unfold Scopes.partNames
      rfl
  | cons n ns ih =>
      have hn := h n (List.mem_cons_self ..)
      have hns := ih fun m hm => h m (List.mem_cons_of_mem n hm)
      rw [List.map_cons]
      unfold Scopes.partNames
      rw [isNamed_node, role_node, hn, hns]
      cases part <;> dsimp only <;> split <;> simp

/-- A renamed pattern binds the names that correspond to those of the
pattern. -/
theorem patternNames_node (n : Node) :
    Scopes.patternNames (r.node n) = (Scopes.patternNames n).map r.name := by
  induction n using Node.childrenRec with
  | h l cs ih =>
      cases h : r.hits (.mk l cs) with
      | false =>
          have hname : [r.node (.mk l cs)] = [Node.mk l cs].map r.name := by
            rw [List.map_singleton, name_of_not_hits h]
          have hparts : (Node.mk l cs).is .exportSpecifier = false → ∀ part,
              Scopes.partNames part (r.node (.mk l cs)).children
                = (Scopes.partNames part cs).map r.name := fun hexport part => by
            rw [children_node h hexport]
            exact partNames_map part ih
          rw [patternNames_eq, patternNames_eq, kind_node h]
          cases hk : (Node.mk l cs).kind with
          | token text => rfl
          | construct c =>
              rw [Node.is, hk] at hparts
              cases c <;> first | exact hname | rfl | exact hparts rfl _
      | true =>
          rcases node_of_hits h with ⟨hk, hn⟩ | ⟨hk, hn⟩ | ⟨hshort, hn⟩
          · -- A property in short form binds nothing, and neither does a pair.
            rw [hn, patternNames_eq (.mk l cs), hk, patternNames_eq]
            rfl
          · have hshort : (Node.mk l cs).isShort = true := by simp [Node.isShort, Node.is, hk]
            rw [hn, patternNames_eq (.mk l cs), hk, patternNames_eq]
            show [r.value l (cs.map r.node)] = [Node.mk l cs].map r.name
            rw [List.map_singleton, name_of_isShort h hshort]
            rfl
          · have hname : [r.node (.mk l cs)] = [Node.mk l cs].map r.name := by
              rw [List.map_singleton, name_of_not_isShort hshort]
            have hkind : (r.node (.mk l cs)).kind = (Node.mk l cs).kind := by rw [hn]; rfl
            have hisName : (Node.mk l cs).kind.isName = true := (Bool.and_eq_true_iff.mp h).1
            rw [patternNames_eq, patternNames_eq (.mk l cs), hkind]
            cases hk : (Node.mk l cs).kind with
            | token text => rfl
            | construct c =>
                rw [hk] at hisName
                cases c <;> first | exact hname | rfl | exact absurd hisName Bool.false_ne_true

/-- The names in the pattern that plays a role. -/
theorem namesIn_node (h : r.hits n = false) (hrole : role ≠ .alias) :
    Scopes.namesIn (r.node n) role = (Scopes.namesIn n role).map r.name := by
  rw [Scopes.namesIn, child?_node h (.inr hrole), Scopes.namesIn]
  cases n.child? role with
  | none => rfl
  | some c =>
      simp only [Option.map_some, Option.toList_some, List.flatMap_singleton]
      exact patternNames_node c

/-- The parameters of a function. -/
theorem parameterNames_node (h : r.hits n = false) :
    Scopes.parameterNames (r.node n) = (Scopes.parameterNames n).map r.name := by
  rw [Scopes.parameterNames, namesIn_node h (by decide), namesIn_node h (by decide),
    Scopes.parameterNames, List.map_append]

/-- The name of a construct that is no object. -/
theorem ownName_node (h : r.hits n = false)
    (hc : ∀ c ∈ n.children, r.name c = r.node c) :
    Scopes.ownName (r.node n) = (Scopes.ownName n).map r.name := by
  rw [Scopes.ownName, child?_node h (.inr (by decide)), Scopes.ownName]
  cases hown : n.child? .name with
  | none => rfl
  | some own => simp [hc own (Node.mem_of_child? hown)]

/-- The variables of a declaration. -/
theorem variableNames_node (h : r.hits n = false) (hexport : n.is .exportSpecifier = false) :
    Scopes.variableNames (r.node n) = (Scopes.variableNames n).map r.name := by
  have hkept : (r.node n).childrenOf .variableDeclarator
      = (n.childrenOf .variableDeclarator).map r.node := by
    rw [Node.childrenOf, children_node h hexport, List.filter_map, Node.childrenOf]
    congr 2
    funext c
    exact is_node rfl (by decide) c
  rw [Scopes.variableNames, hkept, List.flatMap_map, Scopes.variableNames, List.map_flatMap]
  refine List.flatMap_congr fun d hd => ?_
  have hkind : d.kind = .construct .variableDeclarator :=
    of_decide_eq_true (List.mem_filter.mp hd).2
  exact namesIn_node (hits_eq_false (by rw [hkind]; rfl)) (by decide)

/-- The word in the head of a loop keeps its text. -/
theorem loopNames_node (h : r.hits n = false) (hn : Spelled n) :
    Scopes.loopNames (r.node n) = (Scopes.loopNames n).map (Prod.map id r.name) := by
  rw [Scopes.loopNames, child?_node h (.inr (by decide)), namesIn_node h (by decide),
    Scopes.loopNames]
  cases hword : n.child? .kind with
  | none => rfl
  | some word =>
      have htext : Scopes.loopKind (r.node word) = Scopes.loopKind word := by
        rw [Scopes.loopKind, hn.lexeme_word hword, Scopes.loopKind]
      simp [htext, Scopes.allAs]

/-- The first construct among the children is renamed in place. -/
theorem firstNamed?_node (h : r.hits n = false) (hexport : n.is .exportSpecifier = false) :
    (r.node n).firstNamed? = n.firstNamed?.map r.node := by
  rw [Node.firstNamed?, Node.namedChildren, children_node h hexport, List.filter_map,
    List.head?_map, Node.firstNamed?, Node.namedChildren]
  congr 3
  funext c
  exact isNamed_node c

/-- A replaced name is no part of an import, and does not become
one. -/
theorem importedName?_of_hits (h : r.hits n = true) :
    Scopes.importedName? n = none ∧ Scopes.importedName? (r.node n) = none := by
  have hnone : ∀ m : Node, m.kind.isName = true → Scopes.importedName? m = none := by
    intro m hm
    unfold Scopes.importedName?
    split <;> first | rfl | simp_all [Kind.isName, Construct.isName]
  have hname : n.kind.isName = true := (Bool.and_eq_true_iff.mp h).1
  refine ⟨hnone n hname, ?_⟩
  rcases node_of_hits h with ⟨-, h⟩ | ⟨-, h⟩ | ⟨-, h⟩ <;> rw [h]
  · rfl
  · rfl
  · exact hnone _ hname

/-- The local name of a part of an import. -/
theorem importedName?_node (hn : Spelled n) :
    Scopes.importedName? (r.node n) = (Scopes.importedName? n).map r.name := by
  cases h : r.hits n with
  | true =>
      rw [(importedName?_of_hits h).1, (importedName?_of_hits h).2]
      rfl
  | false =>
      unfold Scopes.importedName?
      rw [kind_node h]
      split
      · -- An import clause binds its first named child, if that is a name.
        rename_i hk
        have hexport : n.is .exportSpecifier = false := by simp [Node.is, hk]
        rw [firstNamed?_node h hexport]
        cases hc : n.firstNamed? with
        | none => rfl
        | some c =>
            have hchild := Node.mem_of_firstNamed? hc
            have hname := hn.name_eq (r := r) hk (by decide) hchild
            have hkind : (r.node c).is .identifier = c.is .identifier := by
              rw [Node.is, kind_node_of_not_isShort (hn.isShort_eq hk (by decide) hchild), Node.is]
            rw [Option.map_some, Option.filter_some, Option.filter_some, hkind]
            split
            · rw [Option.map_some, hname]
            · rfl
      · -- A namespace import binds its first named child.
        rename_i hk
        have hexport : n.is .exportSpecifier = false := by simp [Node.is, hk]
        rw [firstNamed?_node h hexport]
        cases hc : n.firstNamed? with
        | none => rfl
        | some c =>
            rw [Option.map_some, Option.map_some,
              hn.name_eq hk (by decide) (Node.mem_of_firstNamed? hc)]
      · -- An entry of the list binds its alias, or else its name.
        rename_i hk
        have hexport : n.is .exportSpecifier = false := by simp [Node.is, hk]
        have hchild : ∀ role c, n.child? role = some c → r.name c = r.node c := fun role c hc =>
          hn.name_eq hk (by decide) (Node.mem_of_child? hc)
        rw [child?_node h (.inl hexport), child?_node h (.inl hexport)]
        cases halias : n.child? .alias with
        | some c => simp [hchild _ c halias]
        | none =>
            cases hown : n.child? .name with
            | none => rfl
            | some c => simp [hchild _ c hown]
      · rfl

/-- The pair that a name in short form becomes is no part of an
import. -/
theorem importedNames_pair {k : Construct} (hk : k = .pair ∨ k = .pairPattern) :
    Scopes.importedNames (r.pair k l cs) = cs.flatMap Scopes.importedNames := by
  have hvalue : Scopes.importedNames (r.value l cs) = cs.flatMap Scopes.importedNames :=
    Scopes.importedNames_eq _
  rw [Scopes.importedNames_eq]
  show (Scopes.importedName? (r.pair k l cs)).toList
    ++ ([] ++ ([] ++ (Scopes.importedNames (r.value l cs) ++ []))) = _
  rw [hvalue, List.append_nil]
  rcases hk with rfl | rfl <;> rfl

/-- The names of an import. -/
theorem importedNames_node (hn : Spelled n) :
    Scopes.importedNames (r.node n) = (Scopes.importedNames n).map r.name := by
  induction n using Node.childrenRec with
  | h l cs ih =>
      have hbelow : (cs.map r.node).flatMap Scopes.importedNames
          = (cs.flatMap Scopes.importedNames).map r.name := by
        rw [List.flatMap_map, List.map_flatMap]
        exact List.flatMap_congr fun c hc => ih c hc (hn.child hc)
      rw [Scopes.importedNames_eq (.mk l cs), List.map_append, ← Option.toList_map,
        ← importedName?_node hn]
      cases h : r.hits (.mk l cs) with
      | false =>
          have hadded : (r.exportedAs (.mk l cs)).flatMap Scopes.importedNames = [] := by
            unfold exportedAs
            split <;> rfl
          rw [Scopes.importedNames_eq, node_of_not_hits h]
          show _ ++ (cs.map r.node ++ r.exportedAs (.mk l cs)).flatMap Scopes.importedNames = _
          rw [List.flatMap_append, hadded, List.append_nil, hbelow]
          rfl
      | true =>
          rw [(importedName?_of_hits h).2]
          rcases node_of_hits h with ⟨-, hn⟩ | ⟨-, hn⟩ | ⟨-, hn⟩
          · rw [hn, importedNames_pair (.inl rfl)]
            exact hbelow
          · rw [hn, importedNames_pair (.inr rfl)]
            exact hbelow
          · rw [Scopes.importedNames_eq, (importedName?_of_hits h).2, hn]
            exact congrArg _ hbelow

/-! ### The marks of the renamed tree -/

/-- A node that is not replaced declares the names that correspond to
those it declared before. -/
theorem entry_node (h : r.hits n = false) (hn : Spelled n) :
    Scopes.entry (r.node n) = (Scopes.entry n).map r.name := by
  -- What an entry is put together from, each renamed on its own.
  have hmap : ∀ (kind : BindingKind) (ns : List Node), Scopes.allAs kind (ns.map r.name)
      = (Scopes.allAs kind ns).map (Prod.map id r.name) := by
    intro kind ns
    simp [Scopes.allAs]
  have hparameters := parameterNames_node h (n := n)
  have hcaught := namesIn_node h (n := n) (show Role.parameter ≠ .alias by decide)
  have hloop := loopNames_node h hn
  have hsource : ((r.node n).child? .source).isSome = (n.child? .source).isSome := by
    rw [child?_node h (.inr (by decide)), Option.isSome_map]
  have hconst : ((r.node n).child? .kind).any (·.lexeme = "const")
      = (n.child? .kind).any (·.lexeme = "const") := by
    rw [child?_node h (.inr (by decide))]
    cases hword : n.child? .kind with
    | none => rfl
    | some word => simp [hn.lexeme_word hword]
  unfold Scopes.entry
  rw [kind_node h]
  cases hk : n.kind with
  | token text => split <;> simp_all [Scopes.Entry.map]
  | construct c =>
      have hown := fun hobject => ownName_node h fun c hc => hn.name_eq hk hobject hc
      have hvariables := fun hexport => variableNames_node h (n := n) hexport
      have himported := importedNames_node (r := r) hn
      rw [Node.is, hk] at hvariables
      -- Constructs that declare nothing need none of these facts.
      cases c <;> first
        | rfl
        | simp [Scopes.Entry.map, hown, hvariables, himported, hparameters, hcaught, hloop,
            hsource, hconst, hmap, List.filter_map, Function.comp_def]

variable {t t' : Scopes} {scope : Nat} {e : Scopes.Entry}

/-- The declarations of the corresponding names. -/
theorem declaring_map (scope : Nat) (ps : List (BindingKind × Node)) :
    Scopes.declaring scope (ps.map (Prod.map id r.name))
      = (Scopes.declaring scope ps).map (Mark.map r.binding) := by
  rw [Scopes.declaring, List.filter_map, List.map_map, Scopes.declaring, List.map_map]
  have hfilter : ((fun p : BindingKind × Node => p.2.kind.isName) ∘ Prod.map id r.name)
      = fun p => p.2.kind.isName := by
    funext p
    exact isName_name p.2
  rw [hfilter]
  refine List.map_congr_left fun p hp => ?_
  exact congrArg (Mark.declared · scope) (binding_name (List.mem_filter.mp hp).2 p.1)

/-- The children are walked in the scope of the same number. -/
theorem inner_map (hshape : t.shape = t'.shape) (scope : Nat) :
    (e.map r.name).inner t' scope = e.inner t scope := by
  have hlength : t'.scopes.length = t.scopes.length := by
    rw [← Scopes.length_shape, ← hshape, Scopes.length_shape]
  rw [Scopes.Entry.inner, hlength]
  rfl

/-- The marks of a node with corresponding names. -/
theorem marks_map (hshape : t.shape = t'.shape) (hspan : m.span = n.span) (hid : m.id = n.id) :
    (e.map r.name).marks t' scope m = (e.marks t scope n).map (Mark.map r.binding) := by
  have hopening : (e.map r.name).opening scope m = (e.opening scope n).map (Mark.map r.binding) := by
    rw [Scopes.Entry.opening, Scopes.Entry.opening, List.map_append, List.map_map, hspan,
      ← declaring_map]
    rfl
  have hhoist : (t'.marked ((e.map r.name).opening scope m)).hoist scope
      = (t.marked (e.opening scope n)).hoist scope := by
    rw [hopening]
    exact (Scopes.hoist_congr (Scopes.shape_marked_map _ hshape _) scope).symm
  have hplaced : (if (e.map r.name).places then [.placed m.id scope] else [])
      = (if e.places then [.placed n.id scope] else []).map (Mark.map r.binding) := by
    rw [hid]
    show (if e.places then _ else _) = _
    split <;> rfl
  rw [Scopes.Entry.marks, inner_map hshape, hhoist, hopening, hplaced, Scopes.Entry.marks,
    List.map_append, List.map_append, List.map_append, ← declaring_map, ← declaring_map]
  rfl

/-- Renamed trees make the marks of the trees one after the other. -/
theorem walkAllMarks_map
    (h : ∀ n ∈ ns, ∀ {t t' : Scopes} {scope}, t.shape = t'.shape →
      t'.walkMarks scope (r.node n) = (t.walkMarks scope n).map (Mark.map r.binding))
    (hshape : t.shape = t'.shape) (scope : Nat) :
    t'.walkAllMarks scope (ns.map r.node)
      = (t.walkAllMarks scope ns).map (Mark.map r.binding) := by
  induction ns generalizing t t' with
  | nil => rfl
  | cons n ns ih =>
      have hn : t'.walkMarks scope (r.node n) = (t.walkMarks scope n).map (Mark.map r.binding) :=
        h n (List.mem_cons_self ..) hshape
      have hshape' := Scopes.shape_marked_map r.binding hshape (t.walkMarks scope n)
      rw [List.map_cons, Scopes.walkAllMarks, hn, Scopes.walkAllMarks, List.map_append,
        ih (fun m hm => h m (List.mem_cons_of_mem n hm)) hshape']

/-- Of renamed trees, the one that plays a role makes the marks of the
one that played it before. -/
theorem walkOnlyMarks_map
    (h : ∀ n ∈ ns, ∀ {t t' : Scopes} {scope}, t.shape = t'.shape →
      t'.walkMarks scope (r.node n) = (t.walkMarks scope n).map (Mark.map r.binding))
    (hcs : ∀ c ∈ cs, c.label.role ≠ some role) (hshape : t.shape = t'.shape) (scope : Nat) :
    t'.walkOnlyMarks scope role (ns.map r.node ++ cs)
      = (t.walkOnlyMarks scope role ns).map (Mark.map r.binding) := by
  induction ns with
  | nil =>
      show t'.walkOnlyMarks scope role cs = []
      induction cs with
      | nil => rfl
      | cons c cs ih =>
          rw [Scopes.walkOnlyMarks, if_neg (hcs c (List.mem_cons_self ..))]
          exact ih fun c' hc' => hcs c' (List.mem_cons_of_mem c hc')
  | cons n ns ih =>
      rw [List.map_cons, List.cons_append, Scopes.walkOnlyMarks, role_node, Scopes.walkOnlyMarks]
      split
      · exact h n (List.mem_cons_self ..) hshape
      · exact ih fun m hm => h m (List.mem_cons_of_mem n hm)

/-- A pair that a name in short form becomes places its value as the
name was placed. -/
theorem walkMarks_pair {k : Construct} (hk : k = .pair ∨ k = .pairPattern) (t : Scopes)
    (scope : Nat) : t.walkMarks scope (r.pair k l cs) = [.placed l.id scope] := by
  rcases hk with rfl | rfl <;> rfl

/-- Only in a part of an export list is a single child walked, its
name. -/
theorem walked_cases (n : Node) :
    (∀ role, (Scopes.entry n).walked = .only role → role = .name)
      ∧ ((Scopes.entry n).walked = .all → n.is .exportSpecifier = false) := by
  unfold Scopes.entry Node.is
  cases hk : n.kind with
  | token text => split <;> simp_all
  | construct c =>
      cases c <;> simp [Construct.isName]
      split <;> simp

/-- The walk of a renamed tree makes the marks of the walk of the tree,
with the declarations under their new names. -/
theorem walkMarks_node (hn : Spelled n) (hshape : t.shape = t'.shape) (scope : Nat) :
    t'.walkMarks scope (r.node n) = (t.walkMarks scope n).map (Mark.map r.binding) := by
  induction n using Node.childrenRec generalizing t t' scope with
  | h l cs ih =>
      cases h : r.hits (.mk l cs) with
      | true =>
          have hname : (Node.mk l cs).kind.isName = true := (Bool.and_eq_true_iff.mp h).1
          rw [Scopes.walkMarks_of_isName hname]
          rcases node_of_hits h with ⟨-, hn⟩ | ⟨-, hn⟩ | ⟨-, hn⟩ <;> rw [hn]
          · exact walkMarks_pair (.inl rfl) t' scope
          · exact walkMarks_pair (.inr rfl) t' scope
          · exact Scopes.walkMarks_of_isName (n := .mk { l with lexeme := r.new } _) hname t' scope
      | false =>
          have hchildren : ∀ c ∈ cs, ∀ {t t' : Scopes} {scope}, t.shape = t'.shape →
              t'.walkMarks scope (r.node c) = (t.walkMarks scope c).map (Mark.map r.binding) :=
            fun c hc _ _ _ hshape => ih c hc (hn.child hc) hshape _
          have hmarks : ((Scopes.entry (.mk l cs)).map r.name).marks t' scope (r.node (.mk l cs))
              = ((Scopes.entry (.mk l cs)).marks t scope (.mk l cs)).map (Mark.map r.binding) :=
            marks_map hshape (by rw [node_of_not_hits h]; rfl) (by rw [node_of_not_hits h]; rfl)
          have hshape' := Scopes.shape_marked_map r.binding hshape
            ((Scopes.entry (.mk l cs)).marks t scope (.mk l cs))
          obtain ⟨honly, hall⟩ := walked_cases (.mk l cs)
          rw [Scopes.walkMarks_eq, entry_node h hn, hmarks, inner_map hshape, Scopes.walkMarks_eq,
            List.map_append]
          have hwalked : ((Scopes.entry (.mk l cs)).map r.name).walked
              = (Scopes.entry (.mk l cs)).walked := rfl
          rw [hwalked]
          congr 1
          dsimp only
          cases hw : (Scopes.entry (.mk l cs)).walked with
          | nothing => rfl
          | all =>
              dsimp only
              rw [children_node h (hall hw)]
              exact walkAllMarks_map hchildren hshape' _
          | only role =>
              obtain rfl := honly role hw
              dsimp only
              rw [node_of_not_hits h]
              refine walkOnlyMarks_map hchildren (fun c hc hrole => ?_) hshape' _
              -- What is added there plays no name.
              rcases role_of_mem_exportedAs hc with hnone | halias
              · rw [hnone] at hrole
                cases hrole
              · rw [halias] at hrole
                cases hrole

/-! ### The names of the renamed tree -/

/-- A renamed child is in the renamed tree. -/
theorem node_mem_preorder_of_child (hc : c ∈ n.children) : r.node c ∈ (r.node n).preorder := by
  have hmap : r.node c ∈ n.children.map r.node := List.mem_map_of_mem hc
  have hvalue : ∀ {k}, r.node c ∈ (r.pair k n.label (n.children.map r.node)).preorder := by
    intro k
    refine Node.mem_preorder.mpr (.inr ⟨r.value n.label (n.children.map r.node), ?_, ?_⟩)
    · exact List.mem_cons_of_mem _ (List.mem_cons_of_mem _ (List.mem_cons_self ..))
    · exact Node.mem_preorder_of_child hmap
  cases h : r.hits n with
  | false =>
      rw [node_of_not_hits h]
      exact Node.mem_preorder_of_child (List.mem_append_left _ hmap)
  | true =>
      rcases node_of_hits h with ⟨-, h⟩ | ⟨-, h⟩ | ⟨-, h⟩ <;> rw [h]
      · exact hvalue
      · exact hvalue
      · exact Node.mem_preorder_of_child hmap

/-- What corresponds to a name is where the name was. -/
theorem name_mem_preorder_self (n : Node) : r.name n ∈ (r.node n).preorder := by
  cases h : r.hits n with
  | false =>
      rw [name_of_not_hits h]
      exact Node.mem_preorder_self _
  | true =>
      cases hshort : n.isShort with
      | false =>
          rw [name_of_not_isShort hshort]
          exact Node.mem_preorder_self _
      | true =>
          rw [name_of_isShort h hshort]
          rcases node_of_hits h with ⟨-, h⟩ | ⟨-, h⟩ | ⟨hfull, -⟩
          · rw [h]
            exact Node.mem_preorder_of_child (by simp [pair, Node.children])
          · rw [h]
            exact Node.mem_preorder_of_child (by simp [pair, Node.children])
          · rw [hfull] at hshort
            cases hshort

/-- What corresponds to a name of the tree is in the renamed tree. -/
theorem name_mem_preorder (hm : m ∈ n.preorder) : r.name m ∈ (r.node n).preorder := by
  induction n using Node.childrenRec with
  | h l cs ih =>
      rcases Node.mem_preorder.mp hm with rfl | ⟨c, hc, hm⟩
      · exact name_mem_preorder_self _
      · exact Node.mem_preorder_trans (node_mem_preorder_of_child hc) (ih c hc hm)

/-- A node of the pair that a name in short form becomes. -/
theorem mem_preorder_pair {k : Construct} (hm : m ∈ (r.pair k l cs).preorder) :
    m = r.value l cs ∨ (∃ i, m.id = r.added i) ∨ ∃ c ∈ cs, m ∈ c.preorder := by
  rcases Node.mem_preorder.mp hm with rfl | ⟨c, hc, hm⟩
  · exact .inr (.inl ⟨_, rfl⟩)
  · rcases List.mem_cons.mp hc with rfl | hc
    · rcases Node.mem_preorder.mp hm with rfl | ⟨d, hd, -⟩
      · exact .inr (.inl ⟨_, rfl⟩)
      · exact absurd hd List.not_mem_nil
    · rcases List.mem_cons.mp hc with rfl | hc
      · rcases Node.mem_preorder.mp hm with rfl | ⟨d, hd, -⟩
        · exact .inr (.inl ⟨_, rfl⟩)
        · exact absurd hd List.not_mem_nil
      · rw [List.mem_singleton.mp hc] at hm
        rcases Node.mem_preorder.mp hm with rfl | hbelow
        · exact .inl rfl
        · exact .inr (.inr hbelow)

/-- What is added to a node has one of the numbers for it. -/
theorem id_of_mem_exportedAs (hc : c ∈ r.exportedAs n) (hm : m ∈ c.preorder) :
    ∃ i, m.id = r.added i := by
  unfold exportedAs at hc
  split at hc
  · have hleaf : ∀ i kind role text, m ∈ (r.leafAt n.label i kind role text).preorder →
        ∃ i, m.id = r.added i := by
      intro i kind role text hm
      rcases Node.mem_preorder.mp hm with rfl | ⟨d, hd, -⟩
      · exact ⟨_, rfl⟩
      · exact absurd hd List.not_mem_nil
    rcases List.mem_cons.mp hc with rfl | hc
    · exact hleaf _ _ _ _ hm
    · rw [List.mem_singleton.mp hc] at hm
      exact hleaf _ _ _ _ hm
  · exact absurd hc List.not_mem_nil

/-- A node of a renamed tree is what corresponds to its root, is added,
or is below a child. -/
theorem mem_preorder_node (hm : m ∈ (r.node n).preorder) :
    m = r.name n ∨ (∃ i, m.id = r.added i) ∨ ∃ c ∈ n.children, m ∈ (r.node c).preorder := by
  -- The children of the new node are those of the old one, each in its new form.
  have hchild : (∃ c ∈ n.children.map r.node, m ∈ c.preorder) →
      ∃ c ∈ n.children, m ∈ (r.node c).preorder := by
    rintro ⟨c', hc', hm⟩
    obtain ⟨c, hc, rfl⟩ := List.mem_map.mp hc'
    exact ⟨c, hc, hm⟩
  cases h : r.hits n with
  | false =>
      rw [node_of_not_hits h] at hm
      rcases Node.mem_preorder.mp hm with hself | ⟨c, hc, hm⟩
      · exact .inl (hself.trans ((name_of_not_hits h).trans (node_of_not_hits h)).symm)
      · rcases List.mem_append.mp hc with hc | hc
        · exact .inr (.inr (hchild ⟨c, hc, hm⟩))
        · exact .inr (.inl (id_of_mem_exportedAs hc hm))
  | true =>
      -- A name in short form becomes the value of the pair, and that is what corresponds to it.
      have hshort : ∀ k, (k = .shorthandPropertyIdentifier ∨ k = .shorthandPropertyIdentifierPattern) →
          n.kind = .construct k → r.name n = r.value n.label (n.children.map r.node) := by
        rintro k (rfl | rfl) hk <;>
          exact name_of_isShort h (by simp [Node.isShort, Node.is, hk])
      rcases node_of_hits h with ⟨hk, hn⟩ | ⟨hk, hn⟩ | ⟨hfull, hn⟩
      · rw [hshort _ (.inl rfl) hk]
        exact (mem_preorder_pair (hn ▸ hm)).imp_right fun h => h.imp_right hchild
      · rw [hshort _ (.inr rfl) hk]
        exact (mem_preorder_pair (hn ▸ hm)).imp_right fun h => h.imp_right hchild
      · rw [name_of_not_isShort hfull]
        rcases Node.mem_preorder.mp hm with hself | hbelow
        · exact .inl hself
        · rw [hn] at hbelow
          exact .inr (.inr (hchild hbelow))

/-- Every name of the renamed tree corresponds to a name of the tree, or
is added. -/
theorem exists_name_of_mem_preorder (hm : m ∈ (r.node n).preorder) (hname : m.kind.isName = true) :
    (∃ k ∈ n.preorder, k.kind.isName = true ∧ m = r.name k) ∨ ∃ i, m.id = r.added i := by
  induction n using Node.childrenRec with
  | h l cs ih =>
      rcases mem_preorder_node hm with rfl | hadded | ⟨c, hc, hm⟩
      · exact .inl ⟨_, Node.mem_preorder_self _, isName_name (.mk l cs) ▸ hname, rfl⟩
      · exact .inr hadded
      · refine (ih c hc hm).imp_left ?_
        rintro ⟨k, hk, h⟩
        exact ⟨k, Node.mem_preorder.mpr (.inr ⟨c, hc, hk⟩), h⟩

end Renaming

end Refactoring

end ScriptRefactor
