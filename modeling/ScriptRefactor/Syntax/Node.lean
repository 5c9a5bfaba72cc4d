import ScriptRefactor.Syntax.Kind

/-!
# `ScriptRefactor.Syntax.Node`: syntax trees

A node carries a label and its children in text order. The words and
marks of the text are leaves and hold their text, so the names in a
tree can be read without the source; white space is not in the tree
at all. Comments are nodes too, and may stand between any two
children.

* `Node.child?` is the child that plays a given role, such as the
  name of a declaration.
* `Node.preorder` lists a node and all below it in document order,
  parents first.
* `Node.numbered` gives every node its place in that order as its
  identity: two nodes of a numbered tree are the same exactly if
  their numbers are.
-/

set_option autoImplicit false

namespace ScriptRefactor.Syntax

/-- The part a child plays in the construct above it. Children whose
part nothing asks for have none. -/
inductive Role where
  | alias | body | declaration | key | kind | left | name | parameter | parameters | pattern
  | source | value
deriving DecidableEq, Repr

/-- What a node is and where it stands. -/
structure Label where
  /-- The number of the node in its tree. -/
  id : Nat
  /-- What the node is. -/
  kind : Kind
  /-- The part it plays in the node above. -/
  role : Option Role
  /-- The bytes it covers. -/
  span : Span
  /-- The text of a leaf. -/
  lexeme : String
deriving DecidableEq, Repr, Inhabited

/-- A node of a syntax tree. -/
inductive Node where
  | mk (label : Label) (children : List Node)
deriving Repr, Inhabited

namespace Node

/-! ### Parts of a node -/

/-- What the node is and where it stands. -/
def label : Node → Label
  | .mk l _ => l

/-- The nodes directly below, in text order. -/
def children : Node → List Node
  | .mk _ cs => cs

/-- The number of the node. -/
def id (n : Node) : Nat := n.label.id

/-- What the node is. -/
def kind (n : Node) : Kind := n.label.kind

/-- The bytes the node covers. -/
def span (n : Node) : Span := n.label.span

/-- The first byte of the node. -/
def start (n : Node) : Nat := n.span.start

/-- The byte behind the node. -/
def stop (n : Node) : Nat := n.span.stop

/-- The text of a leaf. -/
def lexeme (n : Node) : String := n.label.lexeme

/-- The node is the given construct. -/
def is (n : Node) (c : Construct) : Bool := n.kind = .construct c

/-- The node is a construct, not a token. -/
def isNamed (n : Node) : Bool := n.kind.isNamed

/-- The children that are constructs. -/
def namedChildren (n : Node) : List Node := n.children.filter isNamed

/-- The child in the given role. -/
def child? (n : Node) (role : Role) : Option Node :=
  n.children.find? fun c => c.label.role = some role

/-- The first construct among the children. -/
def firstNamed? (n : Node) : Option Node := n.namedChildren.head?

/-- The constructs of one kind among the children. -/
def childrenOf (n : Node) (c : Construct) : List Node := n.children.filter (·.is c)

/-- The first child that is the given construct. -/
def childOf? (n : Node) (c : Construct) : Option Node := n.children.find? (·.is c)

/-! ### All nodes -/

mutual

/-- The node and all nodes below it, parents first. -/
def preorder : Node → List Node
  | .mk l cs => .mk l cs :: forest cs

/-- The nodes of several trees, one tree after the other. -/
def forest : List Node → List Node
  | [] => []
  | n :: ns => n.preorder ++ forest ns

end

mutual

/-- The parent of each node below, with the node. -/
def withParents : Node → List (Node × Node)
  | .mk l cs => childrenWithParents (.mk l cs) cs

/-- The nodes of the trees `ns`, which stand below `parent`, each with
its parent. -/
def childrenWithParents (parent : Node) : List Node → List (Node × Node)
  | [] => []
  | n :: ns => (n, parent) :: (n.withParents ++ childrenWithParents parent ns)

end

mutual

/-- The tree with its nodes numbered in document order from `next`
on, and the first number left. -/
def numberedFrom (next : Nat) : Node → Node × Nat
  | .mk l cs =>
    let (cs, after) := numberedForest (next + 1) cs
    (.mk { l with id := next } cs, after)

/-- The trees with their nodes numbered one after the other. -/
def numberedForest (next : Nat) : List Node → List Node × Nat
  | [] => ([], next)
  | n :: ns =>
    let (n, after) := n.numberedFrom next
    let (ns, last) := numberedForest after ns
    (n :: ns, last)

end

/-- The tree with its nodes numbered in document order. -/
def numbered (n : Node) : Node := (n.numberedFrom 0).1

/-! ### Building nodes -/

/-- A leaf of the given kind that starts at `start`. -/
def leaf (kind : Kind) (start : Nat) (text : String) : Node :=
  .mk ⟨0, kind, none, ⟨start, start + text.utf8ByteSize⟩, text⟩ []

/-- A word or mark that starts at `start`. -/
def token (start : Nat) (text : String) : Node := leaf (.token text) start text

/-- A construct over its children, from the first to the position
`stop`. -/
def branchTo (c : Construct) (children : List Node) (stop : Nat) : Node :=
  .mk ⟨0, .construct c, none, ⟨(children.head?.map start).getD stop, stop⟩, ""⟩ children

/-- A construct over its children, from the first to the last. -/
def branch (c : Construct) (children : List Node) : Node :=
  branchTo c children ((children.getLast?.map stop).getD 0)

/-- The node in a role. -/
def inRole (role : Role) : Node → Node
  | .mk l cs => .mk { l with role := some role } cs

/-- The same node as another kind of construct. -/
def becomes (c : Construct) : Node → Node
  | .mk l cs => .mk { l with kind := .construct c } cs

end Node

end ScriptRefactor.Syntax
