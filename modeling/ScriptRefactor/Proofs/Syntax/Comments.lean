import ScriptRefactor.Proofs.Syntax.Nodes

/-!
# `ScriptRefactor.Proofs.Syntax.Comments`: trees without their comments

A comment may stand between any two children of a node.
`Node.withoutComments` leaves the comments of a tree out and keeps all
other nodes, with their numbers, roles, spans and texts. Two trees that
are the same without their comments differ in nothing but comments.

A child in a role and the children of a kind are what they are without
the comments (`child?_withoutComments`, `childrenOf_withoutComments`).
The first construct below a node is not, if a comment comes first
(`firstNamed?_withoutComments`).
-/

set_option autoImplicit false

namespace ScriptRefactor.Syntax.Node

variable {n m c : Node} {ns : List Node}

/-- The node is a comment between the parts of the construct above it: it
plays no role, and nothing is below it. -/
def isComment (n : Node) : Bool := n.is .comment && n.label.role.isNone && n.children.isEmpty

mutual

/-- The tree without the comments below its root. -/
def withoutComments : Node → Node
  | .mk l cs => .mk l (commentless cs)

/-- The trees that are no comments, without the comments below them. -/
def commentless : List Node → List Node
  | [] => []
  | n :: ns => if n.isComment then commentless ns else n.withoutComments :: commentless ns

end

/-- The comments are left out, and of the others those below them. -/
theorem commentless_eq_map (ns : List Node) :
    commentless ns = (ns.filter (!·.isComment)).map withoutComments := by
  induction ns with
  | nil => rfl
  | cons n ns ih =>
      rw [commentless, List.filter_cons]
      cases h : n.isComment with
      | true =>
          rw [if_pos rfl]
          exact ih
      | false =>
          rw [if_neg Bool.false_ne_true, ih]
          rfl

/-- A node stays what it is. -/
@[simp]
theorem label_withoutComments (n : Node) : n.withoutComments.label = n.label := by
  cases n
  rfl

/-- The kind of a node stays. -/
@[simp]
theorem kind_withoutComments (n : Node) : n.withoutComments.kind = n.kind :=
  congrArg Label.kind (label_withoutComments n)

/-- The number of a node stays. -/
@[simp]
theorem id_withoutComments (n : Node) : n.withoutComments.id = n.id :=
  congrArg Label.id (label_withoutComments n)

/-- A node covers the bytes that it covered. -/
@[simp]
theorem span_withoutComments (n : Node) : n.withoutComments.span = n.span :=
  congrArg Label.span (label_withoutComments n)

/-- The text of a leaf stays. -/
@[simp]
theorem lexeme_withoutComments (n : Node) : n.withoutComments.lexeme = n.lexeme :=
  congrArg Label.lexeme (label_withoutComments n)

/-- A node is the construct that it was. -/
@[simp]
theorem is_withoutComments (n : Node) (k : Construct) : n.withoutComments.is k = n.is k := by
  rw [is, kind_withoutComments, is]

/-- A construct stays a construct, and a token a token. -/
@[simp]
theorem isNamed_withoutComments (n : Node) : n.withoutComments.isNamed = n.isNamed := by
  rw [isNamed, kind_withoutComments, isNamed]

/-- The children that are no comments stay. -/
theorem children_withoutComments (n : Node) :
    n.withoutComments.children = (n.children.filter (!·.isComment)).map withoutComments := by
  cases n
  exact commentless_eq_map _

/-- What is left below a node comes from a child that is no comment. -/
theorem mem_children_withoutComments :
    c ∈ n.withoutComments.children ↔
      ∃ d ∈ n.children, d.isComment = false ∧ d.withoutComments = c := by
  simp only [children_withoutComments, List.mem_map, List.mem_filter, Bool.not_eq_true', and_assoc]

/-- A child that is no comment is left. -/
theorem withoutComments_mem_children (hc : c ∈ n.children) (h : c.isComment = false) :
    c.withoutComments ∈ n.withoutComments.children :=
  mem_children_withoutComments.mpr ⟨c, hc, h, rfl⟩

/-! ### Comments -/

/-- A comment is a construct. -/
theorem kind_of_isComment (h : n.isComment = true) : n.kind = .construct .comment := by
  rw [isComment, Bool.and_eq_true, Bool.and_eq_true] at h
  exact of_decide_eq_true h.1.1

/-- A comment plays no role. -/
theorem role_of_isComment (h : n.isComment = true) : n.label.role = none := by
  rw [isComment, Bool.and_eq_true, Bool.and_eq_true] at h
  exact Option.isNone_iff_eq_none.mp h.1.2

/-- Nothing is below a comment. -/
theorem children_of_isComment (h : n.isComment = true) : n.children = [] := by
  rw [isComment, Bool.and_eq_true] at h
  exact List.isEmpty_iff.mp h.2

/-- A comment is no other construct. -/
theorem isComment_of_is {k : Construct} (hk : k ≠ .comment) (h : n.is k = true) :
    n.isComment = false := by
  refine Bool.eq_false_iff.mpr fun hcomment => hk ?_
  have hkind : n.kind = .construct k := of_decide_eq_true h
  exact Kind.construct.inj (hkind.symm.trans (kind_of_isComment hcomment))

/-- What plays a role is no comment. -/
theorem isComment_of_role {role : Role} (h : n.label.role = some role) : n.isComment = false := by
  refine Bool.eq_false_iff.mpr fun hcomment => ?_
  rw [role_of_isComment hcomment] at h
  cases h

/-! ### Parts of a node -/

/-- The child in a role is the same with and without comments. -/
theorem child?_withoutComments (n : Node) (role : Role) :
    n.withoutComments.child? role = (n.child? role).map withoutComments := by
  rw [child?, children_withoutComments, List.find?_map, List.find?_filter, child?]
  congr 2
  funext c
  simp only [Function.comp_apply, label_withoutComments]
  by_cases hrole : c.label.role = some role
  · simp [hrole, isComment_of_role hrole]
  · simp [hrole]

/-- The children of a kind are the same with and without comments. -/
theorem childrenOf_withoutComments {k : Construct} (hk : k ≠ .comment) (n : Node) :
    n.withoutComments.childrenOf k = (n.childrenOf k).map withoutComments := by
  rw [childrenOf, children_withoutComments, List.filter_map, List.filter_filter, childrenOf]
  congr 2
  funext c
  cases h : c.is k with
  | false => simp [h]
  | true => simp [h, isComment_of_is hk h]

/-- The constructs below a node are those that are no comments. -/
theorem namedChildren_withoutComments (n : Node) :
    n.withoutComments.namedChildren
      = (n.namedChildren.filter (!·.isComment)).map withoutComments := by
  rw [namedChildren, children_withoutComments, List.filter_map, List.filter_filter, namedChildren,
    List.filter_filter]
  congr 2
  funext c
  simp [Bool.and_comm]

/-- The first construct is the same without comments if it is no comment
itself. -/
theorem firstNamed?_withoutComments (h : n.firstNamed?.any isComment = false) :
    n.withoutComments.firstNamed? = n.firstNamed?.map withoutComments := by
  rw [firstNamed?, namedChildren_withoutComments, firstNamed?]
  rw [firstNamed?] at h
  cases hnamed : n.namedChildren with
  | nil => rfl
  | cons c cs =>
      rw [hnamed] at h
      have hc : c.isComment = false := h
      rw [List.filter_cons, hc]
      rfl

/-- A tree in whose comments there is nothing has none left to leave out. -/
theorem withoutComments_withoutComments
    (h : ∀ m ∈ n.preorder, m.is .comment = true → m.children = []) :
    n.withoutComments.withoutComments = n.withoutComments := by
  induction n using childrenRec with
  | h l cs ih =>
      have hbelow : ∀ c ∈ cs, c.withoutComments.withoutComments = c.withoutComments := by
        intro c hc
        exact ih c hc fun m hm => h m (mem_preorder.mpr (.inr ⟨c, hc, hm⟩))
      -- With no children left out of it, what is no comment does not become one.
      have hleft : ∀ c ∈ cs, c.isComment = false → c.withoutComments.isComment = false := by
        intro c hc hcomment
        refine Bool.eq_false_iff.mpr fun hleft => Bool.eq_false_iff.mp hcomment ?_
        have hkind : c.is .comment = true := by
          rw [← is_withoutComments, is, kind_of_isComment hleft, decide_eq_true rfl]
        have hrole : c.label.role = none := by
          rw [← label_withoutComments, role_of_isComment hleft]
        rw [isComment, hkind, hrole, h c (mem_preorder_of_child (c := c) hc) hkind]
        rfl
      -- So the children that are left are all left again.
      have hcs : commentless (commentless cs) = commentless cs := by
        clear h ih
        induction cs with
        | nil => rfl
        | cons c cs ih =>
            have hrest := ih (fun d hd => hbelow d (List.mem_cons_of_mem c hd))
              fun d hd => hleft d (List.mem_cons_of_mem c hd)
            rw [commentless]
            cases hc : c.isComment with
            | true =>
                rw [if_pos rfl]
                exact hrest
            | false =>
                rw [if_neg Bool.false_ne_true, commentless, hleft c (List.mem_cons_self ..) hc,
                  if_neg Bool.false_ne_true, hrest, hbelow c (List.mem_cons_self ..)]
      rw [withoutComments, withoutComments, hcs]

/-! ### Numbers -/

/-- The numbers of several trees are left in order. -/
theorem flatMap_ids_withoutComments_sublist
    (h : ∀ n ∈ ns, (n.withoutComments.ids).Sublist n.ids) :
    (((ns.filter (!·.isComment)).map withoutComments).flatMap ids).Sublist (ns.flatMap ids) := by
  induction ns with
  | nil => exact List.Sublist.slnil
  | cons n ns ih =>
      have hns := ih fun m hm => h m (List.mem_cons_of_mem n hm)
      rw [List.filter_cons, List.flatMap_cons]
      split
      · rw [List.map_cons, List.flatMap_cons]
        exact (h n (List.mem_cons_self ..)).append hns
      · exact hns.trans (List.sublist_append_right _ _)

/-- The numbers of a tree are left in order. -/
theorem ids_withoutComments_sublist (n : Node) : (n.withoutComments.ids).Sublist n.ids := by
  induction n using childrenRec with
  | h l cs ih =>
      rw [ids_eq, ids_eq (.mk l cs), children_withoutComments]
      exact (flatMap_ids_withoutComments_sublist ih).cons_cons _

/-- The numbers that are left are all different if they were. -/
theorem nodup_ids_withoutComments (h : n.ids.Nodup) : n.withoutComments.ids.Nodup :=
  h.sublist (ids_withoutComments_sublist n)

/-- A number that is left was there. -/
theorem mem_ids_of_withoutComments {i : Nat} (h : i ∈ n.withoutComments.ids) : i ∈ n.ids :=
  (ids_withoutComments_sublist n).subset h

end ScriptRefactor.Syntax.Node
