import Mathlib.Data.List.Nodup
import Mathlib.Data.List.Pairwise
import ScriptRefactor.Syntax.Node

/-!
# `ScriptRefactor.Proofs.Syntax.Nodes`: the nodes of a tree

`Node.preorder` lists the nodes of a tree. It is the node and then the
lists of its children (`preorder_eq`), so that statements about a tree
go by induction on the nodes (`Node.childrenRec`).

When the numbers of a tree are all different, so are those below each
node, and a number stands below one child only
(`child_eq_of_mem_ids`).
-/

set_option autoImplicit false

namespace ScriptRefactor.Syntax.Node

variable {n m k c : Node}

/-- What holds of a node when it holds of its children holds of every
node. -/
@[elab_as_elim]
theorem childrenRec {P : Node → Prop} (h : ∀ l cs, (∀ c ∈ cs, P c) → P (.mk l cs)) (n : Node) :
    P n :=
  match n with
  | .mk l cs => h l cs fun c _ => childrenRec h c
termination_by sizeOf n
decreasing_by
  have := List.sizeOf_lt_of_mem ‹c ∈ cs›
  simp only [mk.sizeOf_spec]
  omega

/-! ### Nodes in document order -/

/-- The nodes of several trees are those of each in turn. -/
theorem forest_eq_flatMap (ns : List Node) : forest ns = ns.flatMap preorder := by
  induction ns with
  | nil => rfl
  | cons n ns ih => rw [forest, ih, List.flatMap_cons]

/-- A node comes first, and then what is below it. -/
theorem preorder_eq (n : Node) : n.preorder = n :: n.children.flatMap preorder := by
  cases n with
  | mk l cs => rw [preorder, forest_eq_flatMap, children]

/-- A tree is the node and what is below its children. -/
theorem mem_preorder : m ∈ n.preorder ↔ m = n ∨ ∃ c ∈ n.children, m ∈ c.preorder := by
  rw [preorder_eq, List.mem_cons, List.mem_flatMap]

/-- A node is in its own tree. -/
theorem mem_preorder_self (n : Node) : n ∈ n.preorder := mem_preorder.mpr (.inl rfl)

/-- A child is in the tree. -/
theorem mem_preorder_of_child (hc : c ∈ n.children) : c ∈ n.preorder :=
  mem_preorder.mpr (.inr ⟨c, hc, mem_preorder_self c⟩)

/-- What is below a node of a tree is in the tree. -/
theorem mem_preorder_trans (hm : m ∈ n.preorder) (hk : k ∈ m.preorder) : k ∈ n.preorder := by
  induction n using childrenRec with
  | h l cs ih =>
      rcases mem_preorder.mp hm with rfl | ⟨c, hc, hm⟩
      · exact hk
      · exact mem_preorder.mpr (.inr ⟨c, hc, ih c hc hm⟩)

/-- The child in a role is a child. -/
theorem mem_of_child? {role : Role} (h : n.child? role = some c) : c ∈ n.children :=
  List.mem_of_find?_eq_some h

/-- The child in a role has the role. -/
theorem role_of_child? {role : Role} (h : n.child? role = some c) : c.label.role = some role :=
  of_decide_eq_true (List.find?_some (p := fun c : Node => decide (c.label.role = some role)) h)

/-- The first construct among the children is a child. -/
theorem mem_of_firstNamed? (h : n.firstNamed? = some c) : c ∈ n.children :=
  (List.mem_filter.mp (List.mem_of_head? h)).1

/-- The constructs of one kind among the children are children. -/
theorem mem_of_mem_childrenOf {kind : Construct} (h : c ∈ n.childrenOf kind) : c ∈ n.children :=
  (List.mem_filter.mp h).1

/-! ### Nodes with their parents -/

/-- The nodes with parents are those below the top. -/
theorem map_fst_childrenWithParents (parent : Node) (ns : List Node)
    (h : ∀ n ∈ ns, n.withParents.map Prod.fst = n.children.flatMap preorder) :
    (childrenWithParents parent ns).map Prod.fst = ns.flatMap preorder := by
  induction ns with
  | nil => rfl
  | cons n ns ih =>
      rw [childrenWithParents, List.map_cons, List.map_append, h n (by simp),
        ih fun m hm => h m (by simp [hm]), List.flatMap_cons, preorder_eq]
      rfl

/-- The nodes with parents are those below the top. -/
theorem map_fst_withParents (n : Node) :
    n.withParents.map Prod.fst = n.children.flatMap preorder := by
  induction n using childrenRec with
  | h l cs ih =>
      rw [withParents]
      exact map_fst_childrenWithParents _ cs ih

/-- Among nodes with parents, each node is a child of its parent. -/
theorem mem_childrenWithParents {ns : List Node}
    (h : ∀ n ∈ ns, ∀ m k, (m, k) ∈ n.withParents → k ∈ n.preorder ∧ m ∈ k.children)
    (hmk : (m, k) ∈ childrenWithParents n ns) :
    (k = n ∧ m ∈ ns) ∨ ((∃ c ∈ ns, k ∈ c.preorder) ∧ m ∈ k.children) := by
  induction ns with
  | nil => exact absurd hmk List.not_mem_nil
  | cons c cs ih =>
      rw [childrenWithParents] at hmk
      rcases List.mem_cons.mp hmk with hmk | hmk
      · cases hmk
        exact .inl ⟨rfl, List.mem_cons_self ..⟩
      · rcases List.mem_append.mp hmk with hmk | hmk
        · obtain ⟨hk, hm⟩ := h c (List.mem_cons_self ..) m k hmk
          exact .inr ⟨⟨c, List.mem_cons_self .., hk⟩, hm⟩
        · rcases ih (fun d hd => h d (List.mem_cons_of_mem c hd)) hmk with
            ⟨hk, hm⟩ | ⟨⟨d, hd, hk⟩, hm⟩
          · exact .inl ⟨hk, List.mem_cons_of_mem c hm⟩
          · exact .inr ⟨⟨d, List.mem_cons_of_mem c hd, hk⟩, hm⟩

/-- Each node with a parent is a child of it, and the parent is in the
tree. -/
theorem mem_withParents (h : (m, k) ∈ n.withParents) : k ∈ n.preorder ∧ m ∈ k.children := by
  induction n using childrenRec generalizing m k with
  | h l cs ih =>
      rw [withParents] at h
      rcases mem_childrenWithParents (fun c hc _ _ => ih c hc) h with ⟨rfl, hm⟩ | ⟨⟨c, hc, hk⟩, hm⟩
      · exact ⟨mem_preorder_self _, hm⟩
      · exact ⟨mem_preorder.mpr (.inr ⟨c, hc, hk⟩), hm⟩

/-! ### Numbers -/

/-- The numbers in a tree. -/
def ids (n : Node) : List Nat := n.preorder.map id

/-- The numbers in a tree are that of the node and those below it. -/
theorem ids_eq (n : Node) : n.ids = n.id :: n.children.flatMap ids := by
  rw [ids, preorder_eq, List.map_cons, List.map_flatMap]
  rfl

/-- The number of a node of a tree is a number of the tree. -/
theorem id_mem_ids (h : m ∈ n.preorder) : m.id ∈ n.ids := List.mem_map_of_mem h

/-- The numbers below a child are numbers of the tree. -/
theorem mem_ids_of_child {i : Nat} (hc : c ∈ n.children) (hi : i ∈ c.ids) : i ∈ n.ids := by
  rw [ids_eq]
  exact List.mem_cons_of_mem _ (List.mem_flatMap.mpr ⟨c, hc, hi⟩)

/-- Below a child the numbers are all different, too. -/
theorem nodup_ids_of_child (h : n.ids.Nodup) (hc : c ∈ n.children) : c.ids.Nodup := by
  rw [ids_eq] at h
  exact (List.nodup_flatMap.mp (List.nodup_cons.mp h).2).1 c hc

/-- Only one child has a given number in its tree. -/
theorem child_eq_of_mem_ids {d : Node} {i : Nat} (h : n.ids.Nodup) (hc : c ∈ n.children)
    (hd : d ∈ n.children) (hic : i ∈ c.ids) (hid : i ∈ d.ids) : c = d := by
  rw [ids_eq] at h
  by_contra hne
  have hsymm : Std.Symm (Function.onFun List.Disjoint ids) := ⟨fun _ _ h _ hi hj => h hj hi⟩
  exact (List.nodup_flatMap.mp (List.nodup_cons.mp h).2).2.forall hc hd hne hic hid

/-- Nodes of a tree with different numbers are told apart by them. -/
theorem eq_of_id_eq (h : n.ids.Nodup) (hm : m ∈ n.preorder) (hk : k ∈ n.preorder)
    (heq : m.id = k.id) : m = k :=
  List.inj_on_of_nodup_map h hm hk heq

/-- Trees numbered one after the other have the numbers from the first
one on. -/
theorem ids_numberedForest {ns : List Node} (next : Nat)
    (h : ∀ n ∈ ns, ∀ next, (n.numberedFrom next).1.ids = List.range' next n.ids.length
      ∧ (n.numberedFrom next).2 = next + n.ids.length) :
    (numberedForest next ns).1.flatMap ids = List.range' next (ns.flatMap ids).length
      ∧ (numberedForest next ns).2 = next + (ns.flatMap ids).length := by
  induction ns generalizing next with
  | nil => exact ⟨rfl, rfl⟩
  | cons n ns ih =>
      obtain ⟨hids, hafter⟩ := h n (List.mem_cons_self ..) next
      obtain ⟨hrest, hlast⟩ := ih (next + n.ids.length) fun m hm => h m (List.mem_cons_of_mem n hm)
      rw [numberedForest]
      dsimp only
      rw [hafter, List.flatMap_cons, List.flatMap_cons, hids, hrest, hlast, List.length_append]
      exact ⟨by rw [List.range'_append_1], by omega⟩

/-- A numbered tree has the numbers from the first one on. -/
theorem ids_numberedFrom (n : Node) (next : Nat) :
    (n.numberedFrom next).1.ids = List.range' next n.ids.length
      ∧ (n.numberedFrom next).2 = next + n.ids.length := by
  induction n using childrenRec generalizing next with
  | h l cs ih =>
      obtain ⟨hids, hlast⟩ := ids_numberedForest (next + 1) ih
      rw [numberedFrom, ids_eq, ids_eq (.mk l cs), List.length_cons, List.range'_succ]
      refine ⟨congrArg _ hids, ?_⟩
      rw [hlast]
      show next + 1 + (cs.flatMap ids).length = next + ((cs.flatMap ids).length + 1)
      omega

/-- The nodes of a numbered tree have different numbers. -/
theorem nodup_ids_numbered (n : Node) : n.numbered.ids.Nodup := by
  rw [numbered, (ids_numberedFrom n 0).1]
  exact List.nodup_range'

end ScriptRefactor.Syntax.Node
