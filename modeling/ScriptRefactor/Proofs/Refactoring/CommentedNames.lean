import ScriptRefactor.Proofs.Refactoring.LinkBatches
import ScriptRefactor.Proofs.Refactoring.RenamedDeclarations
import ScriptRefactor.Proofs.Scope.CommentedScopes

/-!
# `ScriptRefactor.Proofs.Refactoring.CommentedNames`: declared names and comments

The walk of a tree finds the first construct of a rest pattern, of the import
of a whole module and of the clause of an import by its place, and all other
names by their role. The transforms of imports find the same names by their
kind. A comment in the first place parts the two: the walk takes it for the
name, declares nothing, and the name is lost.

* Two trees that differ in comments only bind the same exactly if none of them
  loses a name that is the first in its scope to declare its text in the other
  (`bindings_eq_iff`).
* A local name of an import that the walk meets (`Met`) is declared exactly if
  it is not lost (`declares_iff`).
* `comments_keep_bindings_iff` puts the two together, and
  `comments_lose_bindings` is the import of a whole module, and a parameter,
  behind a comment.
-/

set_option autoImplicit false

namespace ScriptRefactor

open Syntax

/-- What the grammar says of the names in imports, wherever comments stand. -/
structure Syntax.Tree.NamesFirst (t : Tree) : Prop where
  /-- A clause with a default name starts with a name. -/
  front : ∀ c ∈ t.nodes, c.is .importClause = true → (c.childOf? .identifier).isSome = true →
    (c.namedChildren.find? (!·.isComment)).any (·.is .identifier) = true
  /-- The import of a whole module holds nothing but its name. -/
  whole : ∀ w ∈ t.nodes, w.is .namespaceImport = true → (w.childOf? .identifier).isSome = true →
    (w.namedChildren.find? (!·.isComment)).any (·.is .identifier) = true
  /-- An entry of a list gives a name. -/
  listed : ∀ e ∈ t.nodes, e.is .importSpecifier = true →
    ∀ own ∈ Refactoring.localName? e, own.kind.isName = true

instance (t : Tree) : Decidable t.NamesFirst :=
  decidable_of_iff ((∀ c ∈ t.nodes, c.is .importClause = true →
        (c.childOf? .identifier).isSome = true →
        (c.namedChildren.find? (!·.isComment)).any (·.is .identifier) = true)
      ∧ (∀ w ∈ t.nodes, w.is .namespaceImport = true → (w.childOf? .identifier).isSome = true →
        (w.namedChildren.find? (!·.isComment)).any (·.is .identifier) = true)
      ∧ ∀ e ∈ t.nodes, e.is .importSpecifier = true →
        ∀ own ∈ Refactoring.localName? e, own.kind.isName = true)
    ⟨fun ⟨h1, h2, h3⟩ => ⟨h1, h2, h3⟩, fun h => ⟨h.front, h.whole, h.listed⟩⟩

namespace Scopes

variable {root root' n m s x : Node} {ns : List Node} {t : Scopes} {i k scope : Nat}

/-! ### Bindings that are kept -/

/-- If two trees bind the same, none of them loses a name that is the first to
declare its text in the other. -/
theorem not_declaresFirst_of_bindings (hids' : root'.ids.Nodup) (hspans : root.SpansNested)
    (hspans' : root'.SpansNested)
    (hbindings : ∀ name k, (ofTree root').binding? name k = (ofTree root).binding? name k)
    (hx : x ∈ lostNames root') : ¬ DeclaresFirst root x := by
  rintro ⟨k, kind, hfirst⟩
  -- What the first tree binds by the lost name, the other binds by it, too.
  have hbinding := hbindings x.lexeme k
  rw [binding?_ofTree hspans, binding?_ofTree hspans', hfirst] at hbinding
  obtain ⟨m, hm, hdeclared⟩ := List.exists_of_findSome?_eq_some hbinding
  obtain ⟨rfl, -⟩ := eq_of_declared? hdeclared
  have hkept := loses_of_declared hids' hm
  have hid : (x.binding kind).node = x.id := rfl
  rw [hid, loses_of_mem_lostNames hx] at hkept
  cases hkept

/-- If none of the lost names of a tree is the first to declare its text in the
other, what declares first there is not lost. -/
theorem loses_of_first {name : String} {b : Binding}
    (hsame : root'.withoutComments = root.withoutComments) (hids : root.ids.Nodup)
    (hfirst : ∀ x ∈ lostNames root', ¬ DeclaresFirst root x)
    (hb : (treeMarks root).findSome? (Mark.declared? name k) = some b) :
    loses root' b.node = false := by
  refine Bool.eq_false_iff.mpr fun hloses => ?_
  obtain ⟨x, hx, hid⟩ := List.any_eq_true.mp hloses
  have hid : x.id = b.node := of_decide_eq_true hid
  obtain ⟨m, hm, hdeclared⟩ := List.exists_of_findSome?_eq_some hb
  obtain ⟨rfl, hname⟩ := eq_of_declared? hdeclared
  -- The lost name is the node that declares, in the tree without comments.
  rw [treeMarks_withoutComments hids] at hm
  obtain ⟨y, hy, -, kind, rfl⟩ := declared_of_mem_treeMarks (List.mem_filter.mp hm).1
  have hx' : x ∈ root.withoutComments.preorder := hsame ▸ mem_preorder_of_mem_lostNames hx
  obtain rfl := Node.eq_of_id_eq (Node.nodup_ids_withoutComments hids) hx' hy hid
  refine hfirst x hx ⟨k, kind, ?_⟩
  rw [show x.lexeme = name from hname]
  exact hb

/-- Trees that differ in comments bind the same exactly if none of them loses a
name that is the first to declare its text in the other. -/
theorem bindings_eq_iff (hsame : root'.withoutComments = root.withoutComments)
    (hids : root.ids.Nodup) (hids' : root'.ids.Nodup) (hspans : root.SpansNested)
    (hspans' : root'.SpansNested) :
    (∀ name k, (ofTree root').binding? name k = (ofTree root).binding? name k)
      ↔ (∀ x ∈ lostNames root', ¬ DeclaresFirst root x)
        ∧ ∀ x ∈ lostNames root, ¬ DeclaresFirst root' x := by
  constructor
  · intro hbindings
    have hback := fun name k => (hbindings name k).symm
    exact ⟨fun x => not_declaresFirst_of_bindings hids' hspans hspans' hbindings,
      fun x => not_declaresFirst_of_bindings hids hspans' hspans hback⟩
  · rintro ⟨hlost', hlost⟩ name k
    have hkept : ∀ b, (treeMarks root).findSome? (Mark.declared? name k) = some b →
        loses root' b.node = false := fun b => loses_of_first hsame hids hlost'
    have hkept' : ∀ b, (treeMarks root').findSome? (Mark.declared? name k) = some b →
        loses root b.node = false := fun b => loses_of_first hsame.symm hids' hlost
    rw [treeMarks_withoutComments hids] at hkept
    rw [treeMarks_withoutComments hids', hsame] at hkept'
    rw [binding?_ofTree hspans, binding?_ofTree hspans', treeMarks_withoutComments hids',
      treeMarks_withoutComments hids, hsame]
    exact findSome?_filter_kept hkept hkept'

/-! ### Nodes that the walk meets -/

/-- The walk of a module comes to the node. -/
inductive Met (root : Node) : Node → Prop where
  /-- The walk starts with the statements of the module. -/
  | statement {n : Node} (hn : n ∈ root.children) : Met root n
  /-- It goes on with the children of a node that is walked as a whole. -/
  | child {n c : Node} (hn : Met root n) (hwalked : (entry n).walked = .all)
      (hc : c ∈ n.children) : Met root c
  /-- Or it goes on with the one child in a role. -/
  | inRole {n c : Node} {role : Role} (hn : Met root n) (hwalked : (entry n).walked = .only role)
      (hc : n.child? role = some c) : Met root c

/-- The marks of each of some nodes are made. -/
theorem exists_walkMarks_subset (hn : n ∈ ns) (t : Scopes) (scope : Nat) :
    ∃ t' : Scopes, t'.walkMarks scope n ⊆ t.walkAllMarks scope ns := by
  induction ns generalizing t with
  | nil => exact absurd hn List.not_mem_nil
  | cons m ns ih =>
      rw [walkAllMarks]
      rcases List.mem_cons.mp hn with rfl | hn
      · exact ⟨t, List.subset_append_left _ _⟩
      · obtain ⟨t', ht'⟩ := ih hn (t.marked (t.walkMarks scope m))
        exact ⟨t', List.Subset.trans ht' (List.subset_append_right _ _)⟩

/-- The node in a role makes its marks. -/
theorem walkOnlyMarks_eq {role : Role} (h : ns.find? (·.label.role = some role) = some n)
    (t : Scopes) (scope : Nat) : t.walkOnlyMarks scope role ns = t.walkMarks scope n := by
  induction ns with
  | nil => cases h
  | cons m ns ih =>
      rw [List.find?_cons] at h
      rw [walkOnlyMarks]
      by_cases hrole : m.label.role = some role
      · rw [decide_eq_true hrole] at h
        obtain rfl := Option.some.inj h
        exact if_pos hrole
      · rw [decide_eq_false hrole] at h
        rw [if_neg hrole]
        exact ih h

/-- A node that the walk comes to makes its marks. -/
theorem Met.exists_subset (h : Met root n) :
    ∃ (t : Scopes) (scope : Nat), t.walkMarks scope n ⊆ treeMarks root := by
  induction h with
  | statement hn =>
      obtain ⟨t, ht⟩ := exists_walkMarks_subset hn (moduleScope root) 0
      exact ⟨t, 0, ht⟩
  | @child n c _ hwalked hc ih =>
      obtain ⟨t, scope, hsub⟩ := ih
      obtain ⟨t', ht'⟩ := exists_walkMarks_subset hc (t.marked ((entry n).marks t scope n))
        ((entry n).inner t scope)
      rw [walkMarks_eq, hwalked] at hsub
      exact ⟨t', _, List.Subset.trans ht' (List.Subset.trans (List.subset_append_right _ _) hsub)⟩
  | @inRole n c role _ hwalked hc ih =>
      obtain ⟨t, scope, hsub⟩ := ih
      rw [walkMarks_eq, hwalked] at hsub
      refine ⟨t.marked ((entry n).marks t scope n), (entry n).inner t scope, ?_⟩
      rw [← walkOnlyMarks_eq hc]
      exact List.Subset.trans (List.subset_append_right _ _) hsub

/-- A node that the walk comes to is below a statement of the module. -/
theorem Met.exists_statement (h : Met root n) : ∃ c ∈ root.children, n ∈ c.preorder := by
  induction h with
  | @statement n hn => exact ⟨n, hn, Node.mem_preorder_self n⟩
  | child _ _ hc ih =>
      obtain ⟨d, hd, hn⟩ := ih
      exact ⟨d, hd, Node.mem_preorder_trans hn (Node.mem_preorder_of_child hc)⟩
  | inRole _ _ hc ih =>
      obtain ⟨d, hd, hn⟩ := ih
      exact ⟨d, hd, Node.mem_preorder_trans hn (Node.mem_preorder_of_child (Node.mem_of_child? hc))⟩

/-- A node below one that is not walked, and is no name itself, is never
placed. -/
theorem placed_not_mem_walkMarks (hn : n.ids.Nodup) (hs : s ∈ n.preorder)
    (hwalked : (entry s).walked = .nothing) (hplaces : (entry s).places = false) (hi : i ∈ s.ids) :
    .placed i k ∉ t.walkMarks scope n := by
  have hentry : ∀ {m : Node} {t : Scopes} {scope : Nat}, .placed i k ∈ (entry m).marks t scope m →
      (entry m).places = true ∧ i = m.id := by
    intro m t scope h
    simp only [Entry.marks, Entry.opening, declaring, List.mem_append, List.mem_map] at h
    rcases h with (((⟨_, _, h⟩ | ⟨_, _, h⟩) | ⟨_, _, h⟩) | ⟨_, _, h⟩) | h
    · cases h
    · cases h
    · cases h
    · cases h
    · split at h
      · exact ⟨‹_›, (Mark.placed.inj (List.mem_singleton.mp h)).1⟩
      · exact absurd h List.not_mem_nil
  induction n using Node.childrenRec generalizing t scope with
  | h l cs ih =>
      intro h
      rcases Node.mem_preorder.mp hs with rfl | ⟨c, hc, hs⟩
      · rcases mem_walkMarks_cases h with h | ⟨hw, -⟩
        · rw [(hentry h).1] at hplaces
          cases hplaces
        · exact hw hwalked
      · have hic : i ∈ c.ids := by
          obtain ⟨m, hm, rfl⟩ := List.mem_map.mp hi
          exact Node.id_mem_ids (Node.mem_preorder_trans hs hm)
        rcases mem_walkMarks_cases h with h | ⟨-, d, hd, t', scope', h⟩
        · -- The numbers below a child are none of the node itself.
          rw [Node.ids_eq] at hn
          refine (List.nodup_cons.mp hn).1 (List.mem_flatMap.mpr ⟨c, hc, ?_⟩)
          rw [← (hentry h).2]
          exact hic
        · obtain rfl := Node.child_eq_of_mem_ids hn hc hd hic (placed_mem_ids h)
          exact ih c hc (Node.nodup_ids_of_child hn hc) hs h

end Scopes

namespace Refactoring

open Scopes (lostNames loses importedNames importedName? treeMarks ofTree Met)

variable {t : Tree} {n s x : Node} {p : ImportParts} {k : Construct}

/-! ### Names of an import -/

/-- The nodes of the names that an import binds. -/
def ImportParts.localNames (p : ImportParts) : List Node :=
  p.default?.toList ++ p.wholeName?.toList ++ p.specifiers.filterMap localName?

/-- If the first construct that is no comment is of a kind, it is the child of
that kind that is found. -/
theorem find?_eq_childOf? (hk : k ≠ .comment) (hx : n.childOf? k = some x)
    (h : (n.namedChildren.find? (!·.isComment)).any (·.is k) = true) :
    n.namedChildren.find? (!·.isComment) = some x := by
  rw [Node.namedChildren, List.find?_filter] at h ⊢
  rw [Node.childOf?] at hx
  generalize n.children = cs at h hx
  induction cs with
  | nil => cases hx
  | cons c cs ih =>
      rw [List.find?_cons] at h hx ⊢
      cases hc : decide (c.isNamed = true ∧ (!c.isComment) = true) with
      | true =>
          rw [hc] at h
          have hkind : c.is k = true := h
          rw [hkind] at hx
          exact hx
      | false =>
          -- A token and a comment are not of the kind.
          have hother : c.is k = false := by
            refine Bool.eq_false_iff.mpr fun hkind => ?_
            have hnamed : c.isNamed = true := by
              rw [Node.isNamed, of_decide_eq_true hkind]
              rfl
            exact of_decide_eq_false hc ⟨hnamed, by rw [Node.isComment_of_is hk hkind]; rfl⟩
          rw [hc] at h
          rw [hother] at hx
          exact ih h hx

/-- The first construct that is no comment is the first one, or a comment comes
first. -/
theorem firstNamed?_of_find? (h : n.namedChildren.find? (!·.isComment) = some x) :
    (n.firstNamed?.any Node.isComment = false ∧ n.firstNamed? = some x)
      ∨ (n.firstNamed?.any Node.isComment = true
        ∧ n.withoutComments.firstNamed? = some x.withoutComments) := by
  have hclean : n.withoutComments.firstNamed? = some x.withoutComments := by
    rw [Node.firstNamed?, Node.namedChildren_withoutComments, List.head?_map, List.head?_filter, h]
    rfl
  cases hany : n.firstNamed?.any Node.isComment with
  | true => exact .inr ⟨rfl, hclean⟩
  | false =>
      refine .inl ⟨rfl, ?_⟩
      rw [Node.firstNamed?] at hany ⊢
      cases hnamed : n.namedChildren with
      | nil =>
          rw [hnamed] at h
          cases h
      | cons c cs =>
          rw [hnamed] at h hany
          have hc : c.isComment = false := hany
          rw [List.find?_cons, hc] at h
          exact h

/-- A name that a construct of an import binds in the first place is declared
by it, or lost. -/
theorem importedName?_of_first (hn : n ∈ t.nodes) (hbinds : n.bindsFirst = true)
    (hfirst : n.namedChildren.find? (!·.isComment) = some x)
    (himported : ∀ m y : Node, m.kind = n.kind → y.kind = x.kind → m.firstNamed? = some y →
      importedName? m = some y)
    (hkept : loses t.root x.id = false) : importedName? n = some x := by
  rcases firstNamed?_of_find? hfirst with ⟨-, hname⟩ | ⟨hany, hname⟩
  · exact himported n x rfl rfl hname
  · have hopen : n.opensWithComment = true := by
      rw [Node.opensWithComment, hbinds, hany]
      rfl
    have hbehind := himported n.withoutComments x.withoutComments (Node.kind_withoutComments n)
      (Node.kind_withoutComments x) hname
    have hlost := Scopes.loses_of_mem_namesBehind hn hopen
      (List.mem_append_right _ (Option.mem_toList.mpr hbehind))
    rw [Node.id_withoutComments, hkept] at hlost
    cases hlost

/-- A local name of an import stands in the clause or behind the mark of the
whole module, or is the local name of an entry. -/
theorem ImportParts.exists_part (hp : of? s = some p) (hx : x ∈ p.localNames) :
    ∃ m ∈ s.preorder,
      ((m.is .importClause = true ∨ m.is .namespaceImport = true)
          ∧ m.childOf? .identifier = some x)
        ∨ (m.is .importSpecifier = true ∧ localName? m = some x) := by
  obtain ⟨-, hclause, hdefault, hwhole, hlist, -⟩ := of?_eq_some hp
  obtain ⟨hclauseChild, hclauseKind⟩ := of_childOf? hclause
  have hclauseBelow := Node.mem_preorder_of_child hclauseChild
  rcases List.mem_append.mp hx with hx | hx
  · rcases List.mem_append.mp hx with hx | hx
    · exact ⟨p.clause, hclauseBelow, .inl ⟨.inl hclauseKind, hdefault ▸ Option.mem_toList.mp hx⟩⟩
    · obtain ⟨w, hw, hown⟩ := Option.bind_eq_some_iff.mp (Option.mem_toList.mp hx)
      obtain ⟨hwChild, hwKind⟩ := of_childOf? (hwhole ▸ hw)
      exact ⟨w, Node.mem_preorder_trans hclauseBelow (Node.mem_preorder_of_child hwChild),
        .inl ⟨.inr hwKind, hown⟩⟩
  · obtain ⟨e, he, hown⟩ := List.mem_filterMap.mp hx
    obtain ⟨list, hl, he⟩ := exists_list hp he
    have hlBelow := Node.mem_preorder_of_child (of_childOf? (hlist ▸ hl)).1
    have heBelow := Node.mem_preorder_of_child (Node.mem_of_mem_childrenOf he)
    exact ⟨e, Node.mem_preorder_trans hclauseBelow (Node.mem_preorder_trans hlBelow heBelow),
      .inr ⟨(List.mem_filter.mp he).2, hown⟩⟩

/-- A local name of an import is in the import. -/
theorem ImportParts.mem_preorder_of_mem_localNames (hp : of? s = some p)
    (hx : x ∈ p.localNames) : x ∈ s.preorder := by
  obtain ⟨m, hm, ⟨-, hown⟩ | ⟨-, hown⟩⟩ := exists_part hp hx
  · exact Node.mem_preorder_trans hm (Node.mem_preorder_of_child (of_childOf? hown).1)
  · refine Node.mem_preorder_trans hm ?_
    rcases Option.or_eq_some_iff.mp hown with hown | ⟨-, hown⟩ <;>
      exact Node.mem_preorder_of_child (Node.mem_of_child? hown)

/-- A local name of an import that is not lost is among the names that the walk
declares for the import. -/
theorem ImportParts.mem_importedNames (ht : t.NamesFirst) (hs : s ∈ t.nodes)
    (hp : of? s = some p) (hx : x ∈ p.localNames) (hkept : loses t.root x.id = false) :
    x ∈ importedNames s ∧ x.kind.isName = true := by
  obtain ⟨m, hm, ⟨hkind, hown⟩ | ⟨hkind, hown⟩⟩ := exists_part hp hx
  · -- The walk finds the name by its place: it is the first construct, or lost.
    have hident := (of_childOf? hown).2
    have hnode : m ∈ t.nodes := Node.mem_preorder_trans hs hm
    have hbinds : m.bindsFirst = true := by
      rcases hkind with hkind | hkind <;> simp [Node.bindsFirst, hkind]
    have hsome := Option.isSome_of_mem hown
    have hfirst := find?_eq_childOf? (by decide) hown
      (hkind.elim (fun hkind => ht.front m hnode hkind hsome) fun hkind => ht.whole m hnode hkind hsome)
    refine ⟨List.mem_filterMap.mpr ⟨m, hm, ?_⟩, ?_⟩
    · refine importedName?_of_first hnode hbinds hfirst (fun n y hn hy hny => ?_) hkept
      rw [importedName?, hn]
      rcases hkind with hkind | hkind <;> rw [of_decide_eq_true hkind] <;> dsimp only
      · rw [hny, Option.filter_some, Node.is, hy, ← Node.is, if_pos hident]
      · exact hny
    · rw [of_decide_eq_true hident]
      rfl
  · -- The walk finds the name by its role, which no comment takes.
    refine ⟨List.mem_filterMap.mpr ⟨m, hm, ?_⟩,
      ht.listed m (Node.mem_preorder_trans hs hm) hkind x hown⟩
    rw [importedName?, of_decide_eq_true hkind]
    exact hown

/-- The scopes declare the text of a node in the scope that the node is looked
up from. -/
def DeclaresNode (t : Tree) (x : Node) : Prop :=
  ∃ k, (ofTree t.root).scopeOf? x.id = some k
    ∧ ((ofTree t.root).binding? (t.text x) k).isSome = true

/-- A lost name of an import has no place: it is not declared, and an import is
not walked. -/
theorem scopeOf?_of_loses (hids : t.root.ids.Nodup) (hs : Met t.root s)
    (himport : s.is .importStatement = true) (hx : x ∈ s.preorder)
    (hlost : loses t.root x.id = true) : (ofTree t.root).scopeOf? x.id = none := by
  refine Option.eq_none_iff_forall_ne_some.mpr fun k hplace => ?_
  obtain ⟨⟨i, k'⟩, hmem, -⟩ := Option.map_eq_some_iff.mp hplace
  obtain rfl : i = x.id := by simpa using List.find?_some hmem
  have hmem := List.mem_of_find?_eq_some hmem
  rw [Scopes.ofTree_eq_marked] at hmem
  rcases Scopes.mem_places_marked hmem with hmem | ⟨b, hb, hid⟩ | hplaced
  · exact absurd hmem List.not_mem_nil
  · have hkept := Scopes.loses_of_declared hids hb
    rw [hid, hlost] at hkept
    cases hkept
  · -- The statement that the mark comes from is the one that the import is in.
    obtain ⟨c, hc, hsc⟩ := hs.exists_statement
    obtain ⟨d, hd, t', hplaced⟩ := Scopes.exists_of_mem_walkAllMarks hplaced
    have hxc := Node.id_mem_ids (Node.mem_preorder_trans hsc hx)
    obtain rfl := Node.child_eq_of_mem_ids hids hc hd hxc (Scopes.placed_mem_ids hplaced)
    have hentry : Scopes.entry s
        = { around := Scopes.allAs .imported (importedNames s), walked := .nothing } := by
      rw [Scopes.entry, of_decide_eq_true himport]
    refine Scopes.placed_not_mem_walkMarks (Node.nodup_ids_of_child hids hc) hsc ?_ ?_
      (Node.id_mem_ids hx) hplaced
    · rw [hentry]
    · rw [hentry]

/-- A name that the walk declares for an import is declared by a mark of the
module. -/
theorem exists_declared (hs : Met t.root s) (himport : s.is .importStatement = true)
    (hx : x ∈ importedNames s) (hname : x.kind.isName = true) :
    ∃ k, .declared (x.binding .imported) k ∈ treeMarks t.root := by
  obtain ⟨t', scope, hsub⟩ := hs.exists_subset
  refine ⟨scope, hsub ?_⟩
  rw [Scopes.walkMarks_eq, Scopes.entry, of_decide_eq_true himport]
  refine List.mem_append_left _ (Scopes.declared_mem_marks.mpr (.inl ?_))
  exact Scopes.mem_declaring.mpr ⟨rfl, (.imported, x), List.mem_map_of_mem hx, hname, rfl⟩

/-- A local name of an import that the walk meets is declared exactly if it is
not lost. -/
theorem ImportParts.declares_iff (hspans : t.root.SpansNested) (hids : t.root.ids.Nodup)
    (htext : ∀ n ∈ t.nodes, n.kind.isName = true → t.text n = n.lexeme) (ht : t.NamesFirst)
    (hs : Met t.root s) (himport : s.is .importStatement = true) (hp : of? s = some p)
    (hx : x ∈ p.localNames) :
    DeclaresNode t x ↔ loses t.root x.id = false := by
  have hxs := mem_preorder_of_mem_localNames hp hx
  constructor
  · rintro ⟨k, hplace, -⟩
    refine Bool.eq_false_iff.mpr fun hlost => ?_
    rw [scopeOf?_of_loses hids hs himport hxs hlost] at hplace
    cases hplace
  · intro hkept
    obtain ⟨c, hc, hsc⟩ := hs.exists_statement
    have hsNode : s ∈ t.nodes := Node.mem_preorder.mpr (.inr ⟨c, hc, hsc⟩)
    obtain ⟨himported, hname⟩ := mem_importedNames ht hsNode hp hx hkept
    obtain ⟨k, hdeclared⟩ := exists_declared hs himport himported hname
    refine ⟨k, ?_, ?_⟩
    · rw [Scopes.ofTree_eq_marked]
      exact Scopes.scopeOf?_marked_of_declared hdeclared (Scopes.oneScope_treeMarks hids)
    · rw [Scopes.binding?_ofTree hspans, List.findSome?_isSome_iff]
      refine ⟨_, hdeclared, ?_⟩
      rw [htext x (Node.mem_preorder_trans hsNode hxs) hname]
      exact Option.isSome_iff_exists.mpr ⟨_, if_pos ⟨rfl, rfl⟩⟩

/-! ### Comments and names -/

/-- Trees that differ in comments only have the same scopes if they lose the
same names. They bind the same, and all nodes that none of them loses refer to
the same, exactly if none of them loses a name that is the first to declare its
text in the other. Nothing refers to a name that is lost, and of the local
names of an import just those are not declared. -/
theorem comments_keep_bindings_iff (t t' : Tree)
    (hsame : t'.root.withoutComments = t.root.withoutComments)
    (hids : t.root.ids.Nodup) (hids' : t'.root.ids.Nodup)
    (hspans : t.root.SpansNested) (hspans' : t'.root.SpansNested)
    (htext : ∀ n ∈ t'.nodes, n.kind.isName = true → t'.text n = n.lexeme)
    (hnames : t'.NamesFirst) :
    ((∀ i, loses t'.root i = loses t.root i) → ofTree t'.root = ofTree t.root)
      ∧ ((ofTree t'.root).Agree (ofTree t.root)
          (t'.nodes.filter fun n => !loses t'.root n.id && !loses t.root n.id)
        ↔ (∀ x ∈ lostNames t'.root, ¬ Scopes.DeclaresFirst t.root x)
          ∧ ∀ x ∈ lostNames t.root, ¬ Scopes.DeclaresFirst t'.root x)
      ∧ (∀ n b, (ofTree t'.root).resolve? n = some b → ∀ x ∈ lostNames t'.root, b.node ≠ x.id)
      ∧ ∀ s, Met t'.root s → s.is .importStatement = true → ∀ p ∈ ImportParts.of? s,
        p.locals t' = p.localNames.map t'.text
          ∧ ∀ x ∈ p.localNames, DeclaresNode t' x ↔ loses t'.root x.id = false := by
  have hbindings := Scopes.bindings_eq_iff hsame hids hids' hspans hspans'
  refine ⟨fun hloses => ?_, ⟨fun hagree => ?_, fun hfirst => ?_⟩, fun n b hb x hx => ?_,
    fun s hs himport p hp => ⟨rfl, fun x hx => ?_⟩⟩
  · exact Scopes.ofTree_eq_of_loses hsame hids hids' (funext hloses)
  · exact hbindings.mp hagree.bindings
  · exact Scopes.agree_of_bindings hsame hids hids' (hbindings.mpr hfirst)
  · exact Scopes.node_ne_of_resolve? hids' hb hx
  · exact ImportParts.declares_iff hspans' hids' htext hnames hs himport hp hx

/-- Comments that are in no first place leave the scopes as they are, and all
names of the import are declared. -/
theorem comments_keep_bindings_harmless :
    ∃ t ∈ (Tree.parse .plain none
        "import d, /* c */ * as n from 'x';\nlet [a, /* c */ ...b] = n; // b\n").toOption,
      (t.nodes.filter Node.isComment).length = 3
        ∧ ofTree t.root = ofTree t.root.withoutComments
        ∧ ∃ s ∈ importsOf t, ∃ p ∈ ImportParts.of? s, p.locals t = ["d", "n"]
          ∧ ∀ x ∈ p.localNames, DeclaresNode t x := by
  obtain ⟨t, ht⟩ := Option.isSome_iff_exists.mp (by decide +kernel :
    (Tree.parse .plain none
      "import d, /* c */ * as n from 'x';\nlet [a, /* c */ ...b] = n; // b\n").toOption.isSome
      = true)
  have hfacts : ∀ t ∈ (Tree.parse .plain none
        "import d, /* c */ * as n from 'x';\nlet [a, /* c */ ...b] = n; // b\n").toOption,
      (t.nodes.filter Node.isComment).length = 3
        ∧ (∀ m ∈ t.nodes, m.is .comment = true → m.children.isEmpty = true)
        ∧ (lostNames t.root).isEmpty = true ∧ (lostNames t.root.withoutComments).isEmpty = true
        ∧ t.root.withoutComments.ids.Nodup ∧ t.root.ids.Nodup
        ∧ t.root.withoutComments.SpansNested ∧ t.root.SpansNested
        ∧ (∀ n ∈ t.nodes, n.kind.isName = true → t.text n = n.lexeme) ∧ t.NamesFirst
        ∧ ∃ s ∈ importsOf t, ∃ p ∈ ImportParts.of? s, p.locals t = ["d", "n"] := by
    decide +kernel
  obtain ⟨hcount, hplain, hlost', hlost, hids, hids', hspans, hspans', htext, hnames, s, hs, p, hp,
    hlocals⟩ := hfacts t ht
  have hkeep : ∀ {n : Node} (i : Nat), (lostNames n).isEmpty = true → loses n i = false := by
    intro n i h
    rw [loses, List.isEmpty_iff.mp h]
    rfl
  have hsame := Node.withoutComments_withoutComments fun m hm hc =>
    List.isEmpty_iff.mp (hplain m hm hc)
  obtain ⟨hscopes, -, -, hdeclared⟩ := comments_keep_bindings_iff
    { t with root := t.root.withoutComments } t hsame.symm hids hids' hspans hspans' htext hnames
  have himport : s.is .importStatement = true := (List.mem_filter.mp hs).2
  have hmet : Met t.root s := .statement (Node.mem_of_mem_childrenOf hs)
  refine ⟨t, ht, hcount, hscopes fun i => ?_, s, hs, p, hp, hlocals, fun x hx => ?_⟩
  · exact (hkeep i hlost').trans (hkeep i hlost).symm
  · exact ((hdeclared s hmet himport p hp).2 x hx).mpr (hkeep x.id hlost')

/-- The import of a whole module, and a parameter, behind a comment. The
transforms find the name of the module, but neither name is declared; without
the comments both are. -/
theorem comments_lose_bindings :
    (∃ t ∈ (Tree.parse .plain none "import * as /* c */ ns from 'x';\nns;\n").toOption,
      ((importsOf t).filterMap ImportParts.of?).map (·.locals t) = [["ns"]]
        ∧ ((ofTree t.root.withoutComments).binding? "ns" 0).isSome = true
        ∧ (ofTree t.root).binding? "ns" 0 = none)
      ∧ ∃ t ∈ (Tree.parse .plain none "function f(.../* c */ r) \x7b r; \x7d\n").toOption,
        (t.nodes.filterMap fun n => ((ofTree t.root.withoutComments).resolve? n).map fun b =>
            (n.span, b.span))
          = [(⟨9, 10⟩, ⟨9, 10⟩), (⟨22, 23⟩, ⟨22, 23⟩), (⟨27, 28⟩, ⟨22, 23⟩)]
        ∧ (t.nodes.filterMap fun n => ((ofTree t.root).resolve? n).map fun b => (n.span, b.span))
          = [(⟨9, 10⟩, ⟨9, 10⟩)] := by
  decide +kernel

end Refactoring

end ScriptRefactor
