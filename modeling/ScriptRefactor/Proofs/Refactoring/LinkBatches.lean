import ScriptRefactor.Proofs.Refactoring.Batches
import ScriptRefactor.Refactoring.Exports
import ScriptRefactor.Refactoring.Imports

/-!
# `ScriptRefactor.Proofs.Refactoring.LinkBatches`: edits of names, imports and exports

Declarations and their uses are renamed as whole nodes
(`wholeNodes_renameIdentifier`), and names are added to imports and
exports as text that is put in. Names are removed from a statement
between the edges of its clause or of its list, so that what is removed
from different statements, or from the clause and its list, does not
cut (`clean_removeImported`, `clean_removeExported`).
-/

set_option autoImplicit false

namespace ScriptRefactor

open Syntax

namespace Refactoring

variable {t : Tree} {n c : Node} {e : Edit}

/-! ### Renaming -/

/-- A renamed declaration and its uses are whole nodes. -/
theorem wholeNodes_renameIdentifier (t : Tree) (old new : String) (decl : Node) :
    WholeNodes t (renameIdentifier t old new decl) := by
  unfold renameIdentifier
  split
  · exact WholeNodes.nil t
  · intro e he
    obtain ⟨⟨node, parent⟩, hmem, he⟩ := List.mem_filterMap.mp he
    dsimp only at he
    split at he
    · obtain rfl := Option.some.inj he
      obtain ⟨hparent, hnode⟩ := Node.mem_withParents hmem
      exact .inr ⟨node, child_mem_nodes hparent hnode, rfl, rfl⟩
    · cases he

/-- So are the class or the function of a name and its uses. -/
theorem wholeNodes_renameDeclared (t : Tree) (kinds : List Construct) (old new : String) :
    WholeNodes t (renameDeclared t kinds old new) := by
  unfold renameDeclared
  split
  · exact wholeNodes_renameIdentifier t old new _
  · exact WholeNodes.nil t

/-! ### Imports -/

/-- The parts of an import are read off its clause. -/
theorem ImportParts.of?_eq_some {p : ImportParts} (h : ImportParts.of? n = some p) :
    p.statement = n ∧ n.childOf? .importClause = some p.clause
      ∧ p.default? = p.clause.childOf? .identifier ∧ p.whole? = p.clause.childOf? .namespaceImport
      ∧ p.list? = p.clause.childOf? .namedImports
      ∧ p.specifiers = (p.list?.map (Node.childrenOf · .importSpecifier)).getD [] := by
  obtain ⟨clause, hclause, rfl⟩ := Option.map_eq_some_iff.mp h
  exact ⟨rfl, hclause, rfl, rfl, rfl, rfl⟩

/-- An entry of an import is a child of its list. -/
theorem ImportParts.exists_list {p : ImportParts} (h : ImportParts.of? n = some p)
    (hc : c ∈ p.specifiers) :
    ∃ list, p.list? = some list ∧ c ∈ list.childrenOf .importSpecifier := by
  obtain ⟨-, -, -, -, -, hspecifiers⟩ := of?_eq_some h
  cases hlist : p.list? with
  | none =>
      rw [hspecifiers, hlist] at hc
      exact absurd hc List.not_mem_nil
  | some list =>
      rw [hspecifiers, hlist] at hc
      exact ⟨list, rfl, hc⟩

/-- The parts of an import of the tree are in the tree. -/
theorem ImportParts.mem_nodes {p : ImportParts} (h : ImportParts.of? n = some p)
    (hn : n ∈ t.nodes) : p.clause ∈ t.nodes ∧ (∀ d ∈ p.default?, d ∈ t.nodes) ∧ (∀ l ∈ p.list?, l ∈ t.nodes)
      ∧ ∀ s ∈ p.specifiers, s ∈ t.nodes := by
  obtain ⟨-, hclause, hdefault, -, hlist, -⟩ := of?_eq_some h
  have hclause := child_mem_nodes hn (of_childOf? hclause).1
  refine ⟨hclause, fun d hd => ?_, fun l hl => ?_, fun s hs => ?_⟩
  · exact child_mem_nodes hclause (of_childOf? (hdefault ▸ hd)).1
  · exact child_mem_nodes hclause (of_childOf? (hlist ▸ hl)).1
  · obtain ⟨list, hl, hs⟩ := exists_list h hs
    exact child_mem_nodes (child_mem_nodes hclause (of_childOf? (hlist ▸ hl)).1)
      (Node.mem_of_mem_childrenOf hs)

/-- The name in the other module that is to be renamed is a part of the
entry. -/
theorem mem_of_getLeft?_entryToRename? {old : String} {entry : Node ⊕ Node} {own : Node}
    (h : entryToRename? t old n = some entry) (hown : entry.getLeft? = some own) :
    own ∈ n.children := by
  obtain ⟨named, hnamed, rfl⟩ := Option.map_eq_some_iff.mp h
  have hnamed := Node.mem_of_child? (Option.filter_eq_some_iff.mp hnamed).1
  split at hown
  · split at hown
    · cases hown
    · exact Option.some.inj hown ▸ hnamed
  · cases hown

/-- Imported names and their uses are whole nodes. -/
theorem wholeNodes_renameImported (t : Tree) (old new : String) (source? : Option String) :
    WholeNodes t (renameImported t old new source?) := by
  refine WholeNodes.append (fun e he => ?_) fun e he => ?_
  · -- The name in the other module is a child of an entry of a list.
    obtain ⟨own, hown, rfl⟩ := List.mem_map.mp he
    obtain ⟨p, hp, hown⟩ := List.mem_flatMap.mp hown
    obtain ⟨specifier, hspecifier, hown⟩ := List.mem_filterMap.mp hown
    obtain ⟨entry, hentry, hown⟩ := Option.bind_eq_some_iff.mp hown
    obtain ⟨statement, hstatement, hparts⟩ := List.mem_filterMap.mp hp
    have hstatement : statement ∈ t.nodes := Node.mem_preorder_of_child
      (Node.mem_of_mem_childrenOf (List.mem_filter.mp hstatement).1)
    obtain ⟨-, -, -, hspecifiers⟩ := ImportParts.mem_nodes hparts hstatement
    exact .inr ⟨own, child_mem_nodes (hspecifiers specifier hspecifier)
      (mem_of_getLeft?_entryToRename? hentry hown), rfl, rfl⟩
  · obtain ⟨decl, -, he⟩ := List.mem_flatMap.mp he
    exact wholeNodes_renameIdentifier t old new decl e he

/-- Other names of imported names, and their uses, are whole nodes. -/
theorem wholeNodes_renameAlias (t : Tree) (old new : String) :
    WholeNodes t (renameAlias t old new) := by
  intro e he
  obtain ⟨own, -, he⟩ := List.mem_flatMap.mp he
  split at he
  · exact wholeNodes_renameIdentifier t old new own e he
  · exact absurd he List.not_mem_nil

/-- An export with a list is in the tree, and so is the list. -/
theorem of_mem_exportLists {source? : Option String} {statement clause : Node}
    (h : (statement, clause) ∈ exportLists t source?) :
    statement ∈ t.nodes ∧ statement.is .exportStatement = true
      ∧ statement.childOf? .exportClause = some clause := by
  obtain ⟨s, hs, h⟩ := List.mem_filterMap.mp h
  obtain ⟨hmem, hkind⟩ := List.mem_filter.mp hs
  split at h
  · obtain ⟨c, hc, heq⟩ := Option.map_eq_some_iff.mp h
    cases heq
    exact ⟨hmem, hkind, hc⟩
  · cases h

/-- Exported names are whole nodes. -/
theorem wholeNodes_renameExported (t : Tree) (old new : String) (source? : Option String) :
    WholeNodes t (renameExported t old new source?) := by
  intro e he
  obtain ⟨⟨statement, clause⟩, hlist, he⟩ := List.mem_flatMap.mp he
  obtain ⟨s, hs, he⟩ := List.mem_filterMap.mp he
  obtain ⟨called, hcalled, rfl⟩ := Option.map_eq_some_iff.mp he
  obtain ⟨hstatement, -, hclause⟩ := of_mem_exportLists hlist
  have hs : s ∈ t.nodes := child_mem_nodes (child_mem_nodes hstatement (of_childOf? hclause).1)
    (Node.mem_of_mem_childrenOf hs)
  have hchild : called ∈ s.children := by
    rcases Option.or_eq_some_iff.mp hcalled with h | ⟨-, h⟩ <;>
      exact Node.mem_of_child? (Option.filter_eq_some_iff.mp h).1
  exact .inr ⟨called, child_mem_nodes hs hchild, rfl, rfl⟩

/-- A link is a child of the root. -/
theorem child_of_mem_linksOf (h : n ∈ linksOf t) : n ∈ t.root.children := by
  rcases List.mem_append.mp h with h | h
  · exact Node.mem_of_mem_childrenOf h
  · exact Node.mem_of_mem_childrenOf (List.mem_filter.mp h).1

/-- Dropped links are whole nodes. -/
theorem wholeNodes_removeLinks (t : Tree) (source : String) :
    WholeNodes t (removeLinks t source) := by
  intro e he
  obtain ⟨s, hs, rfl⟩ := List.mem_map.mp he
  exact .inr ⟨s, Node.mem_preorder_of_child (child_of_mem_linksOf (List.mem_filter.mp hs).1),
    rfl, rfl⟩

/-- Names taken into an import are text put in, or stand in place of an
empty list. -/
theorem wholeNodes_joinNames {p : ImportParts} (ht : t.WellFormed) (hn : n ∈ t.nodes)
    (hp : ImportParts.of? n = some p) (whole? : Option String) (named : List String) :
    WholeNodes t (joinNames t p whole? named).edits := by
  obtain ⟨-, hdefault, hlist, hspecifiers⟩ := ImportParts.mem_nodes hp hn
  unfold joinNames
  split
  · rename_i list hl
    dsimp only
    split
    · split
      · exact WholeNodes.nil t
      · intro e he
        rw [List.mem_singleton.mp he]
        exact .inr ⟨list, hlist list hl, rfl, rfl⟩
    · exact WholeNodes.toList (wholeNode_append? ht hspecifiers)
  · exact WholeNodes.nil t
  · rename_i default _ _ hd
    have hstop := WholeNode.insert_stop ht (hdefault default hd)
    split
    · exact fun e he => List.mem_singleton.mp he ▸ hstop _
    · dsimp only
      split
      · exact WholeNodes.nil t
      · exact fun e he => List.mem_singleton.mp he ▸ hstop _
  · exact WholeNodes.nil t

/-- Names are added to imports as text that is put in, or in place of an
empty list. -/
theorem wholeNodes_addImport (ht : t.WellFormed) (source : String) (default? : Option String)
    (named : List String) (whole? : Option String) :
    WholeNodes t (addImport t source default? named whole?) := by
  unfold addImport
  dsimp only
  split
  · rename_i p hp
    obtain ⟨statement, hstatement, hp⟩ := List.exists_of_findSome?_eq_some hp
    have hstatement : statement ∈ t.nodes := Node.mem_preorder_of_child
      (Node.mem_of_mem_childrenOf (List.mem_filter.mp hstatement).1)
    have hclause := (ImportParts.mem_nodes hp hstatement).1
    unfold extendImport
    refine .append (.append (.toList fun e he => ?_) (wholeNodes_joinNames ht hstatement hp _ _)) ?_
    · obtain ⟨name, -, rfl⟩ := Option.map_eq_some_iff.mp he
      exact WholeNode.insert_start ht hclause _
    · split
      · exact WholeNodes.nil t
      · exact wholeNodes_insertStatements t _ _
  · exact wholeNodes_insertStatements t _ _

/-- Names are added to exports as text that is put in, or in place of an
empty list. -/
theorem wholeNodes_addExport (ht : t.WellFormed) (source : String) (default? : Option String)
    (named : List String) : WholeNodes t (addExport t source default? named) := by
  unfold addExport
  dsimp only
  split
  · rename_i clause hclause
    obtain ⟨statement, hstatement, hclause⟩ := List.exists_of_findSome?_eq_some hclause
    have hstatement : statement ∈ t.nodes := Node.mem_preorder_of_child
      (Node.mem_of_mem_childrenOf (List.mem_filter.mp (List.mem_filter.mp hstatement).1).1)
    have hclause := child_mem_nodes hstatement (of_childOf? hclause).1
    have hspecifiers : ∀ i ∈ clause.childrenOf .exportSpecifier, i ∈ t.nodes := fun i hi =>
      child_mem_nodes hclause (Node.mem_of_mem_childrenOf hi)
    unfold extendExport
    dsimp only
    split
    · split
      · exact WholeNodes.nil t
      · intro e he
        rw [List.mem_singleton.mp he]
        exact .inr ⟨clause, hclause, rfl, rfl⟩
    · refine .append (.toList fun e he => ?_) (.toList (wholeNode_append? ht hspecifiers))
      obtain ⟨name, -, he⟩ := Option.bind_eq_some_iff.mp he
      refine .inl (of_prepend? (fun i hi => ?_) he)
      have h := inText_of_mem ht (hspecifiers i hi)
      exact Nat.le_trans h.1 h.2
  · unfold newExport
    split
    · exact WholeNodes.nil t
    · exact wholeNodes_insertStatements t _ _

/-- Dropped around the default name: from it up to what follows, or from
behind it to the end of what follows. -/
def DroppedAroundDefault (p : ImportParts) (defaultGone : Bool) (e : Edit) : Prop :=
  ∃ d next, p.default? = some d ∧ (p.whole? = some next ∨ p.list? = some next)
    ∧ ((defaultGone = true ∧ e = .delete d.start next.start)
      ∨ (defaultGone = false ∧ e = .delete d.stop next.stop))

/-- What is dropped from an import in which names stay is dropped around
the default name, or from the list. -/
theorem removeParts_cases {p : ImportParts} {defaultGone wholeGone : Bool} {gone : Node → Bool}
    (hp : ImportParts.of? n = some p) (he : e ∈ removeParts p defaultGone wholeGone gone) :
    DroppedAroundDefault p defaultGone e
      ∨ ∃ list, p.list? = some list ∧ e ∈ removeItems p.specifiers gone := by
  unfold removeParts at he
  dsimp only at he
  -- The three edits of an import: behind its default name, in front of the rest, in the list.
  rcases List.mem_append.mp he with he | he
  · rcases List.mem_append.mp he with he | he
    · obtain ⟨d, hd, he⟩ := Option.bind_eq_some_iff.mp (Option.mem_toList.mp he)
      obtain ⟨next, hnext, he⟩ := Option.bind_eq_some_iff.mp he
      split at he
      · rename_i hgone
        refine .inl ⟨d, next, hd, ?_, .inl ⟨hgone, (Option.some.inj he).symm⟩⟩
        exact (Option.or_eq_some_iff.mp hnext).imp_right And.right
      · cases he
    · obtain ⟨d, hd, he⟩ := Option.bind_eq_some_iff.mp (Option.mem_toList.mp he)
      obtain ⟨ns, hns, he⟩ := Option.bind_eq_some_iff.mp he
      obtain ⟨hd, hleft⟩ := Option.filter_eq_some_iff.mp hd
      split at he
      · exact .inl ⟨d, ns, hd, .inl hns, .inr ⟨by simpa using hleft, (Option.some.inj he).symm⟩⟩
      · cases he
  · split at he
    · exact absurd he List.not_mem_nil
    · rename_i hany
      split at he
      · split at he
        · rename_i d list hd hlist
          obtain ⟨hd, hleft⟩ := Option.filter_eq_some_iff.mp hd
          exact .inl ⟨d, list, hd, .inr hlist,
            .inr ⟨by simpa using hleft, List.mem_singleton.mp he⟩⟩
        · exact absurd he List.not_mem_nil
      · obtain ⟨s, hs, -⟩ : ∃ s ∈ p.specifiers, gone s = true := by simpa using hany
        obtain ⟨list, hlist, -⟩ := ImportParts.exists_list hp hs
        exact .inr ⟨list, hlist, he⟩

/-- What is dropped around the default name goes from edge to edge of the
clause, because the default name stands in front. -/
theorem DroppedAroundDefault.isEdge {p : ImportParts} {defaultGone : Bool} (ht : t.WellFormed)
    (hn : n ∈ t.nodes) (hp : ImportParts.of? n = some p)
    (h : DroppedAroundDefault p defaultGone e) : e.start ≤ e.stop ∧ p.clause.IsEdge e.start ∧ p.clause.IsEdge e.stop := by
  obtain ⟨-, hclause, hdefault, hwhole, hlist, -⟩ := ImportParts.of?_eq_some hp
  obtain ⟨hclause, hkind⟩ := of_childOf? hclause
  have hmem := child_mem_nodes hn hclause
  obtain ⟨d, next, hd, hnext, hcase⟩ := h
  rw [hdefault] at hd
  rw [hwhole, hlist] at hnext
  have horder := ht.importOrder p.clause hmem hkind d hd next
    (List.mem_append.mpr (hnext.imp Option.mem_toList.mpr Option.mem_toList.mpr))
  have hd := (of_childOf? hd).1
  have hnext := hnext.elim (fun h => (of_childOf? h).1) fun h => (of_childOf? h).1
  have hdproper := ht.spans.proper d (child_mem_nodes hmem hd)
  have hnproper := ht.spans.proper next (child_mem_nodes hmem hnext)
  have hdedge := Node.isEdge_child (ht.spans.below hmem) hd
  have hnedge := Node.isEdge_child (ht.spans.below hmem) hnext
  rcases hcase with ⟨-, rfl⟩ | ⟨-, rfl⟩
  · exact ⟨by show d.start ≤ next.start; omega, hdedge.1, hnedge.1⟩
  · exact ⟨by show d.stop ≤ next.stop; omega, hdedge.2, hnedge.2⟩

/-- What is dropped around the default name all starts at one end of
it. -/
theorem DroppedAroundDefault.compatible {p : ImportParts} {defaultGone : Bool} {a b : Edit}
    (ha : DroppedAroundDefault p defaultGone a) (hb : DroppedAroundDefault p defaultGone b) :
    Edit.Compatible a b := by
  obtain ⟨d, next, hd, -, ha⟩ := ha
  obtain ⟨d', next', hd', -, hb⟩ := hb
  obtain rfl : d' = d := Option.some.inj (hd'.symm.trans hd)
  have hstart : a.start = b.start := by
    rcases ha with ⟨hga, rfl⟩ | ⟨hga, rfl⟩ <;> rcases hb with ⟨hgb, rfl⟩ | ⟨hgb, rfl⟩
    · rfl
    · exact absurd (hga.symm.trans hgb) (by decide)
    · exact absurd (hga.symm.trans hgb) (by decide)
    · rfl
  unfold Edit.Compatible
  omega

/-- Entries are dropped in runs, from edge to edge of the list. -/
theorem droppedEntries_runs {p : ImportParts} {list : Node} (ht : t.WellFormed) (hn : n ∈ t.nodes)
    (hp : ImportParts.of? n = some p) (hlist : p.list? = some list) (gone : Node → Bool) :
    list ∈ p.clause.children ∧ list.is .namedImports = true
      ∧ Runs list.children 0 (removeItems p.specifiers gone)
      ∧ ∀ e ∈ removeItems p.specifiers gone, list.IsEdge e.start ∧ list.IsEdge e.stop := by
  obtain ⟨-, -, -, -, hlist', hspecifiers⟩ := ImportParts.of?_eq_some hp
  obtain ⟨hchild, hkind⟩ := of_childOf? (hlist' ▸ hlist)
  have hspans := ht.spans.below (child_mem_nodes (ImportParts.mem_nodes hp hn).1 hchild)
  have hruns := removeItems_runs hspans .importSpecifier gone
  rw [hspecifiers, hlist]
  exact ⟨hchild, hkind, hruns, hruns.isEdge hspans⟩

/-- What is dropped from an import in which names stay fits the import,
and cuts nothing else that is dropped from it. -/
theorem removeParts_owned {p : ImportParts} (ht : t.WellFormed) (hn : n ∈ t.nodes)
    (hp : ImportParts.of? n = some p) (defaultGone wholeGone : Bool) (gone : Node → Bool) :
    (∀ e ∈ removeParts p defaultGone wholeGone gone,
        Owned t (fun m => m.is .importStatement = true) n e)
      ∧ Edit.AllCompatible (removeParts p defaultGone wholeGone gone) := by
  obtain ⟨-, hclause, -⟩ := ImportParts.of?_eq_some hp
  obtain ⟨hclause, hkind⟩ := of_childOf? hclause
  have hmem := child_mem_nodes hn hclause
  have hspans := ht.spans.below hmem
  have hfits : ∀ {e : Edit}, e.Fits (fun m => m.is .importStatement = true) p.clause →
      e.Fits (fun m => m.is .importStatement = true) n :=
    Edit.fits_of_child (ht.spans.below hn) hclause (not_is_of_is hkind (by decide))
  refine ⟨fun e he => .inr ?_, fun a ha b hb => ?_⟩
  · rcases removeParts_cases hp he with hdropped | ⟨list, hl, he⟩
    · obtain ⟨hproper, hstart, hstop⟩ := hdropped.isEdge ht hn hp
      exact ⟨hproper, hfits (Edit.fits_of_isEdge hspans hstart hstop)⟩
    · obtain ⟨hchild, hlkind, hruns, hedges⟩ := droppedEntries_runs ht hn hp hl gone
      obtain ⟨hstart, hstop⟩ := hedges e he
      have hfit := Edit.fits_of_isEdge (P := fun m => m.is .importStatement = true)
        (ht.spans.below (child_mem_nodes hmem hchild)) hstart hstop
      exact ⟨hruns.proper e he,
        hfits (Edit.fits_of_child hspans hchild (not_is_of_is hlkind (by decide)) hfit)⟩
  · -- An edit between edges of the clause cuts none of an entry of the list.
    have hmixed : ∀ {a b : Edit} {list : Node}, DroppedAroundDefault p defaultGone a →
        p.list? = some list → b ∈ removeItems p.specifiers gone → Edit.Compatible a b := by
      intro a b list ha hl hb
      obtain ⟨-, hstart, hstop⟩ := ha.isEdge ht hn hp
      obtain ⟨hchild, -, -, hedges⟩ := droppedEntries_runs ht hn hp hl gone
      exact Edit.compatible_of_isEdge hchild hstart hstop ⟨(hedges b hb).1.1, (hedges b hb).2.2.1⟩
    rcases removeParts_cases hp ha with ha | ⟨list, hl, ha⟩ <;>
      rcases removeParts_cases hp hb with hb | ⟨list', hl', hb⟩
    · exact ha.compatible hb
    · exact hmixed ha hl' hb
    · exact (hmixed hb hl ha).symm
    · exact (droppedEntries_runs ht hn hp hl gone).2.2.1.allCompatible a ha b hb

/-- Names are removed from imports without conflict. -/
theorem clean_removeImported (ht : t.WellFormed) (names : List String) :
    Clean t (removeImported t names) := by
  refine clean_of_owners (P := fun m => m.is .importStatement = true) ht
    (fun s => ((ImportParts.of? s).map (removeFromImport t names)).getD []) (fun e he => ?_)
    fun n hn hkind => ?_
  · obtain ⟨p, hp, he⟩ := List.mem_flatMap.mp he
    obtain ⟨s, hs, hp⟩ := List.mem_filterMap.mp hp
    obtain ⟨hmem, hkind⟩ := List.mem_filter.mp hs
    exact ⟨s, hmem, hkind, by rw [hp]; exact he⟩
  · cases hp : ImportParts.of? n with
    | none => exact nil_owned
    | some p =>
        show (∀ e ∈ removeFromImport t names p, _) ∧ Edit.AllCompatible (removeFromImport t names p)
        unfold removeFromImport
        dsimp only
        split
        · exact nil_owned
        · split
          · rw [(ImportParts.of?_eq_some hp).1]
            exact deleteNode_owned ht hn
          · exact removeParts_owned ht hn hp _ _ _

/-- Names are removed from exports without conflict. -/
theorem clean_removeExported (ht : t.WellFormed) (names : List String) (source? : Option String) :
    Clean t (removeExported t names source?) := by
  let gone (s : Node) : Bool :=
    names.contains (entryName t s) || names.contains (exportedName t s)
  refine clean_of_owners (P := fun m => m.is .exportStatement = true) ht
    (fun s => ((s.childOf? .exportClause).map fun clause =>
      if !((clause.childrenOf .exportSpecifier).any gone) then []
      else if (clause.childrenOf .exportSpecifier).all gone then [.deleteNode s]
      else removeItems (clause.childrenOf .exportSpecifier) gone).getD []) (fun e he => ?_)
    fun n hn hkind => ?_
  · obtain ⟨⟨s, clause⟩, hs, he⟩ := List.mem_flatMap.mp he
    obtain ⟨hmem, hkind, hclause⟩ := of_mem_exportLists hs
    exact ⟨s, hmem, hkind, by rw [hclause]; exact he⟩
  · cases hclause : n.childOf? .exportClause with
    | none => exact nil_owned
    | some clause =>
        obtain ⟨hchild, hckind⟩ := of_childOf? hclause
        have hspans := ht.spans.below (child_mem_nodes hn hchild)
        rw [Option.map_some, Option.getD_some]
        split
        · exact nil_owned
        · split
          · exact deleteNode_owned ht hn
          · have hruns := removeItems_runs hspans .exportSpecifier gone
            refine ⟨fun e he => .inr ⟨hruns.proper e he, ?_⟩, hruns.allCompatible⟩
            obtain ⟨hstart, hstop⟩ := hruns.isEdge hspans e he
            exact Edit.fits_of_child (ht.spans.below hn) hchild (not_is_of_is hckind (by decide))
              (Edit.fits_of_isEdge hspans hstart hstop)

/-- Sources of links are renamed without conflict. -/
theorem clean_renameSource (ht : t.WellFormed) (old new : String) :
    Clean t (renameSource t old new) := by
  have hroot : t.root ∈ t.nodes := Node.mem_preorder_self t.root
  -- Each edit lies in a child of the root, and is the only one there.
  have hchild : ∀ e ∈ renameSource t old new, ∃ s ∈ t.root.children,
      ((s.child? .source).bind Tree.stringContent?).map (Edit.replace · new) = some e
        ∧ s.start ≤ e.start ∧ e.start ≤ e.stop ∧ e.stop ≤ s.stop := by
    intro e he
    obtain ⟨s, hs, he⟩ := List.mem_filterMap.mp he
    have hs := child_of_mem_linksOf (List.mem_filter.mp hs).1
    refine ⟨s, hs, he, ?_⟩
    obtain ⟨span, hspan, rfl⟩ := Option.map_eq_some_iff.mp he
    obtain ⟨source, hsource, hspan⟩ := Option.bind_eq_some_iff.mp hspan
    obtain ⟨hlong, rfl⟩ := of_stringContent? hspan
    have hinside := (ht.spans.below (child_mem_nodes hroot hs)).child_inside
      (Node.mem_of_child? hsource)
    show s.start ≤ source.start + 1 ∧ source.start + 1 ≤ source.stop - 1 ∧ source.stop - 1 ≤ s.stop
    omega
  refine ⟨fun e he => ?_, fun a ha b hb => ?_⟩
  · obtain ⟨s, hs, -, hstart, hproper, hstop⟩ := hchild e he
    exact ⟨hproper, Nat.le_trans hstop (inText_of_mem ht (child_mem_nodes hroot hs)).2⟩
  · obtain ⟨s, hs, haof, hastart, -, hastop⟩ := hchild a ha
    obtain ⟨s', hs', hbof, hbstart, -, hbstop⟩ := hchild b hb
    by_cases hne : s = s'
    · subst hne
      exact Option.some.inj (haof.symm.trans hbof) ▸ Edit.Compatible.refl a
    · have hclear := ht.spans.children_apart hs hs' hne
      unfold Edit.Compatible
      omega

end Refactoring

end ScriptRefactor
