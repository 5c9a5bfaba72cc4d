import ScriptRefactor.Proofs.Edit.Moved
import ScriptRefactor.Proofs.Refactoring.LinkBatches
import ScriptRefactor.Proofs.Refactoring.Rename

/-!
# `ScriptRefactor.Proofs.Refactoring.LinkSources`: the sources of an edited module

A module is read again once it is edited, and nothing but its text is kept
from before. If the sources of its links are then found where the edits
have moved them (`LinksMoved`), what they say follows from the edits alone:
renaming a source changes that source and no other one
(`sourcesOf_renameSource`), and renaming an imported name changes none
(`sourcesOf_renameImported`), because names stand beside the sources.
-/

set_option autoImplicit false

namespace ScriptRefactor

open Syntax

namespace Refactoring

/-- Where the source of a link stands, without its quotes. -/
def contentOf? (link : Node) : Option Span := (link.child? .source).bind Tree.stringContent?

/-- The sources of all links, imports first. -/
def sourcesOf (t : Tree) : List (Option String) := (linksOf t).map (sourceOf? t)

/-- The other tree has the sources of its links where the edits move those
of the tree. -/
def LinksMoved (t : Tree) (edits : List Edit) (t' : Tree) : Prop :=
  (linksOf t').map contentOf?
    = (linksOf t).map fun link => (contentOf? link).map
        (Edit.movedSpan (mergeEdits t.source edits))

instance (t : Tree) (edits : List Edit) (t' : Tree) : Decidable (LinksMoved t edits t') :=
  inferInstanceAs (Decidable (_ = _))

end Refactoring

/-- What holds of the links in a parsed module. -/
structure Syntax.Tree.WellLinked (t : Tree) : Prop where
  /-- The nodes are nested. -/
  wellFormed : t.WellFormed
  /-- Names are leaves. -/
  leaf : ∀ n ∈ t.nodes, n.kind.isName = true → n.children = []
  /-- No name is part of the source of a link. -/
  unnamed : ∀ link ∈ Refactoring.linksOf t, ∀ s ∈ link.child? .source, ∀ m ∈ s.preorder,
    m.kind.isName = false
  /-- The sources of links are parts of the text. -/
  sliced : ∀ link ∈ Refactoring.linksOf t, ∀ span ∈ Refactoring.contentOf? link,
    (Text.slice? t.source span.start span.stop).isSome = true

instance (t : Tree) : Decidable t.WellLinked :=
  decidable_of_iff (t.WellFormed ∧ (∀ n ∈ t.nodes, n.kind.isName = true → n.children = [])
      ∧ (∀ link ∈ Refactoring.linksOf t, ∀ s ∈ link.child? .source, ∀ m ∈ s.preorder,
        m.kind.isName = false)
      ∧ ∀ link ∈ Refactoring.linksOf t, ∀ span ∈ Refactoring.contentOf? link,
        (Text.slice? t.source span.start span.stop).isSome = true)
    ⟨fun ⟨h1, h2, h3, h4⟩ => ⟨h1, h2, h3, h4⟩, fun h =>
      ⟨h.wellFormed, h.leaf, h.unnamed, h.sliced⟩⟩

namespace Refactoring

variable {t t' : Tree} {link other n s : Node} {span span' : Span} {old new : String}
  {edits : List Edit} {e : Edit}

/-! ### Places of sources -/

/-- A source is the text at its place. -/
theorem sourceOf?_eq (t : Tree) (link : Node) :
    sourceOf? t link = (contentOf? link).map t.slice := by
  rw [sourceOf?, contentOf?, Option.map_bind]
  rfl

/-- A source stands inside a string of its link. -/
theorem of_contentOf? (h : contentOf? link = some span) :
    ∃ s, link.child? .source = some s ∧ s.start + 1 = span.start ∧ span.start ≤ span.stop ∧
      span.stop + 1 = s.stop ∧ Tree.isStringLike s = true := by
  obtain ⟨s, hs, hspan⟩ := Option.bind_eq_some_iff.mp h
  obtain ⟨hlong, rfl⟩ := of_stringContent? hspan
  refine ⟨s, hs, rfl, ?_, ?_, ?_⟩
  · show s.start + 1 ≤ s.stop - 1
    omega
  · show s.stop - 1 + 1 = s.stop
    omega
  · unfold Tree.stringContent? at hspan
    split at hspan
    · rename_i hcond
      exact (Bool.and_eq_true_iff.mp hcond).1
    · cases hspan

/-- What covers a place is a part of the text. -/
theorem slice?_eq_some (h : (Text.slice? t.source span.start span.stop).isSome = true) :
    Text.slice? t.source span.start span.stop = some (t.slice span) := by
  obtain ⟨text, htext⟩ := Option.isSome_iff_exists.mp h
  rw [Tree.slice, htext, Option.getD_some]

/-- A text that is not empty is cut out of the source. -/
theorem fitsIn_of_slice {text : String} (h : t.slice span = text) (hne : text ≠ "")
    (replacement : String) :
    (Edit.replace span replacement).FitsIn t.source ∧ span.start < span.stop := by
  have hsome : ∃ text, Text.slice? t.source span.start span.stop = some text := by
    cases hslice : Text.slice? t.source span.start span.stop with
    | some text => exact ⟨text, rfl⟩
    | none =>
        rw [Tree.slice, hslice, Option.getD_none] at h
        exact absurd h.symm hne
  obtain ⟨found, hfound⟩ := hsome
  rw [Tree.slice, hfound, Option.getD_some] at h
  obtain ⟨cs, hcs, rfl⟩ := Option.map_eq_some_iff.mp hfound
  obtain ⟨front, back, htext, hfront, hstop⟩ := Edit.of_sliceChars? hcs
  have hpos : 0 < Text.byteSize cs := by
    cases cs with
    | nil => exact absurd h.symm hne
    | cons c cs =>
        rw [Text.byteSize]
        have := c.utf8Size_pos
        omega
  refine ⟨⟨?_, ?_, ?_⟩, by omega⟩
  · show span.start ≤ span.stop
    omega
  · exact Text.isBoundary_iff.mpr ⟨front, cs ++ back, by rw [htext, List.append_assoc], hfront⟩
  · exact Text.isBoundary_iff.mpr ⟨front ++ cs, back, htext, by
      rw [Text.byteSize_append]
      show _ = span.stop
      omega⟩

/-- The sources of different links are apart. -/
theorem contents_apart (ht : t.WellFormed) (hlink : link ∈ linksOf t) (hother : other ∈ linksOf t)
    (hne : link ≠ other) (h : contentOf? link = some span) (h' : contentOf? other = some span') :
    span.stop ≤ span'.start ∨ span'.stop ≤ span.start := by
  obtain ⟨s, hs, hstart, hproper, hstop, -⟩ := of_contentOf? h
  obtain ⟨s', hs', hstart', hproper', hstop', -⟩ := of_contentOf? h'
  have hroot := Node.mem_preorder_self t.root
  have hlink := child_of_mem_linksOf hlink
  have hother := child_of_mem_linksOf hother
  have hapart := ht.spans.children_apart hlink hother hne
  have hinside := (ht.spans.below (child_mem_nodes hroot hlink)).child_inside
    (Node.mem_of_child? hs)
  have hinside' := (ht.spans.below (child_mem_nodes hroot hother)).child_inside
    (Node.mem_of_child? hs')
  omega

/-- Names are beside the sources. -/
theorem name_clear (ht : t.WellLinked) (hlink : link ∈ linksOf t) (h : contentOf? link = some span)
    (hn : n ∈ t.nodes) (hname : n.kind.isName = true) :
    n.stop ≤ span.start ∨ span.stop ≤ n.start := by
  obtain ⟨s, hs, hstart, -, hstop, -⟩ := of_contentOf? h
  have hmem : s ∈ t.nodes := child_mem_nodes (child_mem_nodes (Node.mem_preorder_self t.root)
    (child_of_mem_linksOf hlink)) (Node.mem_of_child? hs)
  have hunnamed : n ∉ s.preorder := fun hmem => by
    rw [ht.unnamed link hlink s hs n hmem] at hname
    cases hname
  rcases ht.wellFormed.spans.below_or_clear hn hmem with hbelow | hbelow | hclear
  · exact absurd hbelow hunnamed
  · -- Nothing is below a name.
    rcases Node.mem_preorder.mp hbelow with rfl | ⟨c, hc, -⟩
    · exact absurd (Node.mem_preorder_self _) hunnamed
    · rw [ht.leaf n hn hname] at hc
      cases hc
  · omega

/-- The clause of an import is beside the sources. -/
theorem clause_clear (ht : t.WellFormed) (hlink : link ∈ linksOf t)
    (h : contentOf? link = some span) {statement clause : Node}
    (hstatement : statement ∈ t.root.children) (hclause : clause ∈ statement.children)
    (hkind : clause.is .importClause = true) (hn : n ∈ clause.preorder) :
    n.stop ≤ span.start ∨ span.stop ≤ n.start := by
  obtain ⟨s, hs, hstart, hproper, hstop, hstring⟩ := of_contentOf? h
  have hroot := Node.mem_preorder_self t.root
  have hlink := child_of_mem_linksOf hlink
  have hspans := ht.spans.below (child_mem_nodes hroot hstatement)
  have hinside := (hspans.below (Node.mem_preorder_of_child hclause)).le_of_mem_preorder hn
  by_cases hsame : link = statement
  · -- The clause and the source are different parts of one import.
    subst hsame
    have hne : clause ≠ s := by
      rintro rfl
      rw [Tree.isStringLike, of_decide_eq_true hkind] at hstring
      cases hstring
    have hapart := hspans.children_apart hclause (Node.mem_of_child? hs) hne
    omega
  · have hbelow := hspans.child_inside hclause
    have hinside' := (ht.spans.below (child_mem_nodes hroot hlink)).child_inside
      (Node.mem_of_child? hs)
    have hapart := ht.spans.children_apart hlink hstatement hsame
    omega

/-! ### Edits -/

/-- What the sources say behind edits follows from what stands where the
edits have moved them. -/
theorem sourcesOf_eq_map (ht : t.WellLinked) (hsource : t'.source = (applyEdits t.source edits).1)
    (hmoved : LinksMoved t edits t') (f : String → String)
    (h : ∀ link ∈ linksOf t, ∀ span, contentOf? link = some span →
      Text.slice? t.source span.start span.stop = some (t.slice span) →
      let moved := Edit.movedSpan (mergeEdits t.source edits) span
      Text.slice? (applyEdits t.source edits).1 moved.start moved.stop
        = some (f (t.slice span))) :
    sourcesOf t' = (sourcesOf t).map (Option.map f) := by
  have hmap : ∀ t : Tree, sourcesOf t = ((linksOf t).map contentOf?).map (Option.map t.slice) :=
    fun t => by
      rw [sourcesOf, List.map_map]
      exact List.map_congr_left fun link _ => sourceOf?_eq t link
  rw [hmap t', hmoved, hmap t, List.map_map, List.map_map, List.map_map]
  refine List.map_congr_left fun link hlink => ?_
  cases hcontent : contentOf? link with
  | none => simp [hcontent]
  | some span =>
      have hslice := slice?_eq_some (ht.sliced link hlink span hcontent)
      have hfound := h link hlink span hcontent hslice
      simp only [Function.comp_apply, hcontent, Option.map_some, Tree.slice, hsource]
      rw [hfound, Option.getD_some, Tree.slice]

/-- A renamed source is the only one that changes. -/
theorem sourcesOf_renameSource (ht : t.WellLinked) (hold : old ≠ "") (hnew : new ≠ "")
    (hsource : t'.source = (applyEdits t.source (renameSource t old new)).1)
    (hmoved : LinksMoved t (renameSource t old new) t') :
    sourcesOf t' = (sourcesOf t).map (Option.map fun s => if s = old then new else s) := by
  have hedit : ∀ e ∈ renameSource t old new, ∃ link ∈ linksOf t, ∃ span,
      contentOf? link = some span ∧ t.slice span = old ∧ e = .replace span new := by
    intro e he
    obtain ⟨link, hlink, he⟩ := List.mem_filterMap.mp he
    obtain ⟨hlink, hhas⟩ := List.mem_filter.mp hlink
    obtain ⟨span, hspan, rfl⟩ := Option.map_eq_some_iff.mp he
    have hvalue : sourceOf? t link = some old := of_decide_eq_true hhas
    rw [sourceOf?_eq, contentOf?, hspan] at hvalue
    exact ⟨link, hlink, span, hspan, Option.some.inj hvalue, rfl⟩
  have hreplaces : ∀ e ∈ renameSource t old new, e.Replaces t.source := by
    intro e he
    obtain ⟨link, hlink, span, -, htext, rfl⟩ := hedit e he
    obtain ⟨hfits, hlt⟩ := fitsIn_of_slice htext hold new
    exact ⟨hfits, hlt, hnew⟩
  obtain ⟨hout, hmerged, hcovers⟩ := Edit.carriesOut_mergeEdits hreplaces
    (clean_renameSource ht.wellFormed old new).2
  refine sourcesOf_eq_map ht hsource hmoved _ fun link hlink span hspan hslice => ?_
  dsimp only
  rw [← Edit.movedSpan_reverse]
  split
  · -- The source is replaced, and by its own edit.
    rename_i htext
    have hmem : Edit.replace span new ∈ renameSource t old new := by
      refine List.mem_filterMap.mpr ⟨link, List.mem_filter.mpr ⟨hlink, ?_⟩, ?_⟩
      · rw [hasSource, sourceOf?_eq, hspan, Option.map_some, htext, decide_eq_true rfl]
      · rw [← contentOf?, hspan]
        rfl
    obtain ⟨k, hk, hkstart, hkstop⟩ := hcovers _ hmem
    obtain ⟨other, hother, span', hspan', -, rfl⟩ := hedit k (hmerged k hk)
    have hlt : span.start < span.stop := (hreplaces _ hmem).2.1
    have hsame : link = other := by
      by_contra hne
      have hapart := contents_apart ht.wellFormed hlink hother hne hspan hspan'
      have hkstart : span'.start ≤ span.start := hkstart
      have hkstop : span.stop ≤ span'.stop := hkstop
      omega
    subst hsame
    obtain rfl := Option.some.inj (hspan.symm.trans hspan')
    exact hout.slice?_of_mem (List.mem_reverse.mpr hk)
  · -- The source is beside the replaced ones.
    rename_i htext
    refine hout.slice?_of_clear hslice fun e he => ?_
    obtain ⟨other, hother, span', hspan', htext', rfl⟩ :=
      hedit e (hmerged e (List.mem_reverse.mp he))
    have hne : other ≠ link := by
      rintro rfl
      obtain rfl := Option.some.inj (hspan.symm.trans hspan')
      exact htext htext'
    exact contents_apart ht.wellFormed hother hlink hne hspan' hspan

/-- What is put in the place of a name is not empty. -/
theorem renamedText_ne_empty (hnew : new ≠ "") (parent node : Node) :
    renamedText old new parent node ≠ "" := by
  have happend : ∀ a b : String, b ≠ "" → a ++ b ≠ "" := fun a b hb h =>
    hb (String.append_eq_empty_iff.mp h).2
  unfold renamedText
  split
  · exact happend _ _ hnew
  · split
    · exact fun h => hnew (String.append_eq_empty_iff.mp (String.append_eq_empty_iff.mp h).1).1
    · exact hnew

/-- A renamed import changes names, and parts of clauses. -/
theorem of_mem_renameImported {source? : Option String} (hnew : new ≠ "")
    (h : e ∈ renameImported t old new source?) :
    ∃ n replacement, t.text n = old ∧ replacement ≠ "" ∧ e = .replaceNode n replacement ∧
      ((n ∈ t.nodes ∧ n.kind.isName = true) ∨
        ∃ statement ∈ t.root.children, ∃ clause ∈ statement.children,
          clause.is .importClause = true ∧ n ∈ clause.preorder) := by
  rcases List.mem_append.mp h with h | h
  · -- The name in the import itself.
    obtain ⟨own, hown, rfl⟩ := List.mem_map.mp h
    obtain ⟨p, hp, hown⟩ := List.mem_flatMap.mp hown
    obtain ⟨specifier, hspecifier, hown⟩ := List.mem_filterMap.mp hown
    obtain ⟨entry, hentry, hown⟩ := Option.bind_eq_some_iff.mp hown
    obtain ⟨statement, hstatement, hparts⟩ := List.mem_filterMap.mp hp
    have hchild := mem_of_getLeft?_entryToRename? hentry hown
    obtain ⟨-, hclause, -, -, hlist, -⟩ := ImportParts.of?_eq_some hparts
    obtain ⟨list, hl, hs⟩ := ImportParts.exists_list hparts hspecifier
    obtain ⟨hclause, hkind⟩ := of_childOf? hclause
    have htext : t.text own = old := by
      obtain ⟨named, hnamed, rfl⟩ := Option.map_eq_some_iff.mp hentry
      have hnamed := of_decide_eq_true (Option.filter_eq_some_iff.mp hnamed).2
      split at hown
      · split at hown
        · cases hown
        · exact Option.some.inj hown ▸ hnamed
      · cases hown
    refine ⟨own, new, htext, hnew, rfl, .inr ⟨statement,
      Node.mem_of_mem_childrenOf (List.mem_filter.mp hstatement).1, p.clause, hclause, hkind, ?_⟩⟩
    exact Node.mem_preorder_trans (Node.mem_preorder_of_child (of_childOf? (hlist ▸ hl)).1)
      (Node.mem_preorder_trans (Node.mem_preorder_of_child (Node.mem_of_mem_childrenOf hs))
        (Node.mem_preorder_of_child hchild))
  · -- A reference to what is imported.
    obtain ⟨decl, -, he⟩ := List.mem_flatMap.mp h
    by_cases hne : old = new
    · rw [renameIdentifier, if_pos hne] at he
      cases he
    · obtain ⟨n, parent, hmem, hname, htext, -, rfl⟩ := (mem_renameIdentifier hne).mp he
      exact ⟨n, _, htext, renamedText_ne_empty hnew parent n, rfl,
        .inl ⟨mem_nodes_of_mem_withParents hmem, hname⟩⟩

/-- A renamed import changes no source. -/
theorem sourcesOf_renameImported (ht : t.WellLinked) (hold : old ≠ "") (hnew : new ≠ "")
    {source? : Option String}
    (hsource : t'.source = (applyEdits t.source (renameImported t old new source?)).1)
    (hmoved : LinksMoved t (renameImported t old new source?) t') :
    sourcesOf t' = sourcesOf t := by
  have hreplaces : ∀ e ∈ renameImported t old new source?, e.Replaces t.source := by
    intro e he
    obtain ⟨n, replacement, htext, hne, rfl, -⟩ := of_mem_renameImported hnew he
    obtain ⟨hfits, hlt⟩ := fitsIn_of_slice htext hold replacement
    exact ⟨hfits, hlt, hne⟩
  obtain ⟨hout, hmerged, -⟩ := Edit.carriesOut_mergeEdits hreplaces
    ((wholeNodes_renameImported t old new source?).clean ht.wellFormed).2
  rw [sourcesOf_eq_map ht hsource hmoved id, Option.map_id, List.map_id]
  intro link hlink span hspan hslice
  dsimp only
  rw [← Edit.movedSpan_reverse]
  refine hout.slice?_of_clear hslice fun e he => ?_
  obtain ⟨n, replacement, -, -, rfl, hcase⟩ :=
    of_mem_renameImported hnew (hmerged e (List.mem_reverse.mp he))
  rcases hcase with ⟨hn, hname⟩ | ⟨statement, hstatement, clause, hclause, hkind, hn⟩
  · exact name_clear ht hlink hspan hn hname
  · exact clause_clear ht.wellFormed hlink hspan hstatement hclause hkind hn

end Refactoring

end ScriptRefactor
