import ScriptRefactor.Proofs.Refactoring.Batches
import ScriptRefactor.Refactoring.ArrayElements
import ScriptRefactor.Refactoring.ObjectProperties
import ScriptRefactor.Refactoring.StringLiterals

/-!
# `ScriptRefactor.Proofs.Refactoring.LiteralBatches`: edits of literals

Every object is changed by one edit at most, and the edit of an object
contains the objects inside or leaves them alone: it goes between edges,
and behind the comma that it takes with the first property no object has
started yet (`firstEntry_fits`). Arrays are changed by a single edit.
Strings hold no strings, so their edits lie clear of each other.
-/

set_option autoImplicit false

namespace ScriptRefactor

open Syntax

namespace Refactoring

variable {t : Tree} {n c : Node} {e : Edit}

/-! ### Objects -/

/-- The positions behind the opening and in front of the closing bracket
are edges. -/
theorem isEdge_of_bracketed {opening closing : Char} (hn : n.SpansNested)
    (h : n.Bracketed t.source opening closing) :
    n.start + 2 ≤ n.stop ∧ n.IsEdge (n.start + 1) ∧ n.IsEdge (n.stop - 1) := by
  obtain ⟨first, mid, last, hchildren, ⟨-, hfirst⟩, ⟨-, hlast⟩⟩ := h.exists_children
  have hapart := hn.apart n (Node.mem_preorder_self n)
  rw [hchildren] at hapart
  have hgap := (List.pairwise_cons.mp hapart).1 last (by simp)
  have hfirstEdge := (Node.isEdge_child hn (d := first) (by simp [hchildren])).2
  have hlastEdge := (Node.isEdge_child hn (d := last) (by simp [hchildren])).1
  rw [hfirst] at hfirstEdge
  rw [show n.stop - 1 = last.start by omega]
  exact ⟨by omega, hfirstEdge, hlastEdge⟩

/-- An entry is a child, and lies between the brackets. -/
theorem of_mem_entriesOf {opening closing : Char} (hn : n.SpansNested)
    (h : n.Bracketed t.source opening closing) (hc : c ∈ entriesOf n) :
    c ∈ n.children ∧ n.start + 1 ≤ c.start ∧ c.stop + 1 ≤ n.stop := by
  obtain ⟨first, mid, last, hchildren, ⟨hfirstNamed, hfirst⟩, ⟨hlastNamed, hlast⟩⟩ :=
    h.exists_children
  obtain ⟨hchild, hnamed⟩ := List.mem_filter.mp (List.mem_filter.mp hc).1
  refine ⟨hchild, ?_⟩
  have hapart := hn.apart n (Node.mem_preorder_self n)
  rw [hchildren] at hchild hapart
  obtain ⟨hfront, hapart⟩ := List.pairwise_cons.mp hapart
  rcases List.mem_cons.mp hchild with rfl | hchild
  · exact absurd (hfirstNamed.symm.trans hnamed) (by decide)
  · have hstart := hfront c hchild
    rcases List.mem_append.mp hchild with hchild | hchild
    · have hstop := (List.pairwise_append.mp hapart).2.2 c hchild last (by simp)
      omega
    · obtain rfl := List.mem_singleton.mp hchild
      exact absurd (hlastNamed.symm.trans hnamed) (by decide)

/-- The objects bound to variables are objects of the tree. -/
theorem of_mem_objectsOf {var? : Option String} (h : n ∈ objectsOf t var?) :
    n ∈ t.nodes ∧ n.is .object = true := by
  obtain ⟨d, hd, h⟩ := List.mem_filterMap.mp h
  have hvalue : (d.child? .value).filter (·.is .object) = some n := by
    dsimp only at h
    split at h
    · split at h
      · exact h
      · cases h
    · simpa using h
  obtain ⟨hchild, hkind⟩ := Option.filter_eq_some_iff.mp hvalue
  exact ⟨child_mem_nodes (List.mem_filter.mp hd).1 (Node.mem_of_child? hchild), hkind⟩

/-- At most one edit of each object, each of which fits its object, form
a clean batch. -/
theorem clean_of_objects {var? : Option String} {f : Node → Option Edit} (ht : t.WellFormed)
    (h : ∀ n ∈ t.nodes, n.is .object = true →
      ∀ e ∈ f n, Owned t (fun m => m.is .object = true) n e) :
    Clean t ((objectsOf t var?).filterMap f) := by
  refine clean_of_owners (P := fun m => m.is .object = true) ht (fun n => (f n).toList)
    (fun e he => ?_) fun n hn hkind => ⟨fun e he => ?_, allCompatible_of_single fun a ha b hb => ?_⟩
  · obtain ⟨n, hn, he⟩ := List.mem_filterMap.mp he
    obtain ⟨hmem, hkind⟩ := of_mem_objectsOf hn
    exact ⟨n, hmem, hkind, Option.mem_toList.mpr he⟩
  · exact h n hn hkind e (Option.mem_toList.mp he)
  · exact Option.some.inj ((Option.mem_toList.mp ha).symm.trans (Option.mem_toList.mp hb))

/-- A property is an entry, and no object itself. -/
theorem of_findProperty? {object property : Node} {key : String}
    (h : findProperty? t object key = some property) :
    property ∈ entriesOf object ∧ hasKey t key property = true :=
  ⟨List.mem_of_find?_eq_some h, List.find?_some h⟩

/-- What goes by a key is a pair, or a name in short. -/
theorem not_object_of_hasKey {property : Node} {key : String} (h : hasKey t key property = true) :
    ¬ property.is .object = true := by
  unfold hasKey propertyKey? at h
  split at h
  · rename_i hpair
    exact not_is_of_is hpair (by decide)
  · split at h
    · rename_i hshort
      exact not_is_of_is hshort (by decide)
    · cases h

/-- A property, or a part of it, fits the object. -/
theorem property_owned {object property : Node} {key : String} (ht : t.WellFormed)
    (hobject : object ∈ t.nodes) (hkind : object.is .object = true)
    (hfound : findProperty? t object key = some property)
    (hn : n = property ∨ n ∈ property.children) (text : String) : Owned t (fun m => m.is .object = true) object (.replaceNode n text) := by
  obtain ⟨hentry, hkey⟩ := of_findProperty? hfound
  have hspans := ht.spans.below hobject
  have hchild := (of_mem_entriesOf hspans (ht.braces object hobject hkind) hentry).1
  rcases hn with rfl | hn
  · have hedges := Node.isEdge_child hspans hchild
    exact .inr ⟨(inText_of_mem ht (child_mem_nodes hobject hchild)).1,
      Edit.fits_of_isEdge hspans hedges.1 hedges.2⟩
  · have hproperty := child_mem_nodes hobject hchild
    have hedges := Node.isEdge_child (ht.spans.below hproperty) hn
    exact .inr ⟨(inText_of_mem ht (child_mem_nodes hproperty hn)).1,
      Edit.fits_of_child hspans hchild (not_object_of_hasKey hkey)
        (Edit.fits_of_isEdge (ht.spans.below hproperty) hedges.1 hedges.2)⟩

/-- Values of properties are replaced without conflict. -/
theorem clean_setProperty (ht : t.WellFormed) (var? : Option String) (key value : String) :
    Clean t (setProperty t var? key value) := by
  refine clean_of_objects ht fun n hn hkind e he => ?_
  obtain ⟨property, hfound, he⟩ := Option.bind_eq_some_iff.mp he
  split at he
  · obtain rfl := Option.some.inj he
    exact property_owned ht hn hkind hfound (.inl rfl) _
  · obtain ⟨own, hown, rfl⟩ := Option.map_eq_some_iff.mp he
    exact property_owned ht hn hkind hfound (.inr (Node.mem_of_child? hown)) _

/-- Keys of properties are renamed without conflict. -/
theorem clean_renameProperty (ht : t.WellFormed) (var? : Option String) (old new : String) :
    Clean t (renameProperty t var? old new) := by
  refine clean_of_objects ht fun n hn hkind e he => ?_
  obtain ⟨property, hfound, he⟩ := Option.bind_eq_some_iff.mp he
  split at he
  · obtain rfl := Option.some.inj he
    exact property_owned ht hn hkind hfound (.inl rfl) _
  · obtain ⟨own, hown, rfl⟩ := Option.map_eq_some_iff.mp he
    refine property_owned ht hn hkind hfound ?_ _
    unfold propertyKey? at hown
    split at hown
    · exact .inr (Node.mem_of_child? (Option.filter_eq_some_iff.mp hown).1)
    · cases hown

/-- A property is dropped with what stands in front of it, or from the
end of a property in front. -/
theorem removeAmong?_cases {object : Node} {key : String} {before? : Option Node} {l : List Node}
    (horder : (before?.toList ++ l).Pairwise fun a b => a.stop ≤ b.start)
    (h : removeAmong? t object key before? l = some e) :
    ∃ property ∈ l, e = .delete (object.start + 1) (endWithComma t property)
      ∨ ∃ before ∈ before?.toList ++ l, before.stop ≤ property.start
        ∧ e = .delete before.stop property.stop := by
  induction l generalizing before? with
  | nil => cases h
  | cons property rest ih =>
      unfold removeAmong? at h
      split at h
      · refine ⟨property, List.mem_cons_self .., ?_⟩
        split at h
        · rename_i before
          exact .inr ⟨before, by simp,
            (List.pairwise_append.mp horder).2.2 before (by simp) property (by simp),
            (Option.some.inj h).symm⟩
        · exact .inl (Option.some.inj h).symm
      · obtain ⟨found, hfound, hcase⟩ := @ih (some property)
          (horder.sublist (List.sublist_append_right ..)) h
        refine ⟨found, List.mem_cons_of_mem _ hfound, hcase.imp_right ?_⟩
        rintro ⟨before, hbefore, hrest⟩
        exact ⟨before, List.mem_append_right _ hbefore, hrest⟩

/-- The first entry, dropped with what stands in front of it and a comma
behind, fits the object: objects further on start with their brace. -/
theorem firstEntry_fits {property : Node} (ht : t.WellFormed) (hn : n ∈ t.nodes)
    (hkind : n.is .object = true) (hentry : property ∈ entriesOf n) :
    Owned t (fun m => m.is .object = true) n
      (.delete (n.start + 1) (endWithComma t property)) := by
  have hspans := ht.spans.below hn
  have hbraces := ht.braces n hn hkind
  obtain ⟨hchild, hstart, hstop⟩ := of_mem_entriesOf hspans hbraces hentry
  have hproper := (inText_of_mem ht (child_mem_nodes hn hchild)).1
  have hcomma := le_endWithComma t property
  have hclose : endWithComma t property ≤ n.stop - 1 :=
    endWithComma_le (by decide) hbraces.closes (by omega)
  refine .inr ⟨?_, ?_, ?_, fun c hc m hm hobject => ?_⟩
  · show n.start + 1 ≤ endWithComma t property
    omega
  · show n.start ≤ n.start + 1
    omega
  · show endWithComma t property ≤ n.stop
    omega
  · show endWithComma t property ≤ m.start ∨ m.stop ≤ n.start + 1
      ∨ (n.start + 1 ≤ m.start ∧ m.stop ≤ endWithComma t property)
    have hmem := child_mem_nodes hn hc
    have hinside := (ht.spans.below hmem).le_of_mem_preorder hm
    have hedge := (isEdge_of_bracketed hspans hbraces).2.1.2.2 c hc
    by_cases hbehind : property.stop ≤ m.start
    · have hopens := (ht.braces m (Node.mem_preorder_trans hmem hm) hobject).opens
      exact .inl (endWithComma_le (by decide) hopens hbehind)
    · by_cases hne : c = property
      · subst hne
        omega
      · have hclear := hspans.children_apart hc hchild hne
        omega

/-- Properties are dropped without conflict. -/
theorem clean_removeProperty (ht : t.WellFormed) (var? : Option String) (key : String) :
    Clean t (removeProperty t var? key) := by
  refine clean_of_objects ht fun n hn hkind e he => ?_
  have hspans := ht.spans.below hn
  have hbraces := ht.braces n hn hkind
  have horder : (entriesOf n).Pairwise fun a b => a.stop ≤ b.start :=
    (hspans.apart n (Node.mem_preorder_self n)).sublist
      (List.filter_sublist.trans List.filter_sublist)
  obtain ⟨property, hproperty, rfl | ⟨before, hbefore, hle, rfl⟩⟩ := removeAmong?_cases horder he
  · exact firstEntry_fits ht hn hkind hproperty
  · have hproperty := (of_mem_entriesOf hspans hbraces hproperty).1
    have hbefore := (of_mem_entriesOf hspans hbraces hbefore).1
    have hproper := (inText_of_mem ht (child_mem_nodes hn hproperty)).1
    refine .inr ⟨?_, Edit.fits_of_isEdge hspans (Node.isEdge_child hspans hbefore).2
      (Node.isEdge_child hspans hproperty).2⟩
    show before.stop ≤ property.stop
    omega

/-- The edits of changes made one after the other. -/
theorem edits_foldl_append (objects : List Node) (f : Node → Changes) (changes : Changes) :
    (objects.foldl (fun changes object => changes.append (f object)) changes).edits
      = changes.edits ++ objects.flatMap fun object => (f object).edits := by
  induction objects generalizing changes with
  | nil => simp
  | cons object objects ih =>
      rw [List.foldl_cons, ih, List.flatMap_cons, ← List.append_assoc]
      rfl

/-- A new property fits its object. -/
theorem addEntry_owned (ht : t.WellFormed) (hn : n ∈ t.nodes) (hkind : n.is .object = true)
    (entry : String) :
    (∀ e ∈ addEntry t n entry, Owned t (fun m => m.is .object = true) n e)
      ∧ Edit.AllCompatible (addEntry t n entry) := by
  have hspans := ht.spans.below hn
  have hbraces := ht.braces n hn hkind
  obtain ⟨hle, hopen, hclose⟩ := isEdge_of_bracketed hspans hbraces
  have htext := (inText_of_mem ht hn).2
  unfold addEntry
  split
  · dsimp only
    split
    · refine Owned.single (.inl ⟨rfl, ?_⟩)
      show n.start + 1 ≤ Text.size t.source
      omega
    · refine Owned.single (.inr ⟨?_, Edit.fits_of_isEdge hspans hopen hclose⟩)
      show n.start + 1 ≤ n.stop - 1
      omega
  · rename_i properties _
    cases he : (ListLayout.of t n (entriesOf n)).append? (entriesOf n) [entry] with
    | none => exact nil_owned
    | some x =>
        refine Owned.single (.inl (of_append? (fun i hi => ?_) he))
        exact (inText_of_mem ht (child_mem_nodes hn (of_mem_entriesOf hspans hbraces hi).1)).2

/-- Properties are added without conflict. -/
theorem clean_addProperty (ht : t.WellFormed) (var? : Option String) (key value : String) :
    Clean t (addProperty t var? key value).edits := by
  unfold addProperty
  rw [edits_foldl_append]
  refine clean_of_owners (P := fun m => m.is .object = true) ht
    (fun n => addEntry t n (key ++ ": " ++ value)) (fun e he => ?_)
    fun n hn hkind => addEntry_owned ht hn hkind _
  obtain ⟨n, hn, he⟩ := List.mem_flatMap.mp he
  obtain ⟨hmem, hkind⟩ := of_mem_objectsOf hn
  refine ⟨n, hmem, hkind, ?_⟩
  split at he
  · exact absurd he List.not_mem_nil
  · exact he

/-! ### Arrays -/

/-- The array bound to a variable is an array of the tree. -/
theorem of_findArray? {var : String} {array : Node} (h : findArray? t var = some array) :
    array ∈ t.nodes ∧ array.is .array = true := by
  obtain ⟨d, hd, h⟩ := List.exists_of_findSome?_eq_some h
  split at h
  · obtain ⟨hchild, hkind⟩ := Option.filter_eq_some_iff.mp h
    exact ⟨child_mem_nodes (List.mem_filter.mp hd).1 (Node.mem_of_child? hchild), hkind⟩
  · cases h

/-- A new element is text put in. -/
theorem wholeNodes_addToArray (ht : t.WellFormed) (var code : String) :
    WholeNodes t (addToArray t var code) := by
  unfold addToArray
  split
  · rename_i array harray
    obtain ⟨hmem, hkind⟩ := of_findArray? harray
    have hspans := ht.spans.below hmem
    have hbrackets := ht.brackets array hmem hkind
    intro e he
    obtain rfl := List.mem_singleton.mp he
    split
    · rename_i last hlast
      have hchild := (of_mem_entriesOf hspans hbrackets (List.mem_of_getLast? hlast)).1
      exact WholeNode.insert_stop ht (child_mem_nodes hmem hchild) _
    · have hle := (isEdge_of_bracketed hspans hbrackets).1
      have htext := (inText_of_mem ht hmem).2
      refine .inl ⟨rfl, ?_⟩
      show array.start + 1 ≤ Text.size t.source
      omega
  · exact WholeNodes.nil t

/-- The second entry of a list begins behind the first one. -/
theorem stop_le_start_of_entriesOf {first next : Node} {rest : List Node} (hspans : n.SpansNested)
    (h : entriesOf n = first :: next :: rest) : first.stop ≤ next.start := by
  have horder : (entriesOf n).Pairwise fun a b => a.stop ≤ b.start :=
    (hspans.apart n (Node.mem_preorder_self n)).sublist
      (List.filter_sublist.trans List.filter_sublist)
  rw [h] at horder
  exact (List.pairwise_cons.mp horder).1 next (List.mem_cons_self ..)

/-- An element is dropped by one edit of the text. -/
theorem clean_removeElement {element : Node} (ht : t.WellFormed) (hn : n ∈ t.nodes)
    (hkind : n.is .array = true) (hentry : element ∈ entriesOf n) :
    Clean t (removeElement t n element).edits := by
  have hspans := ht.spans.below hn
  have hbrackets := ht.brackets n hn hkind
  have htext := (inText_of_mem ht hn).2
  obtain ⟨hchild, hstart, hstop⟩ := of_mem_entriesOf hspans hbrackets hentry
  have hmem := child_mem_nodes hn hchild
  have hproper := (inText_of_mem ht hmem).1
  have hnil : Clean t [] := WholeNodes.clean ht (WholeNodes.nil t)
  unfold removeElement
  split
  · exact hnil
  · split
    · have hcomma := le_endWithComma t element
      have hclose : endWithComma t element ≤ n.stop - 1 :=
        endWithComma_le (by decide) hbrackets.closes (by omega)
      refine clean_single ⟨?_, ?_⟩
      · show n.start + 1 ≤ endWithComma t element
        omega
      · show endWithComma t element ≤ Text.size t.source
        omega
    · exact hnil
  · rename_i first next rest hentries
    split
    · rename_i hid
      -- Its number tells that the element is the first one.
      have hfirst : first ∈ entriesOf n := hentries ▸ List.mem_cons_self ..
      have hfmem := child_mem_nodes hn (of_mem_entriesOf hspans hbrackets hfirst).1
      obtain rfl := Node.eq_of_id_eq ht.ids hfmem hmem hid
      have hgap := stop_le_start_of_entriesOf hspans hentries
      have hnext : next ∈ entriesOf n := hentries ▸ List.mem_cons_of_mem _ (List.mem_cons_self ..)
      have hnmem := child_mem_nodes hn (of_mem_entriesOf hspans hbrackets hnext).1
      have hnproper := inText_of_mem ht hnmem
      refine clean_single ⟨?_, ?_⟩
      · show first.start ≤ next.start
        omega
      · show next.start ≤ Text.size t.source
        omega
    · split
      · have hcomma := startWithComma_le t element
        refine clean_single ⟨?_, ?_⟩
        · show startWithComma t element ≤ element.stop
          omega
        · show element.stop ≤ Text.size t.source
          omega
      · exact hnil

/-- A name is dropped from an array by one edit of the text. -/
theorem clean_removeFromArray (ht : t.WellFormed) (var name : String) :
    Clean t (removeFromArray t var name).edits := by
  have hnil : Clean t [] := WholeNodes.clean ht (WholeNodes.nil t)
  unfold removeFromArray
  split
  · exact hnil
  · rename_i array harray
    obtain ⟨hmem, hkind⟩ := of_findArray? harray
    split
    · rename_i element helement
      exact clean_removeElement ht hmem hkind (List.mem_of_find?_eq_some helement)
    · exact hnil

/-! ### Strings -/

/-- The text of a span is no longer than the span. -/
theorem byteSize_slice_le (t : Tree) (span : Span) :
    Text.byteSize (t.slice span).toList ≤ span.stop - span.start := by
  unfold Tree.slice
  cases hpart : Text.slice? t.source span.start span.stop with
  | none => exact Nat.zero_le _
  | some part => exact (Text.size_of_slice? hpart).2.1.le

/-- A text is replaced within the span. -/
theorem replaceInside?_le {old new : String} {wholeValue : Bool} {span : Span}
    (hspan : span.start ≤ span.stop) (h : replaceInside? t old new wholeValue span = some e) :
    span.start ≤ e.start ∧ e.start ≤ e.stop ∧ e.stop ≤ span.stop := by
  unfold replaceInside? at h
  dsimp only at h
  split at h
  · split at h
    · obtain rfl := Option.some.inj h
      exact ⟨Nat.le_refl _, hspan, Nat.le_refl _⟩
    · cases h
  · obtain ⟨before, hbefore, rfl⟩ := Option.map_eq_some_iff.mp h
    obtain ⟨after, hsplit⟩ := Text.exists_of_before? hbefore
    have hsize := byteSize_slice_le t span
    rw [hsplit, Text.byteSize_append, Text.byteSize_append] at hsize
    refine ⟨Nat.le_add_right .., Nat.le_add_right .., ?_⟩
    show span.start + Text.byteSize before + Text.byteSize old.toList ≤ span.stop
    omega

/-- Texts in strings are replaced without conflict. -/
theorem clean_replaceInStrings (ht : t.WellFormed) (old new : String) (wholeValue : Bool) :
    Clean t (replaceInStrings t old new wholeValue) := by
  unfold replaceInStrings
  split
  · exact WholeNodes.clean ht (WholeNodes.nil t)
  · refine clean_of_owners (P := fun m => m.kind.name = "string") ht
      (fun n => ((Tree.stringContent? n).bind (replaceInside? t old new wholeValue)).toList)
      (fun e he => ?_) fun n hn hkind =>
        ⟨fun e he => .inr ?_, allCompatible_of_single fun a ha b hb => ?_⟩
    · obtain ⟨span, hspan, he⟩ := List.mem_filterMap.mp he
      obtain ⟨n, hn, hspan⟩ := List.mem_filterMap.mp hspan
      obtain ⟨hmem, hkind⟩ := List.mem_filter.mp hn
      refine ⟨n, hmem, of_decide_eq_true hkind, Option.mem_toList.mpr ?_⟩
      rw [hspan]
      exact he
    · obtain ⟨span, hspan, he⟩ := Option.bind_eq_some_iff.mp (Option.mem_toList.mp he)
      obtain ⟨hlong, rfl⟩ := of_stringContent? hspan
      have hinside : n.start + 1 ≤ n.stop - 1 := by omega
      obtain ⟨hstart, hproper, hstop⟩ := replaceInside?_le hinside he
      -- No other string is below this one, so the edit cuts none.
      refine ⟨hproper, ?_, ?_, fun c hc m hm hstring =>
        absurd hstring (ht.strings n hn hkind c hc m hm)⟩
      · exact Nat.le_trans (Nat.le_succ _) hstart
      · exact Nat.le_trans hstop (Nat.sub_le _ _)
    · exact Option.some.inj ((Option.mem_toList.mp ha).symm.trans (Option.mem_toList.mp hb))

end Refactoring

end ScriptRefactor
