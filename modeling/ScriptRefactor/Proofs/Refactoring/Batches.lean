import ScriptRefactor.Proofs.Refactoring.ListLayout

/-!
# `ScriptRefactor.Proofs.Refactoring.Batches`: batches without conflict on a tree

A batch of edits is *clean* if its edits lie in the text and none cuts
another one. There are two reasons why the edits of a transform of a
well-formed tree are clean. Either each of them puts text in or takes
the place of a whole node; whole nodes do not cut one another
(`WholeNodes.clean`). Or each belongs to a statement, an object or a
string, and fits it; then only the edits of one such node have to be
compared (`clean_of_owners`).
-/

set_option autoImplicit false

namespace ScriptRefactor

open Syntax

/-! ### Well-formed trees -/

/-- The node has a bracket of one byte at each end, and its other children
in between. -/
structure Syntax.Node.Bracketed (text : String) (opening closing : Char) (n : Node) : Prop where
  /-- There are two brackets. -/
  two : 2 ≤ n.children.length
  /-- The first child is the opening bracket. -/
  first : ∀ c ∈ n.children.head?, c.isNamed = false ∧ c.start = n.start ∧ c.stop = n.start + 1
  /-- The last child is the closing bracket. -/
  last : ∀ c ∈ n.children.getLast?, c.isNamed = false ∧ c.start + 1 = n.stop ∧ c.stop = n.stop
  /-- The text opens with the bracket. -/
  opens : Text.hasCharAt text n.start opening = true
  /-- The text closes with the bracket. -/
  closes : Text.hasCharAt text (n.stop - 1) closing = true

instance (text : String) (opening closing : Char) (n : Node) :
    Decidable (n.Bracketed text opening closing) :=
  decidable_of_iff (2 ≤ n.children.length
      ∧ (∀ c ∈ n.children.head?, c.isNamed = false ∧ c.start = n.start ∧ c.stop = n.start + 1)
      ∧ (∀ c ∈ n.children.getLast?, c.isNamed = false ∧ c.start + 1 = n.stop ∧ c.stop = n.stop)
      ∧ Text.hasCharAt text n.start opening = true
      ∧ Text.hasCharAt text (n.stop - 1) closing = true)
    ⟨fun ⟨h1, h2, h3, h4, h5⟩ => ⟨h1, h2, h3, h4, h5⟩,
      fun h => ⟨h.two, h.first, h.last, h.opens, h.closes⟩⟩

/-- The children of a node in brackets are the brackets and what stands
between. -/
theorem Syntax.Node.Bracketed.exists_children {text : String} {opening closing : Char} {n : Node}
    (h : n.Bracketed text opening closing) :
    ∃ first mid last, n.children = first :: (mid ++ [last])
      ∧ (first.isNamed = false ∧ first.stop = n.start + 1)
      ∧ (last.isNamed = false ∧ last.start + 1 = n.stop) := by
  obtain ⟨htwo, hfirst, hlast, -, -⟩ := h
  cases hchildren : n.children with
  | nil => simp [hchildren] at htwo
  | cons first rest =>
      have hne : rest ≠ [] := by
        rintro rfl
        simp [hchildren] at htwo
      have hrest := List.dropLast_append_getLast hne
      obtain ⟨hfirstNamed, -, hfirst⟩ := hfirst first (by simp [hchildren])
      obtain ⟨hlastNamed, hlast, -⟩ := hlast (rest.getLast hne)
        (by rw [hchildren, List.getLast?_cons_of_ne_nil hne]
            exact List.getLast?_eq_getLast_of_ne_nil hne)
      exact ⟨first, rest.dropLast, rest.getLast hne, by rw [hrest], ⟨hfirstNamed, hfirst⟩,
        ⟨hlastNamed, hlast⟩⟩

/-- The spans of the tree are nested and lie in the text, its nodes have
different numbers, and the parts of imports and literals are in the
order of the grammar. -/
structure Syntax.Tree.WellFormed (t : Tree) : Prop where
  /-- Children lie within their parents, in text order. -/
  spans : t.root.SpansNested
  /-- The tree lies in the text. -/
  within : t.root.stop ≤ Text.size t.source
  /-- The nodes are told apart by their numbers. -/
  ids : t.root.ids.Nodup
  /-- A default name stands in front of the namespace or the list. -/
  importOrder : ∀ clause ∈ t.nodes, clause.is .importClause = true →
    ∀ default ∈ clause.childOf? .identifier, ∀ next ∈ (clause.childOf? .namespaceImport).toList
      ++ (clause.childOf? .namedImports).toList, default.stop ≤ next.start
  /-- Objects are written in braces. -/
  braces : ∀ n ∈ t.nodes, n.is .object = true → n.Bracketed t.source '\x7b' '\x7d'
  /-- Arrays are written in brackets. -/
  brackets : ∀ n ∈ t.nodes, n.is .array = true → n.Bracketed t.source '[' ']'
  /-- No string is part of another one. -/
  strings : ∀ n ∈ t.nodes, n.kind.name = "string" →
    ∀ c ∈ n.children, ∀ m ∈ c.preorder, m.kind.name ≠ "string"

instance (t : Tree) : Decidable t.WellFormed :=
  decidable_of_iff (t.root.SpansNested ∧ t.root.stop ≤ Text.size t.source ∧ t.root.ids.Nodup
      ∧ (∀ clause ∈ t.nodes, clause.is .importClause = true →
        ∀ default ∈ clause.childOf? .identifier, ∀ next ∈ (clause.childOf? .namespaceImport).toList
          ++ (clause.childOf? .namedImports).toList, default.stop ≤ next.start)
      ∧ (∀ n ∈ t.nodes, n.is .object = true → n.Bracketed t.source '\x7b' '\x7d')
      ∧ (∀ n ∈ t.nodes, n.is .array = true → n.Bracketed t.source '[' ']')
      ∧ ∀ n ∈ t.nodes, n.kind.name = "string" →
        ∀ c ∈ n.children, ∀ m ∈ c.preorder, m.kind.name ≠ "string")
    ⟨fun ⟨h1, h2, h3, h4, h5, h6, h7⟩ => ⟨h1, h2, h3, h4, h5, h6, h7⟩, fun h =>
      ⟨h.spans, h.within, h.ids, h.importOrder, h.braces, h.brackets, h.strings⟩⟩

namespace Refactoring

variable {t : Tree} {n c : Node} {e : Edit} {edits more : List Edit} {P : Node → Prop}

/-- A node of the tree lies in the text. -/
theorem inText_of_mem (ht : t.WellFormed) (hn : n ∈ t.nodes) :
    n.start ≤ n.stop ∧ n.stop ≤ Text.size t.source :=
  ⟨ht.spans.proper n hn, Nat.le_trans (ht.spans.le_of_mem_preorder hn).2 ht.within⟩

/-- A child of a node of the tree is in the tree. -/
theorem child_mem_nodes (hn : n ∈ t.nodes) (hc : c ∈ n.children) : c ∈ t.nodes :=
  Node.mem_preorder_trans hn (Node.mem_preorder_of_child hc)

/-- The first child of a kind is a child of that kind. -/
theorem of_childOf? {kind : Construct} (h : n.childOf? kind = some c) :
    c ∈ n.children ∧ c.is kind = true :=
  ⟨List.mem_of_find?_eq_some h, List.find?_some (p := fun m : Node => m.is kind) h⟩

/-- A node is of one kind only. -/
theorem not_is_of_is {kind other : Construct} (h : n.is kind = true) (hne : kind ≠ other) :
    ¬ n.is other = true := by
  intro hother
  have hk := of_decide_eq_true h
  rw [of_decide_eq_true hother] at hk
  exact hne (Kind.construct.inj hk).symm

/-- What stands between the quotes stands in the string. -/
theorem of_stringContent? {span : Span} (h : Tree.stringContent? n = some span) :
    n.start + 2 ≤ n.stop ∧ span = ⟨n.start + 1, n.stop - 1⟩ := by
  unfold Tree.stringContent? at h
  split at h
  · rename_i hcond
    exact ⟨of_decide_eq_true (Bool.and_eq_true_iff.mp hcond).2, (Option.some.inj h).symm⟩
  · cases h

/-! ### Clean batches -/

/-- The edits lie in the text, and none cuts another one. -/
def Clean (t : Tree) (edits : List Edit) : Prop :=
  (∀ e ∈ edits, e.InText t.source) ∧ Edit.AllCompatible edits

/-- The edit puts text in, or takes the place of a whole node. -/
def WholeNode (t : Tree) (e : Edit) : Prop :=
  (e.start = e.stop ∧ e.stop ≤ Text.size t.source)
    ∨ ∃ n ∈ t.nodes, e.start = n.start ∧ e.stop = n.stop

/-- Every edit puts text in, or takes the place of a whole node. -/
def WholeNodes (t : Tree) (edits : List Edit) : Prop := ∀ e ∈ edits, WholeNode t e

/-- No edits. -/
theorem WholeNodes.nil (t : Tree) : WholeNodes t [] := fun _ he => absurd he List.not_mem_nil

/-- Two batches of whole nodes, one behind the other. -/
theorem WholeNodes.append (h : WholeNodes t edits) (hmore : WholeNodes t more) :
    WholeNodes t (edits ++ more) := fun e he => (List.mem_append.mp he).elim (h e) (hmore e)

/-- At most one edit, of a whole node. -/
theorem WholeNodes.toList {e? : Option Edit} (h : ∀ e ∈ e?, WholeNode t e) :
    WholeNodes t e?.toList := fun e he => h e (Option.mem_toList.mp he)

/-- Whole nodes do not cut one another. -/
theorem WholeNodes.clean (ht : t.WellFormed) (h : WholeNodes t edits) : Clean t edits := by
  refine ⟨fun e he => ?_, fun a ha b hb => ?_⟩
  · rcases h e he with ⟨heq, hle⟩ | ⟨n, hn, hstart, hstop⟩
    · exact ⟨heq.le, hle⟩
    · rw [Edit.InText, hstart, hstop]
      exact inText_of_mem ht hn
  · rcases h a ha with ⟨ha, -⟩ | ⟨n, hn, hnstart, hnstop⟩
    · exact .inl ha
    · rcases h b hb with ⟨hb, -⟩ | ⟨m, hm, hmstart, hmstop⟩
      · exact .inr (.inl hb)
      · have hnested : n ∈ m.preorder ∨ m ∈ n.preorder ∨ n.stop ≤ m.start ∨ m.stop ≤ n.start :=
          ht.spans.below_or_clear hn hm
        have hnm := fun h => (ht.spans.below hm).le_of_mem_preorder (m := n) h
        have hmn := fun h => (ht.spans.below hn).le_of_mem_preorder (m := m) h
        unfold Edit.Compatible
        rcases hnested with h | h | h
        · have := hnm h
          omega
        · have := hmn h
          omega
        · omega

/-- The edit puts text in, or fits the node. -/
def Owned (t : Tree) (P : Node → Prop) (n : Node) (e : Edit) : Prop :=
  (e.start = e.stop ∧ e.stop ≤ Text.size t.source) ∨ (e.start ≤ e.stop ∧ e.Fits P n)

/-- Edits that belong to nodes of a sort form a clean batch if those of
each node do. -/
theorem clean_of_owners (ht : t.WellFormed) (f : Node → List Edit)
    (howner : ∀ e ∈ edits, ∃ n ∈ t.nodes, P n ∧ e ∈ f n)
    (howned : ∀ n ∈ t.nodes, P n → (∀ e ∈ f n, Owned t P n e) ∧ Edit.AllCompatible (f n)) :
    Clean t edits := by
  refine ⟨fun e he => ?_, fun a ha b hb => ?_⟩
  · obtain ⟨n, hn, hP, hf⟩ := howner e he
    rcases (howned n hn hP).1 e hf with ⟨heq, hle⟩ | ⟨hproper, -, hstop, -⟩
    · exact ⟨heq.le, hle⟩
    · exact ⟨hproper, Nat.le_trans hstop (inText_of_mem ht hn).2⟩
  · obtain ⟨n, hn, hPn, ha⟩ := howner a ha
    obtain ⟨m, hm, hPm, hb⟩ := howner b hb
    rcases (howned n hn hPn).1 a ha with ⟨heq, -⟩ | ⟨-, hfita⟩
    · exact .inl heq
    · rcases (howned m hm hPm).1 b hb with ⟨heq, -⟩ | ⟨-, hfitb⟩
      · exact .inr (.inl heq)
      · by_cases hnm : n = m
        · subst hnm
          exact (howned n hn hPn).2 a ha b hb
        · exact hfita.compatible ht.spans hn hm hnm hPn hPm hfitb

/-- A single edit cuts no other one. -/
theorem allCompatible_of_single (h : ∀ a ∈ edits, ∀ b ∈ edits, a = b) : Edit.AllCompatible edits :=
  fun a ha b hb => h a ha b hb ▸ Edit.Compatible.refl a

/-- Neither does the edit of a batch of one. -/
theorem allCompatible_singleton (e : Edit) : Edit.AllCompatible [e] :=
  allCompatible_of_single fun _ ha _ hb =>
    (List.mem_singleton.mp ha).trans (List.mem_singleton.mp hb).symm

/-- Edits in runs cut one another no more than edits one behind the other
do. -/
theorem Runs.allCompatible {nodes : List Node} {low : Nat} (h : Runs nodes low edits) :
    Edit.AllCompatible edits := by
  have hsymm : Std.Symm Edit.Compatible := ⟨fun _ _ => Edit.Compatible.symm⟩
  intro a ha b hb
  by_cases hab : a = b
  · exact hab ▸ Edit.Compatible.refl a
  · exact (h.clear.imp (S := Edit.Compatible) fun h => .inr (.inr (.inl h))).forall ha hb hab

/-- Text put in at the end of a node of the tree. -/
theorem WholeNode.insert_stop (ht : t.WellFormed) (hn : n ∈ t.nodes) (text : String) :
    WholeNode t (.insert n.stop text) := .inl ⟨rfl, (inText_of_mem ht hn).2⟩

/-- Text put in at the start of a node of the tree. -/
theorem WholeNode.insert_start (ht : t.WellFormed) (hn : n ∈ t.nodes) (text : String) :
    WholeNode t (.insert n.start text) :=
  have h := inText_of_mem ht hn
  .inl ⟨rfl, Nat.le_trans h.1 h.2⟩

/-- New statements are text put in. -/
theorem wholeNodes_insertStatements (t : Tree) (anchor? : Option Node) (lines : List String) :
    WholeNodes t (insertStatements t anchor? lines) := fun _ he =>
  .inl (of_mem_insertStatements he)

/-- New entries of a list are text put in. -/
theorem wholeNode_append? {items : List Node} {entries : List String} (ht : t.WellFormed)
    (hitems : ∀ i ∈ items, i ∈ t.nodes) :
    ∀ e ∈ (ListLayout.of t n items).append? items entries, WholeNode t e := fun _ he =>
  .inl (of_append? (fun i hi => (inText_of_mem ht (hitems i hi)).2) he)

/-- A single edit that fits. -/
theorem Owned.single (h : Owned t P n e) :
    (∀ x ∈ [e], Owned t P n x) ∧ Edit.AllCompatible [e] :=
  ⟨fun _ hx => List.mem_singleton.mp hx ▸ h, allCompatible_singleton e⟩

/-- A dropped node fits. -/
theorem deleteNode_owned (ht : t.WellFormed) (hn : n ∈ t.nodes) :
    (∀ e ∈ [Edit.deleteNode n], Owned t P n e) ∧ Edit.AllCompatible [Edit.deleteNode n] := by
  have hspans := ht.spans.below hn
  refine Owned.single (.inr ⟨(inText_of_mem ht hn).1, ?_⟩)
  exact Edit.fits_of_isEdge hspans (Node.isEdge_start hspans) (Node.isEdge_stop hspans)

/-- No edits fit. -/
theorem nil_owned : (∀ e ∈ ([] : List Edit), Owned t P n e) ∧ Edit.AllCompatible [] :=
  ⟨fun _ he => absurd he List.not_mem_nil, fun _ he => absurd he List.not_mem_nil⟩

/-- A single edit in the text is a clean batch. -/
theorem clean_single (h : e.InText t.source) : Clean t [e] :=
  ⟨fun _ he => List.mem_singleton.mp he ▸ h, allCompatible_singleton e⟩

end Refactoring

end ScriptRefactor
