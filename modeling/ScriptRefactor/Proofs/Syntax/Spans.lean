import ScriptRefactor.Proofs.Edit.Compatible
import ScriptRefactor.Proofs.Syntax.Nodes

/-!
# `ScriptRefactor.Proofs.Syntax.Spans`: edits between the nodes of a tree

In a tree whose spans are nested, two nodes are one below the other, or
lie clear of each other (`SpansNested.below_or_clear`). A position is an *edge*
of a node if it lies inside none of its children (`Node.IsEdge`), so an
edit from edge to edge cuts no child.

Edits of several nodes of one sort go together when each of them *fits*
its node (`Edit.Fits`): it lies within the node, and the nodes of that
sort further down it contains or leaves alone. Edits that fit different
nodes do not cut each other (`Fits.compatible`).
-/

set_option autoImplicit false

namespace ScriptRefactor

open Syntax

namespace Syntax.Node

variable {n m c d : Node} {p : Nat}

/-- The spans of a tree are in order and nested, and siblings lie clear
of each other in text order. -/
structure SpansNested (root : Node) : Prop where
  /-- No span stops before it starts. -/
  proper : ∀ n ∈ root.preorder, n.start ≤ n.stop
  /-- A child lies within its parent. -/
  inside : ∀ n ∈ root.preorder, ∀ c ∈ n.children, n.start ≤ c.start ∧ c.stop ≤ n.stop
  /-- Siblings follow one another. -/
  apart : ∀ n ∈ root.preorder, n.children.Pairwise fun c d => c.stop ≤ d.start

instance (root : Node) : Decidable root.SpansNested :=
  decidable_of_iff ((∀ n ∈ root.preorder, n.start ≤ n.stop)
      ∧ (∀ n ∈ root.preorder, ∀ c ∈ n.children, n.start ≤ c.start ∧ c.stop ≤ n.stop)
      ∧ ∀ n ∈ root.preorder, n.children.Pairwise fun c d => c.stop ≤ d.start)
    ⟨fun ⟨h1, h2, h3⟩ => ⟨h1, h2, h3⟩, fun h => ⟨h.proper, h.inside, h.apart⟩⟩

namespace SpansNested

/-- The spans below a node are nested, too. -/
theorem below (hn : n.SpansNested) (hm : m ∈ n.preorder) : m.SpansNested where
  proper k hk := hn.proper k (mem_preorder_trans hm hk)
  inside k hk := hn.inside k (mem_preorder_trans hm hk)
  apart k hk := hn.apart k (mem_preorder_trans hm hk)

/-- A child lies within the node. -/
theorem child_inside (hn : n.SpansNested) (hc : c ∈ n.children) :
    n.start ≤ c.start ∧ c.stop ≤ n.stop := hn.inside n (mem_preorder_self n) c hc

/-- Different children lie clear of each other. -/
theorem children_apart (hn : n.SpansNested) (hc : c ∈ n.children) (hd : d ∈ n.children)
    (hne : c ≠ d) : c.stop ≤ d.start ∨ d.stop ≤ c.start := by
  let Clear (c d : Node) : Prop := c.stop ≤ d.start ∨ d.stop ≤ c.start
  have hsymm : Std.Symm Clear := ⟨fun _ _ => Or.symm⟩
  have hclear : n.children.Pairwise Clear :=
    (hn.apart n (mem_preorder_self n)).imp fun h => .inl h
  exact hclear.forall hc hd hne

/-- What is below a node lies within it. -/
theorem le_of_mem_preorder (hn : n.SpansNested) (hm : m ∈ n.preorder) :
    n.start ≤ m.start ∧ m.stop ≤ n.stop := by
  induction n using childrenRec with
  | h l cs ih =>
      rcases mem_preorder.mp hm with rfl | ⟨c, hc, hm⟩
      · exact ⟨Nat.le_refl _, Nat.le_refl _⟩
      · have houter := hn.child_inside hc
        have hinner := ih c hc (hn.below (mem_preorder_of_child hc)) hm
        omega

/-- Two nodes are one below the other, or lie clear of each other. -/
theorem below_or_clear (hroot : n.SpansNested) (hm : m ∈ n.preorder) (hk : c ∈ n.preorder) :
    m ∈ c.preorder ∨ c ∈ m.preorder ∨ m.stop ≤ c.start ∨ c.stop ≤ m.start := by
  induction n using childrenRec with
  | h l cs ih =>
      rcases mem_preorder.mp hm with rfl | ⟨a, ha, hma⟩
      · exact .inr (.inl hk)
      · rcases mem_preorder.mp hk with rfl | ⟨b, hb, hkb⟩
        · exact .inl hm
        · by_cases hab : a = b
          · subst hab
            exact ih a ha (hroot.below (mem_preorder_of_child ha)) hma hkb
          · -- They are below different children.
            have hma := (hroot.below (mem_preorder_of_child ha)).le_of_mem_preorder hma
            have hkb := (hroot.below (mem_preorder_of_child hb)).le_of_mem_preorder hkb
            have hclear := hroot.children_apart ha hb hab
            omega

end SpansNested

/-! ### Edges -/

/-- The position is in the node, and inside none of its children. -/
def IsEdge (n : Node) (p : Nat) : Prop :=
  n.start ≤ p ∧ p ≤ n.stop ∧ ∀ c ∈ n.children, p ≤ c.start ∨ c.stop ≤ p

/-- A node starts at an edge. -/
theorem isEdge_start (hn : n.SpansNested) : n.IsEdge n.start :=
  ⟨Nat.le_refl _, hn.proper n (mem_preorder_self n), fun _ hc => .inl (hn.child_inside hc).1⟩

/-- A node stops at an edge. -/
theorem isEdge_stop (hn : n.SpansNested) : n.IsEdge n.stop :=
  ⟨hn.proper n (mem_preorder_self n), Nat.le_refl _, fun _ hc => .inr (hn.child_inside hc).2⟩

/-- A child starts and stops at an edge. -/
theorem isEdge_child (hn : n.SpansNested) (hd : d ∈ n.children) :
    n.IsEdge d.start ∧ n.IsEdge d.stop := by
  have hinside := hn.child_inside hd
  have hproper := hn.proper d (mem_preorder_of_child hd)
  have hclear : ∀ c ∈ n.children, c = d ∨ c.stop ≤ d.start ∨ d.stop ≤ c.start := fun c hc =>
    or_iff_not_imp_left.mpr fun hne => hn.children_apart hc hd hne
  refine ⟨⟨hinside.1, by omega, fun c hc => ?_⟩, ⟨by omega, hinside.2, fun c hc => ?_⟩⟩
  · rcases hclear c hc with rfl | h | h
    · exact .inl (Nat.le_refl _)
    · exact .inr h
    · exact .inl (by omega)
  · rcases hclear c hc with rfl | h | h
    · exact .inr (Nat.le_refl _)
    · exact .inr (by omega)
    · exact .inl h

end Syntax.Node

/-! ### Edits of nodes -/

namespace Edit

variable {n m c : Node} {e x : Edit} {P : Node → Prop}

/-- The edit lies within the node, and of the nodes `P` below it contains
each or leaves it alone. -/
def Fits (P : Node → Prop) (n : Node) (e : Edit) : Prop :=
  n.start ≤ e.start ∧ e.stop ≤ n.stop ∧ ∀ c ∈ n.children, ∀ m ∈ c.preorder, P m →
    e.stop ≤ m.start ∨ m.stop ≤ e.start ∨ (e.start ≤ m.start ∧ m.stop ≤ e.stop)

/-- An edit from edge to edge fits, whatever is below. -/
theorem fits_of_isEdge (hn : n.SpansNested) (hstart : n.IsEdge e.start) (hstop : n.IsEdge e.stop) :
    e.Fits P n := by
  refine ⟨hstart.1, hstop.2.1, fun c hc m hm _ => ?_⟩
  have hmc := (hn.below (Node.mem_preorder_of_child hc)).le_of_mem_preorder hm
  have h1 := hstart.2.2 c hc
  have h2 := hstop.2.2 c hc
  omega

/-- What fits a child fits the node, unless the child is of the sort. -/
theorem fits_of_child (hn : n.SpansNested) (hc : c ∈ n.children) (hP : ¬ P c) (h : e.Fits P c) :
    e.Fits P n := by
  obtain ⟨hstart, hstop, hbelow⟩ := h
  have hinside := hn.child_inside hc
  refine ⟨by omega, by omega, fun d hd m hm hPm => ?_⟩
  by_cases hdc : d = c
  · subst hdc
    rcases Node.mem_preorder.mp hm with rfl | ⟨k, hk, hm⟩
    · exact absurd hPm hP
    · exact hbelow k hk m hm hPm
  · have hmd := (hn.below (Node.mem_preorder_of_child hd)).le_of_mem_preorder hm
    have hclear := hn.children_apart hd hc hdc
    omega

/-- Edits that fit different nodes of the sort do not cut each other. -/
theorem Fits.compatible {root : Node} (hroot : root.SpansNested) (hn : n ∈ root.preorder)
    (hm : m ∈ root.preorder) (hne : n ≠ m) (hPn : P n) (hPm : P m) (he : e.Fits P n)
    (hx : x.Fits P m) : Compatible e x := by
  have hbelow : ∀ {n m : Node} {e x : Edit}, m ∈ n.preorder → n ≠ m → P m → e.Fits P n →
      x.Fits P m → Compatible e x := by
    intro n m e x hm hne hPm he hx
    rcases Node.mem_preorder.mp hm with rfl | ⟨c, hc, hm⟩
    · exact absurd rfl hne
    · have hfit := he.2.2 c hc m hm hPm
      obtain ⟨hstart, hstop, -⟩ := hx
      unfold Compatible
      omega
  rcases hroot.below_or_clear hn hm with h | h | h
  · exact (hbelow h hne.symm hPn hx he).symm
  · exact hbelow h hne hPm he hx
  · obtain ⟨hstart, hstop, -⟩ := he
    obtain ⟨hstart', hstop', -⟩ := hx
    unfold Compatible
    omega

/-- An edit from edge to edge does not cut an edit of a child. -/
theorem compatible_of_isEdge (hc : c ∈ n.children) (hstart : n.IsEdge e.start)
    (hstop : n.IsEdge e.stop) (hx : c.start ≤ x.start ∧ x.stop ≤ c.stop) : Compatible e x := by
  have h1 := hstart.2.2 c hc
  have h2 := hstop.2.2 c hc
  unfold Compatible
  omega

end Edit

end ScriptRefactor
