import Mathlib.Algebra.Order.BigOperators.Group.List
import Mathlib.Algebra.Order.Group.Nat
import Mathlib.Tactic.Push
import Mathlib.Tactic.Tauto
import ScriptRefactor.Edit.Merge

/-!
# `ScriptRefactor.Proofs.Edit.Merge`: what a merge keeps

`mergeEdits` goes through the sorted batch once and keeps, drops and
joins edits as it meets them. `Edit.Survives` says without any order
of events what is left of a batch:

* a replacement that is the first of its span and lies in no other
  replacement of the batch;
* for each point at which the batch inserts, and which lies strictly
  inside no replacement, one insertion of all the texts in a row.

`IsMerge batch merged` adds the order of application, so it
determines the list (`IsMerge.unique`). The step lemma is
`isMerge_keep`, the run lemma `isMerge_foldl_keep`. Dropped edits do
no harm to the rule about containment, since the largest replacement
around an edit is always kept (`exists_survives_around`).
-/

set_option autoImplicit false

namespace ScriptRefactor

open Syntax

namespace Edit

/-! ### What is left of a batch -/

/-- The first edit is applied before the second one, and their spans
differ. -/
def precedes (a b : Edit) : Prop := b.start < a.start ∨ (a.start = b.start ∧ b.stop < a.stop)

/-- The texts that a batch inserts at a point, in the order in which
they were found. -/
def textsAt (batch : List Edit) (pos : Nat) : List String :=
  (batch.filter fun e => e.span = ⟨pos, pos⟩).map replacement

/-- An edit is left when a batch is merged. -/
inductive Survives (batch : List Edit) : Edit → Prop where
  /-- A replacement that no other replacement of the batch contains;
  of equal spans the first one found is left. -/
  | replacement (e : Edit) (hproper : e.isInsertion = false)
      (hfirst : batch.find? (fun o => o.span = e.span) = some e)
      (hfree : ∀ o ∈ batch, o.isInsertion = false → o.span ≠ e.span →
        ¬ (o.start ≤ e.start ∧ e.stop ≤ o.stop)) : Survives batch e
  /-- All insertions at one point, unless the point lies strictly
  inside a replacement. -/
  | insertion (pos : Nat) (hsome : ∃ i ∈ batch, i.span = ⟨pos, pos⟩)
      (hfree : ∀ o ∈ batch, o.isInsertion = false → ¬ (o.start < pos ∧ pos < o.stop)) :
      Survives batch (insert pos (String.join (textsAt batch pos)))

/-- `merged` lists what is left of a batch, in the order of
application. -/
structure IsMerge (batch merged : List Edit) : Prop where
  /-- No two edits have one span, and they stand in the order of
  application. -/
  ordered : merged.Pairwise precedes
  /-- The members are what is left. -/
  mem_iff : ∀ e, e ∈ merged ↔ Survives batch e

/-! ### The order of application -/

theorem appliesBefore_iff {a b : Edit} :
    a.appliesBefore b = true ↔ b.start < a.start ∨ (a.start = b.start ∧ b.stop ≤ a.stop) := by
  simp [appliesBefore]

theorem appliesBefore_trans (a b c : Edit) (hab : a.appliesBefore b = true)
    (hbc : b.appliesBefore c = true) : a.appliesBefore c = true := by
  rw [appliesBefore_iff] at *
  omega

theorem appliesBefore_total (a b : Edit) :
    (a.appliesBefore b || b.appliesBefore a) = true := by
  rw [Bool.or_eq_true, appliesBefore_iff, appliesBefore_iff]
  omega

/-- Of two edits with different spans, the one that sorts first is
strictly first. -/
theorem precedes_of_appliesBefore {a b : Edit} (h : a.appliesBefore b = true)
    (hne : a.span ≠ b.span) : precedes a b := by
  rw [appliesBefore_iff] at h
  simp only [span, ne_eq, Span.mk.injEq] at hne
  unfold precedes
  omega

theorem precedes_irrefl (a : Edit) : ¬ precedes a a := by
  unfold precedes
  omega

theorem precedes_asymm {a b : Edit} (h : precedes a b) : ¬ precedes b a := by
  unfold precedes at *
  omega

/-! ### Spans and what covers them -/

theorem isInsertion_iff {e : Edit} : e.isInsertion = true ↔ e.start = e.stop := by
  simp [isInsertion]

theorem isInsertion_eq_false_iff {e : Edit} : e.isInsertion = false ↔ e.start ≠ e.stop := by
  simp [isInsertion]

theorem span_eq_iff {a b : Edit} : a.span = b.span ↔ a.start = b.start ∧ a.stop = b.stop := by
  simp [span]

/-- An edit is its span and its text. -/
theorem eq_iff_span_replacement {a b : Edit} :
    a = b ↔ a.span = b.span ∧ a.replacement = b.replacement := by
  cases a
  cases b
  simp [span, and_assoc]

theorem span_eq_point_iff {e : Edit} {pos : Nat} :
    e.span = ⟨pos, pos⟩ ↔ e.start = pos ∧ e.stop = pos := by
  simp [span]

/-- A replacement has another span than any insertion. -/
theorem span_ne_of_isInsertion {x e : Edit} (hx : x.start < x.stop) (he : e.isInsertion = true) :
    x.span ≠ e.span ∧ x.span ≠ ⟨e.start, e.start⟩ := by
  rw [isInsertion_iff] at he
  rw [ne_eq, span_eq_iff, ne_eq, span_eq_point_iff]
  omega

/-- Only a replacement covers another edit: a replacement within its
span, or an insertion strictly inside it. -/
theorem covers_iff {outer inner : Edit} :
    outer.covers inner = true ↔
      outer.isInsertion = false ∧
        (inner.isInsertion = true ∧ outer.start < inner.start ∧ inner.start < outer.stop ∨
          inner.isInsertion = false ∧ outer.start ≤ inner.start ∧ inner.stop ≤ outer.stop) := by
  unfold covers
  cases outer.isInsertion <;> cases inner.isInsertion <;> simp

/-! ### Survivors -/

/-- What is left has the span of an edit of the batch. -/
theorem Survives.exists_span_eq {batch : List Edit} {e : Edit} (h : Survives batch e) :
    ∃ a ∈ batch, a.span = e.span := by
  cases h with
  | replacement _ _ hfirst _ => exact ⟨e, List.mem_of_find?_eq_some hfirst, rfl⟩
  | insertion pos hsome _ => exact hsome

/-- Every replacement of a batch lies in one that is left. The largest
one around it is: a replacement around that one would be larger. -/
theorem exists_survives_around {batch : List Edit} {e : Edit} (he : e ∈ batch)
    (hproper : e.start < e.stop) :
    ∃ k, Survives batch k ∧ k.isInsertion = false ∧ k.start ≤ e.start ∧ e.stop ≤ k.stop := by
  -- The measure is how far the edit falls short of the largest one.
  obtain ⟨bound, hbound⟩ : ∃ bound, ∀ o ∈ batch, o.stop - o.start ≤ bound :=
    ⟨(batch.map fun o => o.stop - o.start).sum, fun o ho =>
      List.single_le_sum (by simp) _ (List.mem_map_of_mem ho)⟩
  induction hn : bound - (e.stop - e.start) using Nat.strong_induction_on generalizing e with
  | _ n ih =>
      by_cases hfree : ∀ o ∈ batch, o.isInsertion = false → o.span ≠ e.span →
          ¬ (o.start ≤ e.start ∧ e.stop ≤ o.stop)
      · -- Nothing is larger, so the first edit of the span is left.
        obtain ⟨f, hf⟩ : ∃ f, batch.find? (fun o => o.span = e.span) = some f :=
          Option.isSome_iff_exists.mp (List.find?_isSome.mpr ⟨e, he, by simp⟩)
        have hspan : f.span = e.span := by simpa using List.find?_some hf
        obtain ⟨hstart, hstop⟩ := span_eq_iff.mp hspan
        refine ⟨f, .replacement f ?_ (by rw [hspan]; exact hf) ?_, ?_, by omega, by omega⟩
        · rw [isInsertion_eq_false_iff]
          omega
        · intro o ho hop hne
          rw [hstart, hstop]
          exact hfree o ho hop (by rwa [← hspan])
        · rw [isInsertion_eq_false_iff]
          omega
      · push Not at hfree
        obtain ⟨o, ho, hop, hne, hstart, hstop⟩ := hfree
        rw [isInsertion_eq_false_iff] at hop
        rw [ne_eq, span_eq_iff] at hne
        have hlarger : bound - (o.stop - o.start) < n := by
          have := hbound o ho
          omega
        obtain ⟨k, hk, hkp, hks, hke⟩ := ih _ hlarger ho (by omega) rfl
        exact ⟨k, hk, hkp, by omega, by omega⟩

/-! ### One more edit in the batch -/

theorem textsAt_snoc_self (batch : List Edit) {x : Edit} (hx : x.isInsertion = true) :
    textsAt (batch ++ [x]) x.start = textsAt batch x.start ++ [x.replacement] := by
  rw [isInsertion_iff] at hx
  simp [textsAt, span, hx]

theorem textsAt_snoc_of_ne (batch : List Edit) {x : Edit} {pos : Nat}
    (hne : x.span ≠ ⟨pos, pos⟩) : textsAt (batch ++ [x]) pos = textsAt batch pos := by
  simp [textsAt, hne]

theorem find?_snoc_of_ne (batch : List Edit) {x : Edit} {s : Span} (hne : x.span ≠ s) :
    (batch ++ [x]).find? (fun o => o.span = s) = batch.find? (fun o => o.span = s) := by
  simp [List.find?_append, hne]

/-- Whether a replacement is left. -/
theorem survives_iff_of_replacement {batch : List Edit} {e : Edit} (he : e.isInsertion = false) :
    Survives batch e ↔ batch.find? (fun o => o.span = e.span) = some e ∧
      ∀ o ∈ batch, o.isInsertion = false → o.span ≠ e.span →
        ¬ (o.start ≤ e.start ∧ e.stop ≤ o.stop) := by
  constructor
  · intro h
    cases h with
    | replacement _ _ hfirst hfree => exact ⟨hfirst, hfree⟩
    | insertion pos _ _ => exact absurd he (by simp [insert, isInsertion])
  · exact fun h => .replacement e he h.1 h.2

/-- Whether an insertion is left. -/
theorem survives_iff_of_insertion {batch : List Edit} {e : Edit} (he : e.isInsertion = true) :
    Survives batch e ↔ (∃ i ∈ batch, i.span = e.span) ∧
      (∀ o ∈ batch, o.isInsertion = false → ¬ (o.start < e.start ∧ e.start < o.stop)) ∧
      e.replacement = String.join (textsAt batch e.start) := by
  constructor
  · intro h
    cases h with
    | replacement _ hproper _ _ => exact absurd he (by simp [hproper])
    | insertion pos hsome hfree => exact ⟨hsome, hfree, rfl⟩
  · rintro ⟨hsome, hfree, htext⟩
    have hspan : e.span = ⟨e.start, e.start⟩ :=
      span_eq_point_iff.mpr ⟨rfl, (isInsertion_iff.mp he).symm⟩
    have hself : insert e.start (String.join (textsAt batch e.start)) = e := by
      rw [isInsertion_iff] at he
      rw [← htext]
      cases e
      simp_all [insert]
    rw [hspan] at hsome
    exact hself ▸ Survives.insertion e.start hsome hfree

/-- An insertion at a point that no replacement contains joins the
insertions at its point, and leaves everything else alone. -/
theorem survives_snoc_insertion {batch : List Edit} {x : Edit} (hx : x.isInsertion = true)
    (hfree : ∀ o ∈ batch, o.isInsertion = false → ¬ (o.start < x.start ∧ x.start < o.stop))
    (e : Edit) :
    Survives (batch ++ [x]) e ↔ e.span ≠ x.span ∧ Survives batch e ∨
      e.span = x.span ∧ e.replacement = String.join (textsAt batch x.start ++ [x.replacement]) := by
  have hxs := isInsertion_iff.mp hx
  cases he : e.isInsertion with
  | false =>
      have hne : x.span ≠ e.span := by
        rw [isInsertion_eq_false_iff] at he
        rw [ne_eq, span_eq_iff]
        omega
      rw [survives_iff_of_replacement he, survives_iff_of_replacement he,
        find?_snoc_of_ne batch hne]
      simp [hx, hne, Ne.symm hne, or_imp, forall_and]
  | true =>
      have hes := isInsertion_iff.mp he
      rw [survives_iff_of_insertion he, survives_iff_of_insertion he]
      by_cases heq : e.span = x.span
      · -- At its point, what is left is the insertion of all texts with the new one behind.
        have hstart : e.start = x.start := (span_eq_iff.mp heq).1
        rw [hstart, textsAt_snoc_self batch hx]
        simp only [List.mem_append, List.mem_singleton, heq]
        constructor
        · exact fun h => .inr ⟨trivial, h.2.2⟩
        · rintro (⟨hne, -⟩ | ⟨-, htext⟩)
          · exact absurd rfl hne
          · refine ⟨⟨x, .inr rfl, rfl⟩, ?_, htext⟩
            rintro o (ho | rfl) hop
            · exact hfree o ho hop
            · rw [hx] at hop
              cases hop
      · have hne : x.span ≠ ⟨e.start, e.start⟩ := by
          rw [span_eq_iff] at heq
          rw [ne_eq, span_eq_point_iff]
          omega
        rw [textsAt_snoc_of_ne batch hne]
        simp [hx, heq, Ne.symm heq, or_imp, forall_and, or_and_right, exists_or]

/-- A replacement that lies in another one changes nothing. -/
theorem survives_snoc_covered {batch : List Edit} {x o : Edit} (hx : x.start < x.stop)
    (ho : o ∈ batch) (hcov : o.start ≤ x.start ∧ x.stop ≤ o.stop) (e : Edit) :
    Survives (batch ++ [x]) e ↔ Survives batch e := by
  have hop : o.isInsertion = false := isInsertion_eq_false_iff.mpr (by omega)
  cases he : e.isInsertion with
  | false =>
      rw [survives_iff_of_replacement he, survives_iff_of_replacement he, List.find?_append]
      constructor
      · rintro ⟨hfirst, hfree⟩
        refine ⟨?_, fun a ha => hfree a (List.mem_append_left _ ha)⟩
        -- If `x` were the first of its span, `o` would contain it.
        cases hb : batch.find? (fun a => a.span = e.span) with
        | some f => simpa [hb] using hfirst
        | none =>
            rw [hb, Option.none_or] at hfirst
            have hxe : e = x := List.mem_singleton.mp (List.mem_of_find?_eq_some hfirst)
            subst hxe
            have hne : o.span ≠ e.span := by simpa using List.find?_eq_none.mp hb o ho
            exact absurd hcov (hfree o (List.mem_append_left _ ho) hop hne)
      · rintro ⟨hfirst, hfree⟩
        refine ⟨by rw [hfirst]; rfl, ?_⟩
        intro a ha hap hne hin
        rcases List.mem_append.mp ha with ha | ha
        · exact hfree a ha hap hne hin
        · rw [List.mem_singleton.mp ha] at hne hin
          refine hfree o ho hop ?_ (by omega)
          rw [ne_eq, span_eq_iff] at hne ⊢
          omega
  | true =>
      -- A point strictly inside `x` is strictly inside `o`, too.
      obtain ⟨hne', hne⟩ := span_ne_of_isInsertion hx he
      rw [survives_iff_of_insertion he, survives_iff_of_insertion he, textsAt_snoc_of_ne batch hne]
      have hpoint : (∀ a ∈ batch, a.isInsertion = false →
            ¬ (a.start < e.start ∧ e.start < a.stop)) →
          ¬ (x.start < e.start ∧ e.start < x.stop) := fun hfree hin =>
        hfree o ho hop (by omega)
      simp only [List.mem_append, List.mem_singleton, or_and_right, exists_or, exists_eq_left, hne',
        or_false, or_imp, forall_and, forall_eq]
      tauto

/-- A replacement that lies in no other one is left, and takes away
what it covers. -/
theorem survives_snoc_uncovered {batch : List Edit} {x : Edit} (hx : x.start < x.stop)
    (hcov : ∀ o ∈ batch, o.isInsertion = false → ¬ (o.start ≤ x.start ∧ x.stop ≤ o.stop))
    (e : Edit) :
    Survives (batch ++ [x]) e ↔ e = x ∨ Survives batch e ∧ x.covers e = false := by
  have hxp : x.isInsertion = false := isInsertion_eq_false_iff.mpr (by omega)
  -- No edit of the batch has the span of `x`.
  have hspan : ∀ o ∈ batch, o.span ≠ x.span := by
    intro o ho heq
    rw [span_eq_iff] at heq
    exact hcov o ho (isInsertion_eq_false_iff.mpr (by omega)) (by omega)
  rw [← Bool.not_eq_true, covers_iff, hxp]
  cases he : e.isInsertion with
  | false =>
      rw [survives_iff_of_replacement he, survives_iff_of_replacement he]
      by_cases hne : x.span = e.span
      · have hnone : batch.find? (fun o => o.span = e.span) = none := by
          rw [List.find?_eq_none]
          intro o ho
          simpa [← hne] using hspan o ho
        rw [List.find?_append, hnone, Option.none_or]
        constructor
        · exact fun h => .inl (List.mem_singleton.mp (List.mem_of_find?_eq_some h.1))
        · rintro (rfl | ⟨⟨hfirst, -⟩, -⟩)
          · refine ⟨by simp, fun o ho hop hspan' => ?_⟩
            rcases List.mem_append.mp ho with ho | ho
            · exact hcov o ho hop
            · exact absurd (by rw [List.mem_singleton.mp ho]) hspan'
          · cases hfirst
      · rw [find?_snoc_of_ne batch hne]
        have hex : e ≠ x := fun heq => hne (by rw [heq])
        simp [hxp, hne, hex, or_imp, forall_and, and_assoc]
  | true =>
      obtain ⟨hne', hne⟩ := span_ne_of_isInsertion hx he
      have hex : e ≠ x := fun heq => hne' (by rw [heq])
      rw [survives_iff_of_insertion he, survives_iff_of_insertion he, textsAt_snoc_of_ne batch hne]
      simp only [List.mem_append, List.mem_singleton, or_and_right, exists_or, exists_eq_left, hne',
        or_false, or_imp, forall_and, forall_eq, hex, false_or, hxp]
      tauto

/-! ### The pass over the sorted batch -/

/-- Two lists that merge the same batch are equal: they have the same
members in the same strict order. -/
theorem IsMerge.unique {batch a b : List Edit} (ha : IsMerge batch a) (hb : IsMerge batch b) :
    a = b := by
  have hnodup : ∀ l : List Edit, l.Pairwise precedes → l.Nodup := by
    intro l hl
    refine hl.imp ?_
    rintro c _ hlt rfl
    exact precedes_irrefl c hlt
  have hperm : a.Perm b :=
    (List.perm_ext_iff_of_nodup (hnodup a ha.ordered) (hnodup b hb.ordered)).mpr
      fun e => (ha.mem_iff e).trans (hb.mem_iff e).symm
  exact hperm.eq_of_pairwise
    (fun _ _ _ _ h h' => absurd h' (precedes_asymm h)) ha.ordered hb.ordered

section Step
variable {seen kept : List Edit} {x : Edit}

/-- An insertion that joins the last edit kept. -/
theorem isMerge_keep_joined {last : Edit} {before : List Edit}
    (h : IsMerge seen (last :: before).reverse) (hjoins : last.joins x = true)
    (hfree : ∀ o ∈ seen, o.isInsertion = false → ¬ (o.start < x.start ∧ x.start < o.stop)) :
    IsMerge (seen ++ [x])
      ({ last with replacement := last.replacement ++ x.replacement } :: before).reverse := by
  obtain ⟨hlast, hx, hstart⟩ : last.isInsertion = true ∧ x.isInsertion = true ∧
      last.start = x.start := by
    simpa [joins, and_assoc] using hjoins
  have hord := h.ordered
  rw [List.pairwise_reverse, List.pairwise_cons] at hord
  have hspan : last.span = x.span := by
    rw [isInsertion_iff] at hlast hx
    rw [span_eq_iff]
    omega
  -- The edit kept last is what the batch inserted at the point so far.
  have htext : last.replacement = String.join (textsAt seen x.start) := by
    rw [← hstart]
    exact ((survives_iff_of_insertion hlast).mp ((h.mem_iff last).mp (by simp))).2.2
  have hbefore : ∀ e, e ∈ before ↔ e.span ≠ x.span ∧ Survives seen e := by
    intro e
    rw [← h.mem_iff, ← hspan, List.mem_reverse, List.mem_cons]
    constructor
    · intro he
      refine ⟨?_, .inr he⟩
      intro heq
      have hlt := hord.1 e he
      rw [span_eq_iff] at heq
      unfold precedes at hlt
      omega
    · rintro ⟨hne, rfl | he⟩
      · exact absurd rfl hne
      · exact he
  constructor
  · rw [List.pairwise_reverse, List.pairwise_cons]
    exact ⟨fun e he => hord.1 e he, hord.2⟩
  · intro e
    have hnew : e = { last with replacement := last.replacement ++ x.replacement } ↔
        e.span = x.span ∧
          e.replacement = String.join (textsAt seen x.start ++ [x.replacement]) := by
      rw [eq_iff_span_replacement, ← hspan, String.join_append, ← htext]
      simp [span]
    rw [List.mem_reverse, List.mem_cons, survives_snoc_insertion hx hfree, hbefore, hnew, or_comm]

/-- An edit that comes after all edits seen is applied after what is
kept of them. -/
theorem IsMerge.precedes_next (h : IsMerge seen kept.reverse)
    (hsorted : ∀ a ∈ seen, a.appliesBefore x = true) {k : Edit} (hk : k ∈ kept)
    (hne : k.span ≠ x.span) : precedes k x := by
  obtain ⟨a, ha, has⟩ := ((h.mem_iff k).mp (List.mem_reverse.mpr hk)).exists_span_eq
  have hax := precedes_of_appliesBefore (hsorted a ha) (by rwa [has])
  rw [span_eq_iff] at has
  unfold precedes at hax ⊢
  omega

/-- An insertion at a point at which nothing was inserted before. -/
theorem isMerge_keep_point (h : IsMerge seen kept.reverse) (hx : x.isInsertion = true)
    (hsorted : ∀ a ∈ seen, a.appliesBefore x = true)
    (hfree : ∀ o ∈ seen, o.isInsertion = false → ¬ (o.start < x.start ∧ x.start < o.stop))
    (hnew : ∀ k ∈ kept, k.span ≠ x.span) :
    IsMerge (seen ++ [x]) (x :: kept).reverse := by
  have hxpos : x.span = ⟨x.start, x.start⟩ :=
    span_eq_point_iff.mpr ⟨rfl, (isInsertion_iff.mp hx).symm⟩
  -- Nothing is kept at the point, so nothing was inserted there.
  have hnone : textsAt seen x.start = [] := by
    unfold textsAt
    rw [List.map_eq_nil_iff, List.filter_eq_nil_iff]
    intro i hi his
    rw [decide_eq_true_eq] at his
    have hsurv := Survives.insertion x.start ⟨i, hi, his⟩ hfree
    rw [← h.mem_iff, List.mem_reverse] at hsurv
    exact hnew _ hsurv hxpos.symm
  constructor
  · rw [List.pairwise_reverse, List.pairwise_cons]
    exact ⟨fun k hk => h.precedes_next hsorted hk (hnew k hk), List.pairwise_reverse.mp h.ordered⟩
  · intro e
    have hself : e = x ↔
        e.span = x.span ∧
          e.replacement = String.join (textsAt seen x.start ++ [x.replacement]) := by
      rw [eq_iff_span_replacement, hnone]
      simp
    rw [List.mem_reverse, List.mem_cons, survives_snoc_insertion hx hfree, ← hself, ← h.mem_iff,
      List.mem_reverse, or_comm]
    exact or_congr_left ⟨fun he => ⟨hnew e he, he⟩, fun he => he.2⟩

/-- Only the edit kept last can stand at the point of the next
insertion. -/
theorem IsMerge.head_of_span_eq {last : Edit} {before : List Edit}
    (h : IsMerge seen (last :: before).reverse) (hsorted : ∀ a ∈ seen, a.appliesBefore x = true)
    {k : Edit} (hk : k ∈ last :: before) (heq : k.span = x.span) : k = last := by
  rcases List.mem_cons.mp hk with rfl | hk
  · rfl
  · have hlt : precedes k last :=
      (List.pairwise_cons.mp (List.pairwise_reverse.mp h.ordered)).1 k hk
    by_cases hlast : last.span = x.span
    · rw [span_eq_iff] at heq hlast
      unfold precedes at hlt
      omega
    · have hnext : precedes last x := h.precedes_next hsorted (by simp) hlast
      rw [span_eq_iff] at heq
      unfold precedes at hlt hnext
      omega

/-- A replacement that lies in one kept so far. -/
theorem isMerge_keep_covered (h : IsMerge seen kept.reverse) (hx : x.start < x.stop)
    (hcov : kept.any (·.covers x) = true) : IsMerge (seen ++ [x]) kept.reverse := by
  obtain ⟨k, hk, hkx⟩ := List.any_eq_true.mp hcov
  have hxp : x.isInsertion = false := by
    rw [isInsertion_eq_false_iff]
    omega
  rw [covers_iff, hxp] at hkx
  simp only [Bool.false_eq_true, false_and, true_and, false_or] at hkx
  -- What is kept and no insertion is an edit of the batch.
  have hmem : k ∈ seen := by
    have hsurv := (h.mem_iff k).mp (List.mem_reverse.mpr hk)
    cases hsurv with
    | replacement _ _ hfirst _ => exact List.mem_of_find?_eq_some hfirst
    | insertion pos _ _ => exact absurd hkx.1 (by simp [insert, isInsertion])
  exact ⟨h.ordered, fun e => by rw [survives_snoc_covered hx hmem hkx.2, h.mem_iff]⟩

/-- A replacement that lies in none kept so far. It lies in none seen
so far either, since one that is left lies around each of them. -/
theorem isMerge_keep_uncovered (h : IsMerge seen kept.reverse) (hx : x.start < x.stop)
    (hsorted : ∀ a ∈ seen, a.appliesBefore x = true)
    (hcov : kept.any (·.covers x) = false) :
    IsMerge (seen ++ [x]) (x :: kept.filter fun k => !x.covers k).reverse := by
  have hxp : x.isInsertion = false := by
    rw [isInsertion_eq_false_iff]
    omega
  -- An edit seen around `x` may have been dropped, but the largest one around it is kept.
  have hout : ∀ o ∈ seen, o.isInsertion = false →
      ¬ (o.start ≤ x.start ∧ x.stop ≤ o.stop) := by
    intro o ho hop hin
    obtain ⟨k, hk, hkp, hks, hke⟩ := exists_survives_around ho (by omega)
    have hkx : k.covers x = true := by
      rw [covers_iff]
      exact ⟨hkp, .inr ⟨hxp, by omega, by omega⟩⟩
    rw [← h.mem_iff, List.mem_reverse] at hk
    exact Bool.false_ne_true (hcov ▸ List.any_eq_true.mpr ⟨k, hk, hkx⟩)
  constructor
  · rw [List.pairwise_reverse, List.pairwise_cons]
    refine ⟨?_, (List.pairwise_reverse.mp h.ordered).filter _⟩
    intro k hk
    rw [List.mem_filter] at hk
    refine h.precedes_next hsorted hk.1 ?_
    intro heq
    obtain ⟨a, ha, has⟩ := ((h.mem_iff k).mp (List.mem_reverse.mpr hk.1)).exists_span_eq
    rw [heq, span_eq_iff] at has
    refine hout a ha ?_ (by omega)
    rw [isInsertion_eq_false_iff]
    omega
  · intro e
    rw [List.mem_reverse, List.mem_cons, List.mem_filter, survives_snoc_uncovered hx hout,
      ← h.mem_iff, List.mem_reverse, Bool.not_eq_true']

/-- Nothing kept so far lies around an insertion: it would start before
its point, and come later. -/
theorem IsMerge.any_covers_eq_false (h : IsMerge seen kept.reverse) (hx : x.isInsertion = true)
    (hsorted : ∀ a ∈ seen, a.appliesBefore x = true) : kept.any (·.covers x) = false := by
  rw [List.any_eq_false]
  intro k hk hkx
  obtain ⟨-, hin⟩ := covers_iff.mp hkx
  rw [hx] at hin
  simp only [Bool.true_eq_false, false_and, true_and, or_false] at hin
  obtain ⟨a, ha, has⟩ := ((h.mem_iff k).mp (List.mem_reverse.mpr hk)).exists_span_eq
  rw [span_eq_iff] at has
  have hax := appliesBefore_iff.mp (hsorted a ha)
  omega

/-- One edit more, taken in the order of application. -/
theorem isMerge_keep (h : IsMerge seen kept.reverse) (hx : x.start ≤ x.stop)
    (hsorted : ∀ a ∈ seen, a.appliesBefore x = true) :
    IsMerge (seen ++ [x]) (keep kept x).reverse := by
  -- All edits seen start at `x` or behind it.
  have hfree : ∀ o ∈ seen, o.isInsertion = false →
      ¬ (o.start < x.start ∧ x.start < o.stop) := by
    intro o ho _ hin
    have hox := appliesBefore_iff.mp (hsorted o ho)
    omega
  -- Unless it joins the edit kept last, it is kept or dropped as a whole.
  have htaken : (∀ k ∈ kept, k.joins x = false) →
      IsMerge (seen ++ [x])
        (if kept.any (·.covers x) then kept
          else x :: kept.filter fun k => !(x.covers k)).reverse := by
    intro hnojoin
    cases hins : x.isInsertion with
    | true =>
        have hall : kept.filter (fun k => !(x.covers k)) = kept := by
          rw [List.filter_eq_self]
          intro k _
          simp [covers, hins]
        rw [h.any_covers_eq_false hins hsorted, hall]
        refine isMerge_keep_point h hins hsorted hfree fun k hk heq => ?_
        have hjoins := hnojoin k hk
        rw [span_eq_iff] at heq
        rw [isInsertion_iff] at hins
        simp [joins, isInsertion] at hjoins
        omega
    | false =>
        rw [isInsertion_eq_false_iff] at hins
        cases hcov : kept.any (·.covers x) with
        | true => exact isMerge_keep_covered h (by omega) hcov
        | false => exact isMerge_keep_uncovered h (by omega) hsorted hcov
  cases kept with
  | nil => exact htaken (by simp)
  | cons last before =>
      show IsMerge (seen ++ [x]) (if last.joins x then _ else _ : List Edit).reverse
      cases hjoins : last.joins x with
      | true => exact isMerge_keep_joined h hjoins hfree
      | false =>
          -- The other edits kept stand at other points.
          refine htaken fun k hk => ?_
          by_cases heq : k.span = x.span
          · rw [h.head_of_span_eq hsorted hk heq]
            exact hjoins
          · rw [span_eq_iff] at heq
            simp only [joins, isInsertion, Bool.and_eq_false_imp, decide_eq_true_eq,
              decide_eq_false_iff_not, Bool.and_eq_true]
            omega

end Step

/-- The pass over a sorted batch leaves what the batch says. -/
theorem isMerge_foldl_keep (rest : List Edit) :
    ∀ {seen kept : List Edit}, IsMerge seen kept.reverse →
      (∀ a ∈ rest, a.start ≤ a.stop) →
      (seen ++ rest).Pairwise (fun a b => a.appliesBefore b = true) →
      IsMerge (seen ++ rest) (rest.foldl keep kept).reverse := by
  induction rest with
  | nil =>
      intro seen kept h _ _
      rw [List.append_nil]
      exact h
  | cons x rest ih =>
      intro seen kept h hproper hsorted
      -- What was seen grows by the edit that was taken.
      have hstep : IsMerge (seen ++ [x]) (keep kept x).reverse :=
        isMerge_keep h (hproper x (by simp))
          fun a ha => (List.pairwise_append.mp hsorted).2.2 a ha x (by simp)
      have hsplit : seen ++ x :: rest = seen ++ [x] ++ rest := by simp
      rw [hsplit] at hsorted ⊢
      exact ih hstep (fun a ha => hproper a (by simp [ha])) hsorted

/-! ### The sorted batch says what the batch says -/

/-- Sorting keeps the order of edits with one span. -/
theorem filter_span_mergeSort (edits : List Edit) (s : Span) :
    (edits.mergeSort appliesBefore).filter (fun e => e.span = s)
      = edits.filter (fun e => e.span = s) := by
  have hperm : (edits.mergeSort appliesBefore).Perm edits := List.mergeSort_perm _ _
  have hsub : (edits.filter (fun e => e.span = s)).Sublist (edits.mergeSort appliesBefore) := by
    refine List.sublist_mergeSort appliesBefore_trans appliesBefore_total ?_ List.filter_sublist
    rw [List.pairwise_filter]
    refine List.pairwise_of_forall fun a b ha hb => ?_
    rw [decide_eq_true_eq] at ha hb
    have hab : a.span = b.span := ha.trans hb.symm
    rw [span_eq_iff] at hab
    rw [appliesBefore_iff]
    omega
  have hsub' := hsub.filter (fun e => decide (e.span = s))
  simp only [List.filter_filter, Bool.and_self] at hsub'
  exact (hsub'.eq_of_length (hperm.filter _).length_eq.symm).symm

/-- What is left depends only on the edits of each span and their
order. -/
theorem Survives.congr {a b : List Edit}
    (h : ∀ s, a.filter (fun e => e.span = s) = b.filter (fun e => e.span = s)) {e : Edit}
    (he : Survives a e) : Survives b e := by
  have hmem : ∀ o, o ∈ a ↔ o ∈ b := by
    intro o
    have := congrArg (o ∈ ·) (h o.span)
    simpa using this
  cases he with
  | replacement _ hproper hfirst hout =>
      refine .replacement e hproper ?_ fun o ho => hout o ((hmem o).mpr ho)
      rw [← List.head?_filter, ← h, List.head?_filter]
      exact hfirst
  | insertion pos hsome hout =>
      have htexts : textsAt a pos = textsAt b pos :=
        congrArg (List.map Edit.replacement) (h ⟨pos, pos⟩)
      obtain ⟨i, hi, his⟩ := hsome
      rw [htexts]
      exact .insertion pos ⟨i, (hmem i).mp hi, his⟩ fun o ho => hout o ((hmem o).mpr ho)

theorem IsMerge.congr {a b merged : List Edit}
    (h : ∀ s, a.filter (fun e => e.span = s) = b.filter (fun e => e.span = s))
    (hm : IsMerge a merged) : IsMerge b merged :=
  ⟨hm.ordered, fun e => (hm.mem_iff e).trans ⟨.congr h, .congr fun s => (h s).symm⟩⟩

/-- Edits with pairwise different spans have no order within a
span. -/
theorem filter_span_eq_of_perm {a b : List Edit} (hne : a.Pairwise fun x y => x.span ≠ y.span)
    (hperm : b.Perm a) (s : Span) :
    b.filter (fun e => e.span = s) = a.filter (fun e => e.span = s) := by
  have hp := hperm.filter (fun e => decide (e.span = s))
  have hpair := hne.filter (fun e => decide (e.span = s))
  have hspan : ∀ x ∈ a.filter (fun e => e.span = s), x.span = s := fun x hx =>
    of_decide_eq_true (List.mem_filter.mp hx).2
  generalize a.filter (fun e => e.span = s) = la at hp hpair hspan ⊢
  match la with
  | [] => exact hp.eq_nil
  | [x] => exact List.perm_singleton.mp hp
  | x :: y :: rest =>
      have hxy : x.span = y.span := (hspan x (by simp)).trans (hspan y (by simp)).symm
      exact absurd hxy ((List.pairwise_cons.mp hpair).1 y (by simp))

/-- The line break taken with an emptied line is one byte more, and
only a deletion takes it. -/
theorem withLineBreak_cases (text : String) (batch : List Edit) (e : Edit) :
    e.withLineBreak text batch = e ∨
      e.replacement = "" ∧ e.withLineBreak text batch = { e with stop := e.stop + 1 } := by
  unfold withLineBreak
  split
  · rename_i h
    have hempty : e.replacement.isEmpty = true := by
      simp only [emptiesLine, Bool.and_eq_true] at h
      exact h.1.1.1.1
    exact .inr ⟨by simpa using hempty, rfl⟩
  · exact .inl rfl

/-! ### The merge of a batch -/

/-- The pass of a merge keeps what is left of the batch, in the order
of application. -/
theorem isMerge_mergeSort_foldl {edits : List Edit} (h : ∀ e ∈ edits, e.start ≤ e.stop) :
    IsMerge edits ((edits.mergeSort appliesBefore).foldl keep []).reverse := by
  have hempty : IsMerge [] ([] : List Edit).reverse := by
    refine ⟨.nil, fun e => ⟨by simp, fun he => ?_⟩⟩
    obtain ⟨a, ha, -⟩ := he.exists_span_eq
    cases ha
  have hsorted := isMerge_foldl_keep (edits.mergeSort appliesBefore) hempty
    (fun e he => h e (List.mem_mergeSort.mp he))
    (List.pairwise_mergeSort appliesBefore_trans appliesBefore_total edits)
  exact hsorted.congr (filter_span_mergeSort edits)

/-- The merge of a batch depends on the edits of each span and their
order only. -/
theorem mergeEdits_congr (text : String) {edits edits' : List Edit}
    (h : ∀ e ∈ edits, e.start ≤ e.stop)
    (heq : ∀ s, edits'.filter (fun e => e.span = s) = edits.filter (fun e => e.span = s)) :
    mergeEdits text edits' = mergeEdits text edits := by
  have hproper : ∀ e ∈ edits', e.start ≤ e.stop := by
    intro e he
    have hmem : e ∈ edits.filter (fun o => o.span = e.span) := by
      rw [← heq]
      simp [he]
    exact h e (List.mem_filter.mp hmem).1
  have hkept := ((isMerge_mergeSort_foldl hproper).congr heq).unique (isMerge_mergeSort_foldl h)
  simp only [mergeEdits, hkept]

/-- A merged batch is what is left of the batch, in the order of
application, where the deletion of an emptied line may take one byte
more. What is left is one list only. It depends on the batch through
the edits of each span and their order, so with pairwise different
spans on no order at all. -/
theorem mergeEdits_eq_survivors (text : String) (edits : List Edit)
    (h : ∀ e ∈ edits, e.start ≤ e.stop) :
    (∃ merged, IsMerge edits merged ∧ (∀ other, IsMerge edits other → other = merged) ∧
      mergeEdits text edits = merged.map (withLineBreak text merged) ∧
      ∀ e ∈ merged, withLineBreak text merged e = e ∨
        e.replacement = "" ∧ withLineBreak text merged e = { e with stop := e.stop + 1 }) ∧
    (∀ edits' : List Edit,
      (∀ s, edits'.filter (fun e => e.span = s) = edits.filter (fun e => e.span = s)) →
      mergeEdits text edits' = mergeEdits text edits) ∧
    (edits.Pairwise (fun a b => a.span ≠ b.span) → ∀ edits', edits'.Perm edits →
      mergeEdits text edits' = mergeEdits text edits) := by
  have hmerge := isMerge_mergeSort_foldl h
  exact ⟨⟨_, hmerge, fun other hother => hother.unique hmerge, rfl,
    fun e _ => withLineBreak_cases text _ e⟩, fun edits' => mergeEdits_congr text h,
    fun hne edits' hperm => mergeEdits_congr text h (filter_span_eq_of_perm hne hperm)⟩

/-- A batch with edits inside one another, one of them dropped for an
edit that is dropped itself, and two insertions at one point. -/
theorem mergeEdits_eq_survivors_nested :
    let edits : List Edit := [⟨3, 4, "c"⟩, insert 2 "x", ⟨2, 5, "b"⟩, insert 7 "y", ⟨1, 6, "a"⟩,
      insert 7 "z", insert 1 "w"]
    (∀ e ∈ edits, e.start ≤ e.stop) ∧
      ∃ merged, IsMerge edits merged ∧
        mergeEdits "0123456789" edits = merged.map (withLineBreak "0123456789" merged) := by
  intro edits
  have h : ∀ e ∈ edits, e.start ≤ e.stop := by decide
  obtain ⟨⟨merged, hmerge, -, heq, -⟩, -⟩ := mergeEdits_eq_survivors "0123456789" edits h
  exact ⟨h, merged, hmerge, heq⟩

end Edit

end ScriptRefactor
