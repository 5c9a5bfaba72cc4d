import ScriptRefactor.Proofs.Edit.Merge
import ScriptRefactor.Edit.Apply

/-!
# `ScriptRefactor.Proofs.Edit.Compatible`: batches without conflict

Two edits are *compatible* if neither cuts the other: one of them only
inserts, or one lies clear of the other or inside it. A batch of
compatible edits has no conflict (`applyEditsChecked_ok`). Of edits
inside one another the merge leaves one, so those that are left lie
clear of each other, and the line break taken with an emptied line
stops short of the edit that starts there.
-/

set_option autoImplicit false

namespace ScriptRefactor.Edit

/-- Neither edit cuts the other. -/
def Compatible (a b : Edit) : Prop :=
  a.start = a.stop ∨ b.start = b.stop ∨ a.stop ≤ b.start ∨ b.stop ≤ a.start
    ∨ (a.start ≤ b.start ∧ b.stop ≤ a.stop) ∨ (b.start ≤ a.start ∧ a.stop ≤ b.stop)

instance (a b : Edit) : Decidable (Compatible a b) :=
  inferInstanceAs (Decidable (_ ∨ _ ∨ _ ∨ _ ∨ _ ∨ _))

/-- An edit does not cut itself. -/
theorem Compatible.refl (a : Edit) : Compatible a a := by
  unfold Compatible
  omega

/-- Neither cuts the other, in whichever order they are named. -/
theorem Compatible.symm {a b : Edit} (h : Compatible a b) : Compatible b a := by
  unfold Compatible at h ⊢
  omega

/-- The edits of a batch do not cut one another. -/
def AllCompatible (edits : List Edit) : Prop := ∀ a ∈ edits, ∀ b ∈ edits, Compatible a b

/-- What is left of a batch of compatible edits lies clear of what is
applied before it. -/
theorem stop_le_of_survives {edits : List Edit} (h : ∀ e ∈ edits, e.start ≤ e.stop)
    (hcompat : AllCompatible edits) {a b : Edit} (ha : Survives edits a) (hb : Survives edits b)
    (hab : precedes a b) : b.stop ≤ a.start := by
  obtain ⟨a', ha', haspan⟩ := ha.exists_span_eq
  obtain ⟨b', hb', hbspan⟩ := hb.exists_span_eq
  have hpair := hcompat a' ha' b' hb'
  have haproper := h a' ha'
  have hbproper := h b' hb'
  rw [span_eq_iff] at haspan hbspan
  unfold Compatible at hpair
  unfold precedes at hab
  cases hb with
  | insertion pos hsome hfree =>
      simp only [insert] at hab ⊢
      omega
  | replacement _ hproper hfirst hbfree =>
      have hbmem := List.mem_of_find?_eq_some hfirst
      have hbproper' := isInsertion_eq_false_iff.mp hproper
      cases ha with
      | insertion pos hsome hfree =>
          -- No insertion strictly inside a replacement is left.
          have hout := hfree b hbmem hproper
          simp only [insert] at hab ⊢
          omega
      | replacement _ haproper' hafirst hafree =>
          have hamem := List.mem_of_find?_eq_some hafirst
          have hne : a.span ≠ b.span := by
            rw [Ne, span_eq_iff]
            omega
          -- Neither of two replacements that are left contains the other.
          have hab' := hafree b hbmem hproper hne.symm
          have hba' := hbfree a hamem haproper' hne
          have haproper'' := isInsertion_eq_false_iff.mp haproper'
          omega

/-- Edits that lie clear of those applied before them have no
conflict. -/
theorem findConflict?_eq_none {merged : List Edit}
    (h : merged.Pairwise fun a b => b.stop ≤ a.start) : findConflict? merged = none := by
  induction merged with
  | nil => rfl
  | cons a rest ih =>
      cases rest with
      | nil => rfl
      | cons b rest =>
          have hab := (List.pairwise_cons.mp h).1 b (List.mem_cons_self ..)
          rw [findConflict?, if_neg (by omega)]
          exact ih (List.pairwise_cons.mp h).2

/-- An edit whose line break is taken still lies clear of the edits
applied before it. -/
theorem stop_withLineBreak_le {text : String} {batch : List Edit} {a b : Edit} (ha : a ∈ batch)
    (hab : b.stop ≤ a.start) :
    (b.withLineBreak text batch).stop ≤ (a.withLineBreak text batch).start := by
  have hstart : (a.withLineBreak text batch).start = a.start := by
    unfold withLineBreak
    split <;> rfl
  rw [hstart]
  unfold withLineBreak
  split
  · rename_i htaken
    have hnone : ∀ k ∈ batch, k.start ≠ b.stop := by
      simpa using (Bool.and_eq_true_iff.mp htaken).2
    have hne := hnone a ha
    show b.stop + 1 ≤ a.start
    omega
  · exact hab

/-- A batch of compatible edits is applied without conflict. -/
theorem applyEditsChecked_ok (text : String) {edits : List Edit}
    (h : ∀ e ∈ edits, e.start ≤ e.stop) (hcompat : AllCompatible edits) :
    ∃ out, applyEditsChecked text edits = .ok out := by
  have hmerge := isMerge_mergeSort_foldl h
  have hclear : (mergeEdits text edits).Pairwise fun a b => b.stop ≤ a.start := by
    rw [mergeEdits, List.pairwise_map]
    refine hmerge.ordered.imp_of_mem fun ha hb hab => ?_
    exact stop_withLineBreak_le ha (stop_le_of_survives h hcompat ((hmerge.mem_iff _).mp ha)
      ((hmerge.mem_iff _).mp hb) hab)
  refine ⟨splice text (mergeEdits text edits), ?_⟩
  rw [applyEditsChecked, conflictAmong?, findConflict?_eq_none hclear]
  rfl

end ScriptRefactor.Edit
