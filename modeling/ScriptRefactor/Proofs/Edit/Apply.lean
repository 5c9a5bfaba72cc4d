import ScriptRefactor.Edit.Apply
import ScriptRefactor.Proofs.Edit.Merge
import ScriptRefactor.Proofs.Text.Cut

/-!
# `ScriptRefactor.Proofs.Edit.Apply`: one edit after the other is all at once

The edits of a batch are carried out on a text that changes under
them, and each position is cut anew. `Edit.substitute` says what
should come out: the stretches of the original text between the
edits, and the replacements, in ascending order.

The two agree for a batch that is accepted
(`applyEditsChecked_eq_substitute`). Going through the edits from the
end of the text, the invariant is that everything in front of the
edit carried out last is still the original text
(`foldr_carryOut_eq_substitute`). So the positions of the edits in
front are cuts of the changed text as they are of the original one.
-/

set_option autoImplicit false

namespace ScriptRefactor

open Text

namespace Edit

/-- The characters from a position on, with ascending edits in the
place of their spans. -/
def substitute (cs : List Char) : Nat → List Edit → Option (List Char)
  | pos, [] => sliceChars? cs pos (byteSize cs)
  | pos, e :: rest => do
    let gap ← sliceChars? cs pos e.start
    let tail ← substitute cs e.stop rest
    return gap ++ e.replacement.toList ++ tail

/-- The span is in order, and its ends lie between characters of the
text. -/
def FitsIn (text : String) (e : Edit) : Prop :=
  e.start ≤ e.stop ∧ isBoundary text e.start = true ∧ isBoundary text e.stop = true

instance (text : String) (e : Edit) : Decidable (FitsIn text e) :=
  inferInstanceAs (Decidable (_ ∧ _ ∧ _))

/-! ### The edits of a merged batch -/

/-- The line break taken with an emptied line ends between two
characters. -/
theorem FitsIn.withLineBreak {text : String} {e : Edit} (h : e.FitsIn text) (batch : List Edit) :
    (e.withLineBreak text batch).FitsIn text := by
  unfold Edit.withLineBreak
  split
  · rename_i hempties
    have hbreak : hasCharAt text e.stop '\n' = true := by
      simp only [emptiesLine, Bool.and_eq_true] at hempties
      exact hempties.1.2
    exact ⟨Nat.le_succ_of_le h.1, h.2.1, isBoundary_succ_of_hasCharAt (by decide) hbreak⟩
  · exact h

/-- A merged batch of edits that fit in the text has only such
edits. -/
theorem fitsIn_of_mem_mergeEdits {text : String} {edits : List Edit}
    (h : ∀ e ∈ edits, e.FitsIn text) : ∀ e ∈ mergeEdits text edits, e.FitsIn text := by
  have hmerge := isMerge_mergeSort_foldl fun e he => (h e he).1
  intro e he
  obtain ⟨k, hk, rfl⟩ := List.mem_map.mp he
  refine FitsIn.withLineBreak ?_ _
  obtain ⟨a, ha, has⟩ := ((hmerge.mem_iff k).mp hk).exists_span_eq
  obtain ⟨hstart, hstop⟩ := span_eq_iff.mp has
  have hfits := h a ha
  unfold FitsIn at hfits ⊢
  rw [← hstart, ← hstop]
  exact hfits

/-- Where no two neighbours overlap, no two edits do. -/
theorem pairwise_of_findConflict?_eq_none {merged : List Edit} (h : findConflict? merged = none)
    (hproper : ∀ e ∈ merged, e.start ≤ e.stop) :
    merged.Pairwise fun a b => b.stop ≤ a.start := by
  induction merged with
  | nil => exact .nil
  | cons a rest ih =>
      cases rest with
      | nil => exact List.pairwise_singleton _ a
      | cons b rest =>
          rw [findConflict?] at h
          split at h
          · cases h
          · rename_i hab
            have hrest := ih h fun e he => hproper e (List.mem_cons_of_mem a he)
            have hb := hproper b (by simp)
            refine List.pairwise_cons.mpr ⟨?_, hrest⟩
            intro c hc
            rcases List.mem_cons.mp hc with rfl | hc
            · omega
            · -- What is clear of `b` is clear of `a`, since `b` lies before it.
              have hcb := (List.pairwise_cons.mp hrest).1 c hc
              omega

/-! ### The pass over the text -/

/-- The edits behind `before`, carried out from the end of the text:
`before` stays, and what follows it is the substitution. -/
theorem foldr_carryOut_eq_substitute (text : String) (ascending : List Edit) :
    ∀ before after : List Char, text.toList = before ++ after →
      (∀ e ∈ ascending, e.FitsIn text) →
      (∀ e ∈ ascending, byteSize before ≤ e.start) →
      ascending.Pairwise (fun a b => a.stop ≤ b.start) →
      ∃ out, substitute text.toList (byteSize before) ascending = some out ∧
        ascending.foldr (fun e cs => carryOut cs e) text.toList = before ++ out := by
  induction ascending with
  | nil =>
      intro before after hsplit _ _ _
      refine ⟨after, ?_, hsplit⟩
      have hslice := sliceChars?_append before after []
      rw [substitute, hsplit, byteSize_append]
      rwa [List.append_nil] at hslice
  | cons e rest ih =>
      intro before after hsplit hfits hbehind hchain
      obtain ⟨hle, hstart, hstop⟩ := hfits e (by simp)
      -- The text splits into what is in front, the gap, the span and the rest.
      obtain ⟨front, _, hfront, hfrontSize⟩ := isBoundary_iff.mp hstart
      obtain ⟨upto, behind, hupto, huptoSize⟩ := isBoundary_iff.mp hstop
      obtain ⟨gap, rfl, -⟩ := exists_append_of_byteSize_le (hsplit.symm.trans hfront)
        (by rw [hfrontSize]; exact hbehind e (by simp))
      obtain ⟨inside, rfl, -⟩ := exists_append_of_byteSize_le (hfront.symm.trans hupto)
        (by rw [hfrontSize, huptoSize]; exact hle)
      obtain ⟨out, hsub, hfold⟩ := ih (before ++ gap ++ inside) behind hupto
        (fun a ha => hfits a (List.mem_cons_of_mem e ha))
        (fun a ha => by rw [huptoSize]; exact (List.pairwise_cons.mp hchain).1 a ha)
        (List.pairwise_cons.mp hchain).2
      refine ⟨gap ++ e.replacement.toList ++ out, ?_, ?_⟩
      · have hgap : sliceChars? text.toList (byteSize before) e.start = some gap := by
          rw [hupto, ← hfrontSize, byteSize_append,
            show before ++ gap ++ inside ++ behind = before ++ gap ++ (inside ++ behind) by simp]
          exact sliceChars?_append before gap (inside ++ behind)
        rw [huptoSize] at hsub
        rw [substitute, hgap, hsub]
        rfl
      · -- The text behind the edit has changed, but the cuts are in front of it.
        have hcutStart :
            (cutBefore (before ++ gap ++ inside ++ out) e.start).1 = before ++ gap := by
          rw [← hfrontSize, List.append_assoc (before ++ gap), cutBefore_append]
        have hcutStop : (cutBefore (before ++ gap ++ inside ++ out) e.stop).2 = out := by
          rw [← huptoSize, cutBefore_append]
        rw [List.foldr_cons, hfold, carryOut, Nat.min_eq_left hle, hcutStart, hcutStop]
        simp

/-- Merged edits that fit in the text and do not overlap come to the
text with all of them substituted at once. -/
theorem substitute_eq_splice {text : String} {merged : List Edit}
    (hfits : ∀ e ∈ merged, e.FitsIn text) (hchain : merged.Pairwise fun a b => b.stop ≤ a.start) :
    substitute text.toList 0 merged.reverse = some (splice text merged).toList := by
  obtain ⟨cs, hsub, hfold⟩ := foldr_carryOut_eq_substitute text merged.reverse [] text.toList rfl
    (fun e he => hfits e (List.mem_reverse.mp he)) (fun e _ => Nat.zero_le _)
    (List.pairwise_reverse.mpr hchain)
  rw [List.foldr_reverse, List.nil_append] at hfold
  rw [splice, String.toList_ofList, hfold]
  exact hsub

end Edit

open Edit

/-- A batch is accepted if its merged edits have no conflict, and comes
to the text spliced with them. -/
theorem applyEditsChecked_eq_ok_iff {text out : String} {edits : List Edit} :
    applyEditsChecked text edits = .ok out ↔
      findConflict? (mergeEdits text edits) = none ∧ splice text (mergeEdits text edits) = out := by
  rw [applyEditsChecked, conflictAmong?]
  cases findConflict? (mergeEdits text edits) <;> simp

/-- A batch that is accepted: its merged edits do not overlap, and in
ascending order an insertion at a point comes before what starts
there. The text that comes out is the one with all of them
substituted at once. An application that accepts every batch gives
the same text. -/
theorem applyEditsChecked_eq_substitute (text : String) (edits : List Edit) (out : String)
    (hfits : ∀ e ∈ edits, e.start ≤ e.stop ∧
      isBoundary text e.start = true ∧ isBoundary text e.stop = true)
    (h : applyEditsChecked text edits = .ok out) :
    (mergeEdits text edits).reverse.Pairwise (fun a b => a.stop ≤ b.start) ∧
      substitute text.toList 0 (mergeEdits text edits).reverse = some out.toList ∧
      (applyEdits text edits).1 = out := by
  have hmerged : ∀ e ∈ mergeEdits text edits, e.FitsIn text := fitsIn_of_mem_mergeEdits hfits
  -- An accepted batch has no conflict, and the text is the spliced one.
  obtain ⟨hnone, hout⟩ : conflictAmong? (mergeEdits text edits) = none ∧
      splice text (mergeEdits text edits) = out := by
    cases hc : conflictAmong? (mergeEdits text edits) with
    | some c => simp [applyEditsChecked, hc] at h
    | none => exact ⟨rfl, by simpa [applyEditsChecked, hc] using h⟩
  have hchain : (mergeEdits text edits).reverse.Pairwise (fun a b => a.stop ≤ b.start) := by
    rw [List.pairwise_reverse]
    refine pairwise_of_findConflict?_eq_none ?_ fun e he => (hmerged e he).1
    simpa [conflictAmong?] using hnone
  -- The edits are carried out from the end of the text, with nothing in front to begin with.
  obtain ⟨cs, hsub, hfold⟩ := foldr_carryOut_eq_substitute text (mergeEdits text edits).reverse
    [] text.toList rfl (fun e he => hmerged e (List.mem_reverse.mp he))
    (fun e _ => Nat.zero_le _) hchain
  rw [List.foldr_reverse, List.nil_append] at hfold
  refine ⟨hchain, ?_, hout⟩
  have hcs : out.toList = cs := by
    rw [← hout, splice, String.toList_ofList]
    exact hfold
  rw [hcs]
  exact hsub

/-- A batch with a line emptied behind an insertion, and an insertion
in front of a replaced letter of two bytes. -/
theorem applyEditsChecked_eq_substitute_touching :
    let text := "one\ntwo\né"
    let edits : List Edit := [insert 8 "<", ⟨8, 10, "E"⟩, delete 4 7, insert 4 "-"]
    (∀ e ∈ edits, e.start ≤ e.stop ∧
      isBoundary text e.start = true ∧ isBoundary text e.stop = true) ∧
    applyEditsChecked text edits = .ok "one\n-<E" ∧
    substitute text.toList 0 (mergeEdits text edits).reverse = some "one\n-<E".toList := by
  intro text edits
  have hfits : ∀ e ∈ edits, e.FitsIn text := by
    simp only [edits, List.forall_mem_cons]
    decide
  have hmerge : mergeEdits text edits =
      [⟨8, 10, "E"⟩, insert 8 "<", ⟨4, 8, ""⟩, insert 4 "-"] := by
    -- The spans differ, so the batch may be sorted beforehand.
    let sorted : List Edit := [⟨8, 10, "E"⟩, insert 8 "<", delete 4 7, insert 4 "-"]
    have hproper : ∀ e ∈ sorted, e.start ≤ e.stop := by decide
    have hspans : sorted.Pairwise fun a b => a.span ≠ b.span := by decide
    have hsorted : sorted.Pairwise fun a b => a.appliesBefore b = true := by decide
    rw [mergeEdits_congr text hproper (filter_span_eq_of_perm hspans (by decide)), mergeEdits,
      List.mergeSort_of_pairwise hsorted]
    decide +kernel
  have hok : applyEditsChecked text edits = .ok "one\n-<E" := by
    have hsplice : splice text (mergeEdits text edits) = "one\n-<E" := by
      rw [hmerge]
      decide +kernel
    rw [applyEditsChecked, hsplice, hmerge]
    rfl
  exact ⟨hfits, hok, (applyEditsChecked_eq_substitute text edits _ hfits hok).2.1⟩

end ScriptRefactor
