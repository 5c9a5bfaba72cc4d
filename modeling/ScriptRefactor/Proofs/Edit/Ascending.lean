import Mathlib.Data.List.Pairwise
import ScriptRefactor.Proofs.Edit.Apply
import ScriptRefactor.Proofs.Edit.Compatible
import ScriptRefactor.Proofs.Edit.Conflicts

/-!
# `ScriptRefactor.Proofs.Edit.Ascending`: batches in text order

Edits that follow one another in the text and start at different places are
all kept (`keptOf_of_isAscending`). Unless one of them empties a line, they
come to the text with all of them put in as they are
(`applyEditsChecked_of_isAscending`). So two stretches of a text may be
exchanged at once, and each of them may also be left alone
(`applyEdits_stretches`).
-/

set_option autoImplicit false

namespace ScriptRefactor

namespace Edit

open Text

variable {text out : String} {edits : List Edit}

/-- The edits fit in the text, follow one another and start at different
places, and none of them empties a line. -/
structure IsAscending (text : String) (edits : List Edit) : Prop where
  /-- Each fits in the text. -/
  fits : ∀ e ∈ edits, e.FitsIn text
  /-- They follow one another. -/
  chain : edits.Pairwise fun a b => a.stop ≤ b.start ∧ a.start < b.start
  /-- No line is emptied. -/
  keepsLines : ∀ e ∈ edits, e.emptiesLine text = false

instance (text : String) (edits : List Edit) : Decidable (IsAscending text edits) :=
  decidable_of_iff ((∀ e ∈ edits, e.FitsIn text)
      ∧ (edits.Pairwise fun a b => a.stop ≤ b.start ∧ a.start < b.start)
      ∧ ∀ e ∈ edits, e.emptiesLine text = false)
    ⟨fun ⟨h1, h2, h3⟩ => ⟨h1, h2, h3⟩, fun h => ⟨h.fits, h.chain, h.keepsLines⟩⟩

/-- A pass over edits that stand in front of those kept keeps them all. -/
theorem foldl_keep_of_descending {rest : List Edit} (hproper : ∀ e ∈ rest, e.start ≤ e.stop)
    (hrest : rest.Pairwise fun a b => b.stop ≤ a.start ∧ b.start < a.start) :
    ∀ kept : List Edit, (∀ k ∈ kept, k.start ≤ k.stop) →
      (∀ k ∈ kept, ∀ e ∈ rest, e.stop ≤ k.start ∧ e.start < k.start) →
      rest.foldl keep kept = rest.reverse ++ kept := by
  induction rest with
  | nil => exact fun _ _ _ => rfl
  | cons e rest ih =>
      intro kept hkeptProper hkept
      obtain ⟨hfront, hrest⟩ := List.pairwise_cons.mp hrest
      obtain ⟨he, hproper⟩ := List.forall_mem_cons.mp hproper
      -- Nothing kept covers the edit or is covered by it, and the last one kept does not join it.
      have hstep : keep kept e = e :: kept := by
        have hcover : kept.any (·.covers e) = false := List.any_eq_false.mpr fun k hk => by
          obtain ⟨-, hlt⟩ := hkept k hk e (List.mem_cons_self ..)
          rw [covers_iff]
          rintro ⟨-, ⟨-, h, -⟩ | ⟨-, h, -⟩⟩ <;> omega
        have hfilter : kept.filter (fun k => !(e.covers k)) = kept :=
          List.filter_eq_self.mpr fun k hk => by
            obtain ⟨hle, hlt⟩ := hkept k hk e (List.mem_cons_self ..)
            have hk := hkeptProper k hk
            have hnot : ¬ e.covers k = true := by
              rw [covers_iff, isInsertion_iff, isInsertion_eq_false_iff, isInsertion_eq_false_iff]
              omega
            simpa using hnot
        unfold keep
        dsimp only
        rw [hcover, hfilter]
        cases kept with
        | nil => rfl
        | cons last before =>
            obtain ⟨-, hlt⟩ := hkept last (List.mem_cons_self ..) e (List.mem_cons_self ..)
            have hjoins : last.joins e = false := by
              simp only [joins, Bool.and_eq_false_iff, decide_eq_false_iff_not]
              omega
            simp [hjoins]
      have hbehind : ∀ k ∈ e :: kept, ∀ a ∈ rest, a.stop ≤ k.start ∧ a.start < k.start :=
        List.forall_mem_cons.mpr ⟨hfront, fun k hk a ha => hkept k hk a (List.mem_cons_of_mem e ha)⟩
      rw [List.foldl_cons, hstep,
        ih hproper hrest (e :: kept) (List.forall_mem_cons.mpr ⟨he, hkeptProper⟩) hbehind]
      simp

/-- Edits that follow one another are all kept. -/
theorem keptOf_of_chain (hproper : ∀ e ∈ edits, e.start ≤ e.stop)
    (hchain : edits.Pairwise fun a b => a.stop ≤ b.start ∧ a.start < b.start) :
    keptOf edits = edits.reverse := by
  have hspans : edits.Pairwise fun a b => a.span ≠ b.span := hchain.imp fun hab heq => by
    have := (span_eq_iff.mp heq).1
    omega
  have hdesc : edits.reverse.Pairwise fun a b => b.stop ≤ a.start ∧ b.start < a.start :=
    List.pairwise_reverse.mpr hchain
  have hsorted : edits.reverse.Pairwise fun a b => a.appliesBefore b = true :=
    hdesc.imp fun hab => appliesBefore_iff.mpr (by omega)
  -- The batch may be sorted beforehand, since its spans differ.
  have hperm : keptOf edits = keptOf edits.reverse :=
    (isMerge_mergeSort_foldl hproper).unique
      ((isMerge_mergeSort_foldl fun e he => hproper e (List.mem_reverse.mp he)).congr
        (filter_span_eq_of_perm hspans (List.reverse_perm edits)))
  have hfold := foldl_keep_of_descending (fun e he => hproper e (List.mem_reverse.mp he)) hdesc []
    (by simp) (by simp)
  rw [hperm, keptOf_of_sorted hsorted, hfold]
  simp

/-- Ascending edits are all kept. -/
theorem keptOf_of_isAscending (h : IsAscending text edits) : keptOf edits = edits.reverse :=
  keptOf_of_chain (fun e he => (h.fits e he).1) h.chain

/-- Ascending edits that empty no line are merged into themselves. -/
theorem mergeEdits_of_isAscending (h : IsAscending text edits) :
    mergeEdits text edits = edits.reverse := by
  rw [mergeEdits_eq_map, keptOf_of_isAscending h]
  refine (List.map_congr_left fun e he => ?_).trans (List.map_id _)
  rw [withLineBreak, h.keepsLines e (List.mem_reverse.mp he)]
  rfl

/-- Ascending edits that empty no line are accepted, and all of them are
put in as they are. -/
theorem applyEditsChecked_of_isAscending (h : IsAscending text edits)
    (hout : substitute text.toList 0 edits = some out.toList) :
    applyEditsChecked text edits = .ok out := by
  have hmerge := mergeEdits_of_isAscending h
  have hchain : edits.reverse.Pairwise fun a b => b.stop ≤ a.start :=
    List.pairwise_reverse.mpr (h.chain.imp And.left)
  have hfits : ∀ e ∈ edits.reverse, e.FitsIn text := fun e he => h.fits e (List.mem_reverse.mp he)
  have hsplice := substitute_eq_splice hfits hchain
  rw [List.reverse_reverse, hout, Option.some.injEq, String.toList_inj] at hsplice
  exact applyEditsChecked_eq_ok_iff.mpr
    ⟨by rw [hmerge, findConflict?_eq_none hchain], by rw [hmerge, ← hsplice]⟩

/-- A batch that is accepted gives the same text when no batch is refused,
with nothing to report. -/
theorem applyEdits_of_checked (h : applyEditsChecked text edits = .ok out) :
    applyEdits text edits = (out, []) := by
  obtain ⟨hconflict, hsplice⟩ := applyEditsChecked_eq_ok_iff.mp h
  rw [applyEdits, conflictAmong?]
  dsimp only
  rw [hconflict, hsplice]
  rfl

/-- A line break is taken at the end of an edit. -/
theorem withLineBreak_bounds (text : String) (batch : List Edit) (e : Edit) :
    (e.withLineBreak text batch).start = e.start ∧
      (e.withLineBreak text batch).stop ≤ e.stop + 1 := by
  obtain h | ⟨-, h⟩ := withLineBreak_cases text batch e <;> rw [h]
  · exact ⟨rfl, Nat.le_succ _⟩
  · exact ⟨rfl, Nat.le_refl _⟩

/-- Edits with something between any two of them are applied as they are, but
for the line breaks that they take with them. -/
theorem applyEdits_of_apart (hfits : ∀ e ∈ edits, e.FitsIn text ∧ e.start < e.stop)
    (hchain : edits.Pairwise fun a b => a.stop < b.start)
    (hout : substitute text.toList 0 (edits.map (withLineBreak text [])) = some out.toList) :
    applyEdits text edits = (out, []) := by
  have hmerge : mergeEdits text edits = (edits.map (withLineBreak text [])).reverse := by
    have horder : edits.Pairwise fun a b => a.stop ≤ b.start ∧ a.start < b.start :=
      hchain.imp_of_mem fun {a b} ha _ hab => ⟨hab.le, by have := (hfits a ha).2; omega⟩
    rw [mergeEdits_eq_map, keptOf_of_chain (fun e he => (hfits e he).1.1) horder,
      ← List.map_reverse]
    -- No edit starts where one of them stops.
    let Apart (a b : Edit) : Prop := a.stop < b.start ∨ b.stop < a.start
    have hsymm : Std.Symm Apart := ⟨fun _ _ => Or.symm⟩
    have hapart : edits.Pairwise Apart := hchain.imp .inl
    refine List.map_congr_left fun e he => ?_
    have hfree : (edits.reverse.any fun k => k.start = e.stop) = false := by
      rw [List.any_reverse]
      refine List.any_eq_false.mpr fun k hk => ?_
      rw [decide_eq_true_eq]
      have he := List.mem_reverse.mp he
      have hlt := (hfits e he).2
      by_cases hke : k = e
      · subst hke
        exact hlt.ne
      · have hlt' := (hfits k hk).2
        have hclear := hapart.forall hk he hke
        omega
    rw [withLineBreak, withLineBreak, hfree, List.any_nil]
  have hdesc : (edits.map (withLineBreak text [])).reverse.Pairwise fun a b => b.stop ≤ a.start := by
    refine List.pairwise_reverse.mpr (List.pairwise_map.mpr (hchain.imp fun {a b} hab => ?_))
    have ha := (withLineBreak_bounds text [] a).2
    have hb := (withLineBreak_bounds text [] b).1
    omega
  have hmerged : ∀ e ∈ (edits.map (withLineBreak text [])).reverse, e.FitsIn text := by
    intro e he
    obtain ⟨a, ha, rfl⟩ := List.mem_map.mp (List.mem_reverse.mp he)
    exact (hfits a ha).1.withLineBreak []
  have hsplice := substitute_eq_splice hmerged hdesc
  rw [List.reverse_reverse, hout, Option.some.injEq, String.toList_inj] at hsplice
  exact applyEdits_of_checked (applyEditsChecked_eq_ok_iff.mpr
    ⟨by rw [hmerge, findConflict?_eq_none hdesc], by rw [hmerge, ← hsplice]⟩)

/-! ### Stretches -/

/-- What an edit comes to, with the gap in front of it. -/
theorem substitute_cons (front gap : List Char) {back tail : List Char} {e : Edit}
    {rest : List Edit} (hstart : e.start = byteSize front + byteSize gap)
    (hrest : substitute (front ++ gap ++ back) e.stop rest = some tail) :
    substitute (front ++ gap ++ back) (byteSize front) (e :: rest)
      = some (gap ++ e.replacement.toList ++ tail) := by
  rw [substitute, hstart, sliceChars?_append, hrest]
  rfl

/-- What is behind the last edit stays. -/
theorem substitute_nil (front back : List Char) :
    substitute (front ++ back) (byteSize front) [] = some back := by
  have hall := sliceChars?_append front back []
  rw [List.append_nil] at hall
  rw [substitute, byteSize_append, hall]

/-- The edits exchange a stretch behind `front`; none are needed if it stays. -/
def Exchanges (front old new : List Char) (edits : List Edit) : Prop :=
  edits = [⟨byteSize front, byteSize front + byteSize old, String.ofList new⟩]
    ∨ (edits = [] ∧ old = new)

/-- A stretch that is exchanged is a part of the text. -/
theorem Exchanges.fits {front old new back : List Char} (h : Exchanges front old new edits)
    (htext : text.toList = front ++ old ++ back) : ∀ e ∈ edits, e.FitsIn text := by
  rcases h with rfl | ⟨rfl, -⟩
  · intro e he
    obtain rfl := List.mem_singleton.mp he
    exact ⟨Nat.le_add_right .., isBoundary_iff.mpr ⟨front, old ++ back, by simp [htext], rfl⟩,
      isBoundary_iff.mpr ⟨front ++ old, back, htext, byteSize_append ..⟩⟩
  · simp

/-- Putting a text in empties no line. -/
theorem Exchanges.keepsLines {front new : List Char} (h : Exchanges front [] new edits) :
    ∀ e ∈ edits, e.emptiesLine text = false := by
  rcases h with rfl | ⟨rfl, -⟩
  · intro e he
    obtain rfl := List.mem_singleton.mp he
    simp [emptiesLine]
  · simp

/-- What comes out from a position on, if one stretch is exchanged. -/
theorem Exchanges.substitute_eq (head gap : List Char) {old new : List Char} (back : List Char)
    (h : Exchanges (head ++ gap) old new edits) :
    substitute (head ++ gap ++ old ++ back) (byteSize head) edits
      = some (gap ++ new ++ back) := by
  rcases h with rfl | ⟨rfl, rfl⟩
  · have hrest := substitute_nil (head ++ gap ++ old) back
    rw [byteSize_append, List.append_assoc (head ++ gap)] at hrest
    rw [List.append_assoc (head ++ gap), substitute_cons head gap (byteSize_append head gap) hrest,
      String.toList_ofList]
  · have hrest := substitute_nil head (gap ++ old ++ back)
    rwa [← List.append_assoc, ← List.append_assoc] at hrest

/-- Two stretches of a text are exchanged, if no line is emptied. -/
theorem applyEdits_stretches {front old new mid old' new' back : List Char}
    {first second : List Edit} (htext : text.toList = front ++ old ++ mid ++ old' ++ back)
    (hmid : mid ≠ []) (hfirst : Exchanges front old new first)
    (hsecond : Exchanges (front ++ old ++ mid) old' new' second)
    (hlines : ∀ e ∈ first ++ second, e.emptiesLine text = false) :
    applyEdits text (first ++ second)
      = (String.ofList (front ++ new ++ mid ++ new' ++ back), []) := by
  have hmidSize : 0 < byteSize mid := by
    obtain ⟨c, cs, rfl⟩ := List.exists_cons_of_ne_nil hmid
    have hc := c.utf8Size_pos
    rw [byteSize_cons]
    omega
  have hsize : byteSize (front ++ old ++ mid) = byteSize front + byteSize old + byteSize mid := by
    rw [byteSize_append, byteSize_append]
  have hsplit : text.toList = front ++ old ++ (mid ++ old' ++ back) := by simp [htext]
  refine applyEdits_of_checked (applyEditsChecked_of_isAscending ⟨?_, ?_, hlines⟩ ?_)
  · exact List.forall_mem_append.mpr ⟨hfirst.fits hsplit, hsecond.fits htext⟩
  · -- There are two edits at most, and `mid` stands between them.
    rcases hfirst with rfl | ⟨rfl, -⟩ <;> rcases hsecond with rfl | ⟨rfl, -⟩
    · refine List.pairwise_pair.mpr ⟨?_, ?_⟩
      · show byteSize front + byteSize old ≤ byteSize (front ++ old ++ mid)
        omega
      · show byteSize front < byteSize (front ++ old ++ mid)
        omega
    all_goals simp
  · rw [String.toList_ofList]
    rcases hfirst with rfl | ⟨rfl, rfl⟩
    · have hrest := hsecond.substitute_eq (front ++ old) mid back
      have hfront : text.toList = [] ++ front ++ (old ++ mid ++ old' ++ back) := by simp [htext]
      rw [← htext, byteSize_append, hfront] at hrest
      have hstart : byteSize front = byteSize ([] : List Char) + byteSize front := by simp
      rw [hfront]
      exact (substitute_cons (e := ⟨byteSize front, _, String.ofList new⟩) [] front hstart
        hrest).trans (by simp)
    · have hrest := hsecond.substitute_eq [] (front ++ old ++ mid) back
      rw [List.nil_append, ← htext] at hrest
      exact hrest

end Edit

end ScriptRefactor
