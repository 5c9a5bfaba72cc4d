import Mathlib.Data.List.Pairwise
import ScriptRefactor.Proofs.Edit.Apply
import ScriptRefactor.Proofs.Edit.Compatible
import ScriptRefactor.Proofs.Edit.LineBreaks
import ScriptRefactor.Proofs.Text.Floor

/-!
# `ScriptRefactor.Proofs.Edit.Clamped`: positions past the end or inside a character

A position past the end of a text counts as its end, and one inside a
character as the front of the character. Each edit is held to that only when
its turn comes, by the text as it is then. `Edit.clamped` does it for the
batch beforehand.

Both come to the same text as long as the edits keep their places
(`applyEditsChecked_clamped`):

* the merge keeps the same edits if the batch has the same spans and the same
  edits inside one another as before (`keptOf_mapPos`);
* the line breaks taken are the same if no other edit empties a line
  (`mergeEdits_clamped`);
* the cuts are the same if every edit ends in front of where the next start
  is moved to (`splice_clamped`). Up to there the text is still the
  original one.

`applyEditsChecked_clamped_differs` has a batch for each way in which they do
not.
-/

set_option autoImplicit false

namespace ScriptRefactor

open Text

namespace Edit

/-- The edit with its positions moved. -/
def mapPos (φ : Nat → Nat) (e : Edit) : Edit := { e with start := φ e.start, stop := φ e.stop }

/-- A position limited to the text and moved to the front of the character in
which it lies. -/
def clampPos (text : String) (pos : Nat) : Nat := floorPos text.toList (min pos (size text))

/-- The edit with its positions clamped. -/
def clamped (text : String) : Edit → Edit := mapPos (clampPos text)

/-- Moved positions leave the first edit where it was beside the second. -/
structure KeepsPlace (φ : Nat → Nat) (e f : Edit) : Prop where
  /-- Different spans stay different. -/
  span_eq : (e.mapPos φ).span = (f.mapPos φ).span → e.span = f.span
  /-- The first makes the second superfluous if it did before. -/
  covers_eq : (e.mapPos φ).covers (f.mapPos φ) = e.covers f
  /-- The first, if it ended in front of the start of the second, ends in
  front of where that start is moved to. Insertions at one point need not. -/
  clear : e.stop ≤ f.start → e.span = f.span ∨ e.stop ≤ φ f.start

instance (φ : Nat → Nat) (e f : Edit) : Decidable (KeepsPlace φ e f) :=
  decidable_of_iff
    (((e.mapPos φ).span = (f.mapPos φ).span → e.span = f.span) ∧
      (e.mapPos φ).covers (f.mapPos φ) = e.covers f ∧
      (e.stop ≤ f.start → e.span = f.span ∨ e.stop ≤ φ f.start))
    ⟨fun h => ⟨h.1, h.2.1, h.2.2⟩, fun h => ⟨h.span_eq, h.covers_eq, h.clear⟩⟩

/-! ### What is left, by the edits of one span -/

/-- The text that is left for a span: insertions at a point are joined, and of
replacements the first one counts. -/
def textLeft (sameSpan : List Edit) (inserts : Bool) : Option String :=
  if inserts then some (String.join (sameSpan.map replacement)) else sameSpan.head?.map replacement

/-- Edits of one span insert both or neither. -/
theorem isInsertion_of_span_eq {e i : Edit} (h : e.span = i.span) :
    i.isInsertion = e.isInsertion := by
  rw [span_eq_iff] at h
  rw [isInsertion, isInsertion, h.1, h.2]

/-- A replacement is left for each span that no edit of another span makes
superfluous. -/
theorem survives_iff_exists_of_replacement {batch : List Edit} {e : Edit}
    (he : e.isInsertion = false) :
    Survives batch e ↔ ∃ i ∈ batch, e.span = i.span ∧
      (∀ o ∈ batch, o.covers i = true → o.span = i.span) ∧
      textLeft (batch.filter fun o => o.span = i.span) i.isInsertion = some e.replacement := by
  rw [survives_iff_of_replacement he, ← List.head?_filter]
  constructor
  · rintro ⟨hfirst, hfree⟩
    have hmem := List.mem_of_find?_eq_some (List.head?_filter.symm.trans hfirst)
    refine ⟨e, hmem, rfl, fun o ho hcov => ?_, by rw [he, textLeft, hfirst]; rfl⟩
    obtain ⟨hop, hin⟩ := covers_iff.mp hcov
    rw [he] at hin
    simp only [Bool.false_eq_true, false_and, true_and, false_or] at hin
    by_contra hne
    exact hfree o ho hop hne hin
  · rintro ⟨i, hi, hspan, hfree, htext⟩
    have hip : i.isInsertion = false := (isInsertion_of_span_eq hspan).trans he
    obtain ⟨hstart, hstop⟩ := span_eq_iff.mp hspan
    rw [hip, textLeft] at htext
    obtain ⟨f, hf, hfe⟩ := Option.map_eq_some_iff.mp htext
    have hfspan : f.span = i.span := by
      have hmem := List.mem_of_mem_head? hf
      simpa using (List.mem_filter.mp hmem).2
    -- The first edit of the span has the text of this one, so it is this one.
    have hfirst : f = e := eq_iff_span_replacement.mpr ⟨hfspan.trans hspan.symm, hfe⟩
    refine ⟨by rw [hspan, hf, hfirst], fun o ho hop hne hin => hne ?_⟩
    rw [hspan]
    exact hfree o ho (covers_iff.mpr ⟨hop, .inr ⟨hip, by omega, by omega⟩⟩)

/-- The insertions at a point are left as one if no edit lies around the
point. -/
theorem survives_iff_exists_of_insertion {batch : List Edit} {e : Edit}
    (he : e.isInsertion = true) :
    Survives batch e ↔ ∃ i ∈ batch, e.span = i.span ∧
      (∀ o ∈ batch, o.covers i = true → o.span = i.span) ∧
      textLeft (batch.filter fun o => o.span = i.span) i.isInsertion = some e.replacement := by
  have hpoint : e.span = ⟨e.start, e.start⟩ :=
    span_eq_point_iff.mpr ⟨rfl, (isInsertion_iff.mp he).symm⟩
  have htexts : ∀ i : Edit, e.span = i.span →
      textLeft (batch.filter fun o => o.span = i.span) i.isInsertion
        = some (String.join (textsAt batch e.start)) := by
    intro i hspan
    rw [isInsertion_of_span_eq hspan, he, textLeft, if_pos rfl, textsAt, ← hpoint, hspan]
  -- An edit makes an insertion superfluous if it lies strictly around its point.
  have hcovers : ∀ i o : Edit, e.span = i.span →
      (o.covers i = true ↔ o.isInsertion = false ∧ o.start < e.start ∧ e.start < o.stop) := by
    intro i o hspan
    rw [covers_iff, isInsertion_of_span_eq hspan, he, (span_eq_iff.mp hspan).1]
    simp
  rw [survives_iff_of_insertion he]
  constructor
  · rintro ⟨⟨i, hi, hspan⟩, hfree, htext⟩
    refine ⟨i, hi, hspan.symm, fun o ho hcov => ?_, by rw [htexts i hspan.symm, htext]⟩
    obtain ⟨hop, hin⟩ := (hcovers i o hspan.symm).mp hcov
    exact absurd hin (hfree o ho hop)
  · rintro ⟨i, hi, hspan, hfree, htext⟩
    rw [htexts i hspan, Option.some.injEq] at htext
    refine ⟨⟨i, hi, hspan.symm⟩, fun o ho hop hin => ?_, htext.symm⟩
    have hsame := hfree o ho ((hcovers i o hspan).mpr ⟨hop, hin⟩)
    rw [← hspan, hpoint, span_eq_point_iff] at hsame
    omega

/-- An edit is left for each span of the batch that no edit of another span
makes superfluous. -/
theorem survives_iff_exists {batch : List Edit} {e : Edit} :
    Survives batch e ↔ ∃ i ∈ batch, e.span = i.span ∧
      (∀ o ∈ batch, o.covers i = true → o.span = i.span) ∧
      textLeft (batch.filter fun o => o.span = i.span) i.isInsertion = some e.replacement := by
  cases he : e.isInsertion with
  | false => exact survives_iff_exists_of_replacement he
  | true => exact survives_iff_exists_of_insertion he

/-! ### The merge of a batch with moved positions -/

section MapPos

variable {φ : Nat → Nat} {edits : List Edit}

/-- A batch of which no two edits lose their places. -/
def AllKeepPlace (φ : Nat → Nat) (edits : List Edit) : Prop :=
  edits.Pairwise fun e f => KeepsPlace φ e f ∧ KeepsPlace φ f e

instance (φ : Nat → Nat) (edits : List Edit) : Decidable (AllKeepPlace φ edits) :=
  inferInstanceAs (Decidable (List.Pairwise _ _))

theorem AllKeepPlace.of_ne (h : AllKeepPlace φ edits) {e f : Edit} (he : e ∈ edits)
    (hf : f ∈ edits) (hne : e ≠ f) : KeepsPlace φ e f := by
  have hsymm : Std.Symm fun e f => KeepsPlace φ e f ∧ KeepsPlace φ f e := ⟨fun _ _ hab => hab.symm⟩
  exact (List.Pairwise.forall h he hf hne).1

/-- The spans of a batch are told apart as before. -/
theorem AllKeepPlace.span_eq_iff (h : AllKeepPlace φ edits) {e f : Edit} (he : e ∈ edits)
    (hf : f ∈ edits) : (e.mapPos φ).span = (f.mapPos φ).span ↔ e.span = f.span := by
  constructor
  · intro hspan
    by_cases hne : e = f
    · rw [hne]
    · exact (h.of_ne he hf hne).span_eq hspan
  · intro hspan
    rw [Edit.span_eq_iff] at hspan
    simp [mapPos, span, hspan]

theorem AllKeepPlace.filter_span (h : AllKeepPlace φ edits) {i : Edit} (hi : i ∈ edits) :
    (edits.map (mapPos φ)).filter (fun o => o.span = (i.mapPos φ).span)
      = (edits.filter fun o => o.span = i.span).map (mapPos φ) := by
  rw [List.filter_map]
  refine congrArg _ (List.filter_congr fun o ho => ?_)
  exact decide_eq_decide.mpr (h.span_eq_iff ho hi)

/-- A replacement that comes to replace nothing is the only one of its
span: the second one would be left, too. -/
theorem AllKeepPlace.filter_span_eq_singleton (h : AllKeepPlace φ edits) {i : Edit} (hi : i ∈ edits)
    (hproper : i.start < i.stop) (hpoint : φ i.start = φ i.stop) :
    edits.filter (fun o => o.span = i.span) = [i] := by
  have hmem : i ∈ edits.filter fun o => o.span = i.span := by simp [hi]
  have hspan : ∀ o ∈ edits.filter (fun o => o.span = i.span), o.start = i.start ∧ o.stop = i.stop :=
    fun o ho => Edit.span_eq_iff.mp (by simpa using (List.mem_filter.mp ho).2)
  have hpair := List.Pairwise.filter (fun o => decide (o.span = i.span)) h
  generalize edits.filter (fun o => o.span = i.span) = same at hmem hspan hpair
  match same with
  | [] => cases hmem
  | [x] => rw [List.mem_singleton.mp hmem]
  | x :: y :: rest =>
      obtain ⟨hx, hx'⟩ := hspan x (by simp)
      obtain ⟨hy, hy'⟩ := hspan y (by simp)
      have hcov := ((List.pairwise_cons.mp hpair).1 y (by simp)).1.covers_eq
      have hcovered : x.covers y = true := by
        rw [covers_iff, isInsertion_eq_false_iff, isInsertion_eq_false_iff]
        omega
      have hnot : (x.mapPos φ).covers (y.mapPos φ) = false := by
        simp [covers, isInsertion, mapPos, hx, hx', hpoint]
      rw [hcovered, hnot] at hcov
      cases hcov

/-- The same text is left for each span. -/
theorem AllKeepPlace.textLeft_eq (h : AllKeepPlace φ edits) (hproper : ∀ e ∈ edits, e.start ≤ e.stop)
    {i : Edit} (hi : i ∈ edits) :
    textLeft ((edits.map (mapPos φ)).filter fun o => o.span = (i.mapPos φ).span)
        (i.mapPos φ).isInsertion
      = textLeft (edits.filter fun o => o.span = i.span) i.isInsertion := by
  rw [h.filter_span hi]
  have htexts : ∀ (same : List Edit) (inserts : Bool),
      textLeft (same.map (mapPos φ)) inserts = textLeft same inserts := by
    intro same inserts
    simp [textLeft, Function.comp_def, mapPos]
  rw [htexts]
  by_cases hpoint : i.isInsertion = true
  · have hstays : (i.mapPos φ).isInsertion = true := by
      rw [isInsertion_iff] at hpoint ⊢
      exact congrArg φ hpoint
    rw [hpoint, hstays]
  · by_cases hbecomes : (i.mapPos φ).isInsertion = true
    · -- What becomes an insertion is alone, and joined with nothing.
      rw [Bool.not_eq_true, isInsertion_eq_false_iff] at hpoint
      have hle := hproper i hi
      rw [h.filter_span_eq_singleton hi (by omega) (isInsertion_iff.mp hbecomes)]
      simp [textLeft, String.join]
    · rw [Bool.not_eq_true] at hpoint hbecomes
      rw [hpoint, hbecomes]

/-- What is left of the moved batch is what is left of the batch, moved. -/
theorem AllKeepPlace.survives_iff (h : AllKeepPlace φ edits)
    (hproper : ∀ e ∈ edits, e.start ≤ e.stop) {x : Edit} :
    Survives (edits.map (mapPos φ)) x ↔ ∃ e, Survives edits e ∧ e.mapPos φ = x := by
  -- Whether another edit covers one does not depend on the move, as all keep their places.
  have hfree : ∀ i ∈ edits, (∀ o ∈ edits.map (mapPos φ), o.covers (i.mapPos φ) = true →
        o.span = (i.mapPos φ).span) ↔ ∀ o ∈ edits, o.covers i = true → o.span = i.span := by
    intro i hi
    rw [List.forall_mem_map]
    refine forall₂_congr fun o ho => ?_
    by_cases hne : o = i
    · simp [hne]
    · rw [(h.of_ne ho hi hne).covers_eq, h.span_eq_iff ho hi]
  rw [survives_iff_exists]
  constructor
  · rintro ⟨_, hmoved, hspan, hall, htext⟩
    obtain ⟨i, hi, rfl⟩ := List.mem_map.mp hmoved
    rw [h.textLeft_eq hproper hi] at htext
    refine ⟨{ i with replacement := x.replacement }, ?_, ?_⟩
    · exact survives_iff_exists.mpr ⟨i, hi, rfl, (hfree i hi).mp hall, htext⟩
    · exact eq_iff_span_replacement.mpr ⟨hspan.symm, rfl⟩
  · -- What is left of the batch was made for one of its edits, and the moved edit is left.
    rintro ⟨e, he, rfl⟩
    obtain ⟨i, hi, hspan, hall, htext⟩ := survives_iff_exists.mp he
    refine ⟨i.mapPos φ, List.mem_map_of_mem hi, ?_, (hfree i hi).mpr hall, ?_⟩
    · rw [Edit.span_eq_iff] at hspan
      simp [mapPos, span, hspan]
    · rw [h.textLeft_eq hproper hi]
      exact htext

/-- What is left stays in the order of application. -/
theorem AllKeepPlace.precedes (h : AllKeepPlace φ edits) (hmono : Monotone φ)
    (hproper : ∀ e ∈ edits, e.start ≤ e.stop) {a b : Edit} (ha : Survives edits a)
    (hb : Survives edits b) (hab : precedes a b) : precedes (a.mapPos φ) (b.mapPos φ) := by
  obtain ⟨i, hi, hai, hfree, -⟩ := survives_iff_exists.mp ha
  obtain ⟨j, hj, hbj⟩ := hb.exists_span_eq
  have hne : (i.mapPos φ).span ≠ (j.mapPos φ).span := by
    rw [ne_eq, h.span_eq_iff hi hj, ← hai, hbj, Edit.span_eq_iff]
    unfold Edit.precedes at hab
    omega
  rw [Edit.span_eq_iff] at hai hbj
  have hiproper := hproper i hi
  -- Were the order turned round, `b` would lie strictly around `a`.
  have hinside : φ b.start = φ a.start → φ b.stop < φ a.stop ∨ φ b.stop = φ a.stop := by
    intro hstart
    by_contra hnot
    have hstop : a.stop < b.stop := by
      by_contra hle
      have hmoved := hmono (Nat.le_of_not_lt hle)
      omega
    unfold Edit.precedes at hab
    have hcov : j.covers i = true := by
      rw [covers_iff, isInsertion_eq_false_iff, isInsertion_eq_false_iff, isInsertion_iff]
      omega
    have hsame := Edit.span_eq_iff.mp (hfree j hj hcov)
    omega
  have hstart : φ b.start ≤ φ a.start := hmono (by unfold Edit.precedes at hab; omega)
  rw [ne_eq, Edit.span_eq_iff] at hne
  simp only [mapPos, ← hai.1, ← hai.2, hbj.1, hbj.2] at hne
  simp only [Edit.precedes, mapPos]
  omega

/-- The merge of a moved batch is the merge of the batch, moved. -/
theorem keptOf_mapPos (hmono : Monotone φ) (hproper : ∀ e ∈ edits, e.start ≤ e.stop)
    (h : AllKeepPlace φ edits) : keptOf (edits.map (mapPos φ)) = (keptOf edits).map (mapPos φ) := by
  have hmerge : IsMerge edits (keptOf edits) := isMerge_mergeSort_foldl hproper
  have hmoved : IsMerge (edits.map (mapPos φ)) (keptOf (edits.map (mapPos φ))) := by
    refine isMerge_mergeSort_foldl fun e he => ?_
    obtain ⟨a, ha, rfl⟩ := List.mem_map.mp he
    exact hmono (hproper a ha)
  refine hmoved.unique ⟨?_, fun x => ?_⟩
  · rw [List.pairwise_map]
    exact hmerge.ordered.imp_of_mem fun ha hb hab =>
      h.precedes hmono hproper ((hmerge.mem_iff _).mp ha) ((hmerge.mem_iff _).mp hb) hab
  · rw [h.survives_iff hproper, List.mem_map]
    exact exists_congr fun e => and_congr_left' (hmerge.mem_iff e)

end MapPos

/-! ### The line breaks that are taken -/

section Clamped

variable {text : String} {edits : List Edit}

theorem clampPos_eq_floorPos (text : String) : clampPos text = floorPos text.toList := by
  funext pos
  rw [clampPos, size, floorPos_min_byteSize]

theorem clamped_eq_mapPos (text : String) : clamped text = mapPos (floorPos text.toList) := by
  rw [clamped, clampPos_eq_floorPos]

theorem monotone_floorPos (cs : List Char) : Monotone (floorPos cs) :=
  fun _ _ h => floorPos_mono cs h

/-- An edit between characters of the text stays as it is. -/
theorem clamped_of_boundaries {e : Edit} (hstart : isBoundary text e.start = true)
    (hstop : isBoundary text e.stop = true) : e.clamped text = e := by
  rw [clamped_eq_mapPos, mapPos, floorPos_of_isBoundary hstart, floorPos_of_isBoundary hstop]

theorem isBoundary_of_atLineStart {pos : Nat} (h : atLineStart text pos = true) :
    isBoundary text pos = true := by
  rw [atLineStart, Bool.or_eq_true, decide_eq_true_eq] at h
  rcases Nat.eq_zero_or_pos pos with rfl | hpos
  · exact isBoundary_iff.mpr ⟨[], text.toList, rfl, rfl⟩
  · have hsucc := isBoundary_succ_of_hasCharAt (by decide) (h.resolve_left (by omega))
    rwa [Nat.sub_add_cancel hpos] at hsucc

/-- A removed line lies between characters of the text, so it stays as it
is. -/
theorem clamped_of_emptiesLine {e : Edit} (h : e.emptiesLine text = true) : e.clamped text = e := by
  obtain ⟨-, -, hline, hbreak⟩ := of_emptiesLine h
  exact clamped_of_boundaries (isBoundary_of_atLineStart hline) (isBoundary_of_hasCharAt hbreak)

/-- The line break of a clamped edit is taken if that of the edit is. -/
theorem withLineBreak_clamped {kept : List Edit} {k : Edit}
    (h : (k.clamped text).emptiesLine text = k.emptiesLine text) :
    (k.clamped text).withLineBreak text (kept.map (clamped text))
      = (k.withLineBreak text kept).clamped text := by
  cases hempties : k.emptiesLine text with
  | false => simp [withLineBreak, h, hempties]
  | true =>
      obtain ⟨-, -, hline, hbreak⟩ := of_emptiesLine hempties
      have hself := clamped_of_emptiesLine hempties
      -- An edit is moved to the line break only if it starts there.
      have hblocked : (kept.map (clamped text)).any (fun o => o.start = k.stop)
          = kept.any fun o => o.start = k.stop := by
        rw [List.any_map, clamped_eq_mapPos]
        congr 1
        funext o
        exact decide_eq_decide.mpr (floorPos_eq_iff_of_hasCharAt hbreak)
      rw [hself, withLineBreak, withLineBreak, hblocked]
      split
      · have hextended : ({ k with stop := k.stop + 1 } : Edit).clamped text
            = { k with stop := k.stop + 1 } :=
          clamped_of_boundaries (isBoundary_of_atLineStart hline)
            (isBoundary_succ_of_hasCharAt (by decide) hbreak)
        exact hextended.symm
      · exact hself.symm

/-- The merge of a clamped batch is the merge of the batch, clamped, unless
another edit empties a line. -/
theorem mergeEdits_clamped (hproper : ∀ e ∈ edits, e.start ≤ e.stop)
    (hkeeps : AllKeepPlace (floorPos text.toList) edits)
    (hempties : ∀ e ∈ edits, (e.clamped text).emptiesLine text = true → e.emptiesLine text = true) :
    mergeEdits text (edits.map (clamped text)) = (mergeEdits text edits).map (clamped text) := by
  have hmerge : IsMerge edits (keptOf edits) := isMerge_mergeSort_foldl hproper
  have hkept : keptOf (edits.map (clamped text)) = (keptOf edits).map (clamped text) := by
    rw [clamped_eq_mapPos]
    exact keptOf_mapPos (monotone_floorPos _) hproper hkeeps
  rw [mergeEdits_eq_map, mergeEdits_eq_map, hkept, List.map_map, List.map_map]
  refine List.map_congr_left fun k hk => withLineBreak_clamped ?_
  rw [Bool.eq_iff_iff]
  constructor
  · intro hclamped
    -- It replaces something, so it is an edit of the batch.
    have hlt := (of_emptiesLine hclamped).2.1
    have hnot : k.isInsertion = false := by
      rw [isInsertion_eq_false_iff]
      intro hpoint
      rw [clamped_eq_mapPos, mapPos, hpoint] at hlt
      exact absurd hlt (Nat.lt_irrefl _)
    have hfirst := ((survives_iff_of_replacement hnot).mp ((hmerge.mem_iff k).mp hk)).1
    exact hempties k (List.mem_of_find?_eq_some hfirst) hclamped
  · intro hempty
    rwa [clamped_of_emptiesLine hempty]

/-! ### The pass over the text -/

/-- An edit in the front of a text leaves the rest of it. -/
theorem carryOut_append {as bs : List Char} {e : Edit} (hproper : e.start ≤ e.stop)
    (hinside : e.stop ≤ byteSize as) : carryOut (as ++ bs) e = carryOut as e ++ bs := by
  rw [carryOut, carryOut, Nat.min_eq_left hproper, cutBefore_append_left (by omega),
    cutBefore_append_left hinside, List.append_assoc _ _ bs]

/-- A text is edited between the characters around the positions. -/
theorem carryOut_mapPos (cs : List Char) {e : Edit} (hproper : e.start ≤ e.stop) :
    carryOut cs (e.mapPos (floorPos cs)) = carryOut cs e := by
  have hmoved : floorPos cs e.start ≤ floorPos cs e.stop := floorPos_mono cs hproper
  rw [carryOut, carryOut, Nat.min_eq_left hproper]
  simp only [mapPos, Nat.min_eq_left hmoved, cutBefore_floorPos]

/-- While the text in front is the original one, the edits there may be
clamped. -/
theorem foldl_carryOut_mapPos {cs : List Char} (merged : List Edit) :
    ∀ pre post done : List Char, cs = pre ++ post →
      (∀ e ∈ merged, e.start ≤ e.stop ∧ e.stop ≤ byteSize pre) →
      merged.Pairwise (fun a b => b.stop ≤ floorPos cs a.start) →
      (merged.map (mapPos (floorPos cs))).foldl carryOut (pre ++ done)
        = merged.foldl carryOut (pre ++ done) := by
  induction merged with
  | nil => exact fun pre post done _ _ _ => rfl
  | cons e rest ih =>
      intro pre post done hcs hinside hchain
      obtain ⟨⟨hproper, hstop⟩, hrest⟩ := List.forall_mem_cons.mp hinside
      obtain ⟨hnext, hchain⟩ := List.pairwise_cons.mp hchain
      have hfloor : ∀ n ≤ byteSize pre, floorPos cs n = floorPos pre n := by
        intro n hn
        rw [hcs, floorPos_append_left hn]
      have hstart : e.start ≤ byteSize pre := by omega
      -- The first edit cuts the text in front, which it has in common with the original one.
      have hsame : carryOut (pre ++ done) (e.mapPos (floorPos cs)) = carryOut (pre ++ done) e := by
        have hmoved : e.mapPos (floorPos cs) = e.mapPos (floorPos pre) := by
          rw [mapPos, mapPos, hfloor _ hstart, hfloor _ hstop]
        rw [hmoved, carryOut_append (floorPos_mono pre hproper) (floorPos_le_byteSize pre _),
          carryOut_mapPos pre hproper, carryOut_append hproper hstop]
      have hcut : carryOut (pre ++ done) e = (cutBefore pre e.start).1
          ++ (e.replacement.toList ++ (cutBefore pre e.stop).2 ++ done) := by
        rw [carryOut_append hproper hstop, carryOut, Nat.min_eq_left hproper]
        simp only [List.append_assoc]
      rw [List.map_cons, List.foldl_cons, List.foldl_cons, hsame, hcut]
      refine ih _ ((cutBefore pre e.start).2 ++ post) _ ?_ (fun a ha => ⟨(hrest a ha).1, ?_⟩) hchain
      · rw [← List.append_assoc, cutBefore_fst_append_snd, hcs]
      · have hle := hnext a ha
        rwa [hfloor _ hstart] at hle

/-- The edits of a merged batch may be clamped beforehand, if each ends in
front of where the start of those applied before it is moved to. -/
theorem splice_clamped {merged : List Edit} (hproper : ∀ e ∈ merged, e.start ≤ e.stop)
    (hchain : merged.Pairwise fun a b => b.stop ≤ floorPos text.toList a.start) :
    splice text (merged.map (clamped text)) = splice text merged := by
  rw [splice, splice, clamped_eq_mapPos]
  cases merged with
  | nil => rfl
  | cons e rest =>
      -- The first edit may reach past the end; the others lie in front of its start.
      obtain ⟨hfirst, hproper⟩ := List.forall_mem_cons.mp hproper
      obtain ⟨hnext, hchain⟩ := List.pairwise_cons.mp hchain
      have hcut : carryOut text.toList e = (cutBefore text.toList e.start).1
          ++ (e.replacement.toList ++ (cutBefore text.toList e.stop).2) := by
        rw [carryOut, Nat.min_eq_left hfirst, List.append_assoc]
      rw [List.map_cons, List.foldl_cons, List.foldl_cons, carryOut_mapPos _ hfirst, hcut,
        foldl_carryOut_mapPos rest _ _ _ (cutBefore_fst_append_snd text.toList e.start).symm
          (fun a ha => ⟨hproper a ha, hnext a ha⟩) hchain]

/-- A merged batch of edits with their ends in order has only such edits. -/
theorem start_le_stop_of_mem_mergeEdits (text : String) (hproper : ∀ e ∈ edits, e.start ≤ e.stop) :
    ∀ e ∈ mergeEdits text edits, e.start ≤ e.stop := by
  have hmerge : IsMerge edits (keptOf edits) := isMerge_mergeSort_foldl hproper
  rw [mergeEdits_eq_map, List.forall_mem_map]
  intro k hk
  obtain ⟨a, ha, hspan⟩ := ((hmerge.mem_iff k).mp hk).exists_span_eq
  have hle := hproper a ha
  rw [span_eq_iff] at hspan
  rcases withLineBreak_cases text (keptOf edits) k with hsame | ⟨-, hmore⟩
  · rw [hsame]
    omega
  · rw [hmore]
    show k.start ≤ k.stop + 1
    omega

/-- The edits of an accepted batch end in front of where the start of those
applied before is moved to. -/
theorem pairwise_stop_le_floorPos (hproper : ∀ e ∈ edits, e.start ≤ e.stop)
    (hkeeps : AllKeepPlace (floorPos text.toList) edits)
    (hclear : (mergeEdits text edits).Pairwise fun a b => b.stop ≤ a.start) :
    (mergeEdits text edits).Pairwise fun a b => b.stop ≤ floorPos text.toList a.start := by
  have hmerge : IsMerge edits (keptOf edits) := isMerge_mergeSort_foldl hproper
  rw [mergeEdits_eq_map, List.pairwise_map] at hclear ⊢
  refine (hclear.and hmerge.ordered).imp_of_mem fun {a b} ha hb hab => ?_
  obtain ⟨hle, hab⟩ := hab
  rw [start_withLineBreak] at hle ⊢
  obtain ⟨i, hi, hia⟩ := ((hmerge.mem_iff a).mp ha).exists_span_eq
  obtain ⟨j, hj, hjb⟩ := ((hmerge.mem_iff b).mp hb).exists_span_eq
  unfold withLineBreak at hle ⊢
  split at hle
  · -- Behind the line break there is a position between characters.
    rename_i htaken
    obtain ⟨-, -, -, hbreak⟩ := of_emptiesLine (Bool.and_eq_true_iff.mp htaken).1
    have hsucc := isBoundary_succ_of_hasCharAt (by decide) hbreak
    obtain ⟨before, after, htext, hbefore⟩ := isBoundary_iff.mp hsucc
    rw [if_pos htaken]
    show b.stop + 1 ≤ floorPos text.toList a.start
    rw [← hbefore] at hle ⊢
    exact le_floorPos htext hle
  · rename_i hnot
    rw [if_neg hnot]
    rw [span_eq_iff] at hia hjb
    have hspan : j.span ≠ i.span := by
      rw [ne_eq, span_eq_iff]
      unfold precedes at hab
      omega
    have hne : j ≠ i := fun heq => hspan (by rw [heq])
    have hmoved := (hkeeps.of_ne hj hi hne).clear (by omega)
    rw [hia.1, hjb.2, or_iff_right hspan] at hmoved
    exact hmoved

end Clamped

end Edit

open Edit

/-- A batch that is accepted is accepted with all positions clamped
beforehand, and comes to the same text, if its edits keep their places and
none comes to empty a line that did not before: of any two edits, the spans
stay different if they were, the one makes the other superfluous if it did,
and the one that ends in front of the start of the other ends in front of
where that start is moved to. -/
theorem applyEditsChecked_clamped (text : String) (edits : List Edit) (out : String)
    (hproper : ∀ e ∈ edits, e.start ≤ e.stop) (hkeeps : AllKeepPlace (clampPos text) edits)
    (hempties : ∀ e ∈ edits, (e.clamped text).emptiesLine text = true → e.emptiesLine text = true)
    (h : applyEditsChecked text edits = .ok out) :
    applyEditsChecked text (edits.map (clamped text)) = .ok out := by
  rw [clampPos_eq_floorPos] at hkeeps
  obtain ⟨hnone, hout⟩ := applyEditsChecked_eq_ok_iff.mp h
  have hmerged := start_le_stop_of_mem_mergeEdits text hproper
  have hclear := pairwise_of_findConflict?_eq_none hnone hmerged
  rw [applyEditsChecked_eq_ok_iff, mergeEdits_clamped hproper hkeeps hempties]
  constructor
  · -- Positions that follow one another do so when they are moved.
    refine findConflict?_eq_none ?_
    rw [List.pairwise_map, clamped_eq_mapPos]
    exact hclear.imp fun hle => floorPos_mono text.toList hle
  · rw [splice_clamped hmerged (pairwise_stop_le_floorPos hproper hkeeps hclear), hout]

/-- Two texts put in past the end, a removed line in front of them, and an
edit that starts inside a letter. -/
theorem applyEditsChecked_clamped_farOut :
    let text := "aé\nb\n"
    let edits : List Edit := [insert 99 "!", insert 99 "?", delete 4 5, ⟨2, 3, "E"⟩, insert 0 "<"]
    (∀ e ∈ edits, e.start ≤ e.stop) ∧ AllKeepPlace (clampPos text) edits ∧
      (∀ e ∈ edits, (e.clamped text).emptiesLine text = true → e.emptiesLine text = true) ∧
      applyEditsChecked text edits = .ok "<aE\n!?" ∧
      edits.map (clamped text)
        = [insert 6 "!", insert 6 "?", delete 4 5, ⟨1, 3, "E"⟩, insert 0 "<"] ∧
      applyEditsChecked text (edits.map (clamped text)) = .ok "<aE\n!?" := by
  intro text edits
  have hproper : ∀ e ∈ edits, e.start ≤ e.stop := by decide
  have hkeeps : AllKeepPlace (clampPos text) edits := by decide +kernel
  have hempties : ∀ e ∈ edits, (e.clamped text).emptiesLine text = true →
      e.emptiesLine text = true := by
    simp only [edits, List.forall_mem_cons]
    decide +kernel
  have hok : applyEditsChecked text edits = .ok "<aE\n!?" := by
    rw [applyEditsChecked_eq_ok_iff, mergeEdits_eq_map, keptOf_of_sorted (by decide)]
    decide +kernel
  exact ⟨hproper, hkeeps, hempties, hok, by decide +kernel,
    applyEditsChecked_clamped text edits _ hproper hkeeps hempties hok⟩

/-- Batches that come to another text when their positions are clamped
beforehand: two insertions come to one point, an insertion comes to the end of
the edit around it, an edit that ends inside a letter cuts what has taken the
place of that letter, and a line comes to be emptied. -/
theorem applyEditsChecked_clamped_differs :
    (applyEditsChecked "é" [insert 1 "y", insert 0 "x"] = .ok "xyé" ∧
      applyEditsChecked "é" ([insert 1 "y", insert 0 "x"].map (clamped "é")) = .ok "yxé") ∧
    (applyEditsChecked "ab" [insert 30 "q", ⟨1, 50, "Z"⟩] = .ok "aZ" ∧
      applyEditsChecked "ab" ([insert 30 "q", ⟨1, 50, "Z"⟩].map (clamped "ab")) = .ok "aZq") ∧
    (applyEditsChecked "aé" [⟨2, 3, "B"⟩, ⟨0, 2, "A"⟩] = .ok "A" ∧
      applyEditsChecked "aé" ([⟨2, 3, "B"⟩, ⟨0, 2, "A"⟩].map (clamped "aé")) = .ok "AB") ∧
    (applyEditsChecked "é\n" [delete 1 2] = .ok "\n" ∧
      applyEditsChecked "é\n" ([delete 1 2].map (clamped "é\n")) = .ok "") := by
  have hpoint : [insert 1 "y", insert 0 "x"].map (clamped "é") = [insert 0 "y", insert 0 "x"] := by
    decide +kernel
  have haround : [insert 30 "q", ⟨1, 50, "Z"⟩].map (clamped "ab")
      = [insert 2 "q", ⟨1, 2, "Z"⟩] := by
    decide +kernel
  have htouch : [⟨2, 3, "B"⟩, ⟨0, 2, "A"⟩].map (clamped "aé") = [⟨1, 3, "B"⟩, ⟨0, 1, "A"⟩] := by
    decide +kernel
  have hline : [delete 1 2].map (clamped "é\n") = [delete 0 2] := by decide +kernel
  simp only [hpoint, haround, htouch, hline, applyEditsChecked_eq_ok_iff, mergeEdits_eq_map]
  simp (disch := decide) only [keptOf_of_sorted]
  decide +kernel

end ScriptRefactor
