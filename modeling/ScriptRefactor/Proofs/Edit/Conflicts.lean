import Mathlib.Data.Nat.Find
import ScriptRefactor.Edit.Apply
import ScriptRefactor.Proofs.Edit.Merge

/-!
# `ScriptRefactor.Proofs.Edit.Conflicts`: which batches are refused

Only neighbours of a merged batch are compared, but no overlap is missed,
whatever the spans of the batch: the starts of the edits that are kept go
down (`pairwise_start_keptOf`), so an edit that reaches past the start of one
applied earlier reaches past that of its own neighbour, too
(`overlapAt_pred`).

Neither does it matter that the deletions of emptied lines have been extended
before (`overlapAt_mergeEdits_iff`): a line break is taken only where no edit
starts in front of it.
-/

set_option autoImplicit false

namespace ScriptRefactor

namespace Edit

/-! ### What is kept -/

/-- What is kept of a batch, in the order of application, before any line
break is taken. -/
def keptOf (edits : List Edit) : List Edit :=
  ((edits.mergeSort appliesBefore).foldl keep []).reverse

theorem mergeEdits_eq_map (text : String) (edits : List Edit) :
    mergeEdits text edits = (keptOf edits).map (withLineBreak text (keptOf edits)) := rfl

/-- A batch that is in the order of application is not sorted. -/
theorem keptOf_of_sorted {edits : List Edit}
    (h : edits.Pairwise fun a b => a.appliesBefore b = true) :
    keptOf edits = (edits.foldl keep []).reverse := by
  rw [keptOf, List.mergeSort_of_pairwise h]

@[simp] theorem start_withLineBreak (text : String) (batch : List Edit) (e : Edit) :
    (e.withLineBreak text batch).start = e.start := by
  rcases withLineBreak_cases text batch e with h | ⟨-, h⟩ <;> rw [h]

/-- One more edit puts at most its own start in front of those kept. -/
theorem map_start_keep_sublist (kept : List Edit) (e : Edit) :
    ((keep kept e).map start).Sublist (e.start :: kept.map start) := by
  -- Unless it joins the last edit, it is dropped, or it may drop others.
  have htaken : ((if kept.any (·.covers e) then kept
      else e :: kept.filter fun k => !(e.covers k)).map start).Sublist
        (e.start :: kept.map start) := by
    split
    · exact (List.Sublist.refl _).cons _
    · exact (List.filter_sublist.map start).cons_cons _
  cases kept with
  | nil => exact htaken
  | cons last before =>
      rw [keep]
      split
      · exact (List.Sublist.refl _).cons _
      · exact htaken

/-- A pass puts at most the starts of the edits taken in front of those
kept. -/
theorem map_start_foldl_keep_sublist (rest : List Edit) :
    ∀ kept : List Edit,
      ((rest.foldl keep kept).map start).Sublist (rest.reverse.map start ++ kept.map start) := by
  induction rest with
  | nil => exact fun kept => List.Sublist.refl _
  | cons e rest ih =>
      intro kept
      have hstep := (ih (keep kept e)).trans
        ((map_start_keep_sublist kept e).append_left (rest.reverse.map start))
      simpa using hstep

/-- No edit that is kept starts behind one applied before it. -/
theorem pairwise_start_keptOf (edits : List Edit) :
    (keptOf edits).Pairwise fun a b => b.start ≤ a.start := by
  have hsorted : (edits.mergeSort appliesBefore).Pairwise fun a b => b.start ≤ a.start :=
    (List.pairwise_mergeSort appliesBefore_trans appliesBefore_total edits).imp fun h => by
      rw [appliesBefore_iff] at h
      omega
  have hstarts : ((edits.mergeSort appliesBefore).reverse.map start).Pairwise (· ≤ ·) := by
    rw [List.pairwise_map, List.pairwise_reverse]
    exact hsorted
  have hsub := map_start_foldl_keep_sublist (edits.mergeSort appliesBefore) []
  rw [List.map_nil, List.append_nil] at hsub
  rw [keptOf, List.pairwise_reverse]
  exact List.pairwise_map.mp (hstarts.sublist hsub)

theorem pairwise_start_mergeEdits (text : String) (edits : List Edit) :
    (mergeEdits text edits).Pairwise fun a b => b.start ≤ a.start := by
  rw [mergeEdits_eq_map, List.pairwise_map]
  simpa only [start_withLineBreak] using pairwise_start_keptOf edits

/-! ### Overlaps -/

/-- The second edit reaches past the start of the first one. -/
def OverlapAt (merged : List Edit) (i j : Nat) : Prop :=
  ∃ a b, merged[i]? = some a ∧ merged[j]? = some b ∧ a.start < b.stop

/-- An edit that reaches past the start of one applied earlier reaches past
the start of the one applied just before it. -/
theorem overlapAt_pred {merged : List Edit} (h : merged.Pairwise fun a b => b.start ≤ a.start)
    {i m : Nat} (him : i ≤ m) (hover : OverlapAt merged i (m + 1)) : OverlapAt merged m (m + 1) := by
  obtain ⟨a, b, ha, hb, hlt⟩ := hover
  obtain ⟨hlast, rfl⟩ := List.getElem?_eq_some_iff.mp hb
  obtain ⟨hi, rfl⟩ := List.getElem?_eq_some_iff.mp ha
  have hm : m < merged.length := by omega
  refine ⟨merged[m], _, List.getElem?_eq_getElem hm, hb, ?_⟩
  rcases Nat.lt_or_eq_of_le him with hlt' | rfl
  · have hstart := List.pairwise_iff_getElem.mp h i m hi hm hlt'
    omega
  · exact hlt

/-- A line break that is taken makes no overlap and hides none. -/
theorem overlapAt_mergeEdits_iff (text : String) (edits : List Edit) (i j : Nat) :
    OverlapAt (mergeEdits text edits) i j ↔ OverlapAt (keptOf edits) i j := by
  -- An extended deletion ends where none of the edits kept starts.
  have hreach : ∀ a ∈ keptOf edits, ∀ b : Edit,
      a.start < (b.withLineBreak text (keptOf edits)).stop ↔ a.start < b.stop := by
    intro a ha b
    unfold withLineBreak
    split
    · rename_i htaken
      have hnone : ∀ k ∈ keptOf edits, k.start ≠ b.stop := by
        simpa using (Bool.and_eq_true_iff.mp htaken).2
      have hne := hnone a ha
      show a.start < b.stop + 1 ↔ _
      omega
    · rfl
  simp only [OverlapAt, mergeEdits_eq_map, List.getElem?_map, Option.map_eq_some_iff]
  constructor
  · rintro ⟨_, _, ⟨a, ha, rfl⟩, ⟨b, hb, rfl⟩, hlt⟩
    rw [start_withLineBreak, hreach a (List.mem_of_getElem? ha)] at hlt
    exact ⟨a, b, ha, hb, hlt⟩
  · rintro ⟨a, b, ha, hb, hlt⟩
    refine ⟨_, _, ⟨a, ha, rfl⟩, ⟨b, hb, rfl⟩, ?_⟩
    rwa [start_withLineBreak, hreach a (List.mem_of_getElem? ha)]

/-- The conflict that is found is the first one between neighbours. -/
theorem findConflict?_eq_some_iff {merged : List Edit} {a b : Edit} :
    findConflict? merged = some (a, b) ↔
      ∃ i, merged[i]? = some a ∧ merged[i + 1]? = some b ∧ a.start < b.stop ∧
        ∀ m < i, ¬ OverlapAt merged m (m + 1) := by
  induction merged with
  | nil => simp [findConflict?]
  | cons x rest ih =>
      cases rest with
      | nil => simp [findConflict?]
      | cons y rest =>
          rw [findConflict?]
          split
          · rename_i hxy
            have hfirst : OverlapAt (x :: y :: rest) 0 1 := ⟨x, y, rfl, rfl, hxy⟩
            rw [Option.some.injEq, Prod.mk.injEq]
            constructor
            · rintro ⟨rfl, rfl⟩
              exact ⟨0, rfl, rfl, hxy, fun m hm => absurd hm m.not_lt_zero⟩
            · rintro ⟨i, ha, hb, -, hnone⟩
              cases i with
              | zero => exact ⟨Option.some.inj ha, Option.some.inj hb⟩
              | succ i => exact absurd hfirst (hnone 0 i.succ_pos)
          · rename_i hxy
            have hnot : ¬ OverlapAt (x :: y :: rest) 0 1 := by
              rintro ⟨_, _, ha, hb, hlt⟩
              cases ha
              cases hb
              exact hxy hlt
            rw [ih]
            -- The first two are clear of each other, so the places move by one.
            constructor
            · rintro ⟨i, ha, hb, hlt, hnone⟩
              refine ⟨i + 1, ha, hb, hlt, fun m hm => ?_⟩
              cases m with
              | zero => exact hnot
              | succ m => exact hnone m (Nat.lt_of_succ_lt_succ hm)
            · rintro ⟨i, ha, hb, hlt, hnone⟩
              cases i with
              | zero => exact absurd ⟨a, b, ha, hb, hlt⟩ hnot
              | succ i => exact ⟨i, ha, hb, hlt, fun m hm => hnone (m + 1) (Nat.succ_lt_succ hm)⟩

/-- Where the starts go down, a conflict is found exactly if two of the edits
overlap, at whatever distance. -/
theorem findConflict?_isSome_iff {merged : List Edit}
    (h : merged.Pairwise fun a b => b.start ≤ a.start) :
    (findConflict? merged).isSome = true ↔ ∃ i j, i < j ∧ OverlapAt merged i j := by
  constructor
  · intro hsome
    obtain ⟨⟨a, b⟩, hfound⟩ := Option.isSome_iff_exists.mp hsome
    obtain ⟨i, ha, hb, hlt, -⟩ := findConflict?_eq_some_iff.mp hfound
    exact ⟨i, i + 1, i.lt_succ_self, a, b, ha, hb, hlt⟩
  · rintro ⟨i, j, hij, hover⟩
    obtain ⟨m, rfl⟩ := Nat.exists_eq_succ_of_ne_zero (Nat.ne_zero_of_lt hij)
    -- Of all neighbours that overlap, the first ones.
    classical
    have hex : ∃ n, OverlapAt merged n (n + 1) := ⟨m, overlapAt_pred h (Nat.le_of_lt_succ hij) hover⟩
    obtain ⟨a, b, ha, hb, hlt⟩ := Nat.find_spec hex
    rw [findConflict?_eq_some_iff.mpr ⟨_, ha, hb, hlt, fun n hn => Nat.find_min hex hn⟩]
    rfl

end Edit

open Edit

/-- A batch is refused exactly if one of its merged edits reaches past the
start of one applied earlier, at whatever distance, and the conflict reported
is the one between the first neighbours of which this holds. It is the same
for the merged edits as they were before any line break was taken. The spans
of the batch may lie anywhere, and end before they start. -/
theorem applyEditsChecked_error_iff (text : String) (edits : List Edit) :
    (∀ c, applyEditsChecked text edits = .error c ↔
      ∃ i a b, (mergeEdits text edits)[i]? = some a ∧ (mergeEdits text edits)[i + 1]? = some b ∧
        a.start < b.stop ∧ c = ⟨a.span, b.span⟩ ∧
        ∀ m < i, ¬ OverlapAt (mergeEdits text edits) m (m + 1)) ∧
    ((∃ c, applyEditsChecked text edits = .error c) ↔
      ∃ i j, i < j ∧ OverlapAt (mergeEdits text edits) i j) ∧
    (∀ i j, OverlapAt (mergeEdits text edits) i j ↔ OverlapAt (keptOf edits) i j) := by
  have herror : ∀ c, applyEditsChecked text edits = .error c ↔
      conflictAmong? (mergeEdits text edits) = some c := by
    intro c
    rw [applyEditsChecked]
    split <;> simp [*]
  refine ⟨fun c => ?_, ?_, overlapAt_mergeEdits_iff text edits⟩
  · rw [herror, conflictAmong?, Option.map_eq_some_iff]
    constructor
    · rintro ⟨⟨a, b⟩, hfound, rfl⟩
      obtain ⟨i, ha, hb, hlt, hnone⟩ := findConflict?_eq_some_iff.mp hfound
      exact ⟨i, a, b, ha, hb, hlt, rfl, hnone⟩
    · rintro ⟨i, a, b, ha, hb, hlt, rfl, hnone⟩
      exact ⟨(a, b), findConflict?_eq_some_iff.mpr ⟨i, ha, hb, hlt, hnone⟩, rfl⟩
  · simp only [herror, conflictAmong?]
    rw [← findConflict?_isSome_iff (pairwise_start_mergeEdits text edits),
      ← Option.isSome_iff_exists, Option.isSome_map]

end ScriptRefactor
