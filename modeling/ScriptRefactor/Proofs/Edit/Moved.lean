import Mathlib.Algebra.GroupWithZero.Nat
import ScriptRefactor.Proofs.Edit.Apply
import ScriptRefactor.Proofs.Edit.Compatible

/-!
# `ScriptRefactor.Proofs.Edit.Moved`: where the parts of an edited text are

The edits of a batch that are carried out follow one another
(`CarriesOut`). A position that none of them cuts comes to lie further on
by what the edits in front of it add to the text (`movedPos`). What stands
between two such positions is found again between those they come to: as it
was if no edit touches it (`CarriesOut.slice?_of_clear`), and as what an
edit puts in if it is that which the edit replaces
(`CarriesOut.slice?_of_mem`).
-/

set_option autoImplicit false

namespace ScriptRefactor.Edit

open Syntax Text

variable {text out : String} {edits before after : List Edit} {e : Edit} {pos : Nat}

/-- Where a position comes to when the edits that stop there or in front of
it are carried out. -/
def movedPos (edits : List Edit) (pos : Nat) : Nat :=
  let front := edits.filter fun e => e.stop ≤ pos
  pos + (front.map fun e => Text.size e.replacement).sum
    - (front.map fun e => e.stop - e.start).sum

/-- Where a span comes to. -/
def movedSpan (edits : List Edit) (span : Span) : Span :=
  ⟨movedPos edits span.start, movedPos edits span.stop⟩

/-- A slice is cut out of a text. -/
theorem of_sliceChars? {cs gap : List Char} {i j : Nat} (h : sliceChars? cs i j = some gap) :
    ∃ front back, cs = front ++ gap ++ back ∧ byteSize front = i ∧ i + byteSize gap = j := by
  unfold sliceChars? at h
  split at h
  · cases h
  · rename_i hle
    obtain ⟨⟨front, rest⟩, hfront, h⟩ := Option.bind_eq_some_iff.mp h
    obtain ⟨⟨inside, back⟩, hinside, h⟩ := Option.bind_eq_some_iff.mp h
    cases h
    obtain ⟨rfl, hfrontSize⟩ := cutAt?_eq_some_iff.mp hfront
    obtain ⟨rfl, hsize⟩ := cutAt?_eq_some_iff.mp hinside
    exact ⟨front, back, by simp, hfrontSize, by omega⟩

/-- What stands between a position and the first edit stays. -/
theorem substitute_gap {front inside back cs : List Char}
    (hbehind : ∀ e ∈ edits, byteSize front + byteSize inside ≤ e.start)
    (h : substitute (front ++ inside ++ back) (byteSize front) edits = some cs) :
    ∃ tail, cs = inside ++ tail ∧
      substitute (front ++ inside ++ back) (byteSize front + byteSize inside) edits
        = some tail := by
  cases edits with
  | nil =>
      have hall := sliceChars?_append front (inside ++ back) []
      have hrest := sliceChars?_append (front ++ inside) back []
      rw [List.append_nil, byteSize_append, ← Nat.add_assoc, ← List.append_assoc] at hall
      rw [List.append_nil, byteSize_append] at hrest
      rw [substitute, byteSize_append, byteSize_append, hall] at h
      cases h
      exact ⟨back, rfl, by rw [substitute, byteSize_append, byteSize_append, hrest]⟩
  | cons e rest =>
      rw [substitute] at h
      obtain ⟨gap, hgap, h⟩ := Option.bind_eq_some_iff.mp h
      obtain ⟨tail, htail, h⟩ := Option.bind_eq_some_iff.mp h
      cases h
      -- The gap in front of the edit reaches over what stays.
      obtain ⟨front', back', hcs, hfront, hstart⟩ := of_sliceChars? hgap
      have hle := hbehind e (by simp)
      obtain ⟨gap', hmid, hback⟩ := exists_append_of_byteSize_le hcs
        (by rw [byteSize_append, byteSize_append]; omega)
      have hsizes := congrArg byteSize hmid
      simp only [byteSize_append] at hsizes
      have hlong := sliceChars?_append front (inside ++ gap') back'
      have hshort := sliceChars?_append (front ++ inside) gap' back'
      rw [← List.append_assoc, List.append_assoc _ gap', ← hback, byteSize_append, ← Nat.add_assoc]
        at hlong
      rw [List.append_assoc _ gap', ← hback, byteSize_append] at hshort
      have hend : byteSize front + byteSize inside + byteSize gap' = e.start := by omega
      rw [hend] at hlong hshort
      obtain rfl := Option.some.inj (hgap.symm.trans hlong)
      refine ⟨gap' ++ e.replacement.toList ++ tail, by simp, ?_⟩
      rw [substitute, hshort, htail]
      rfl

/-- What stands in front of all edits comes out first. -/
theorem substitute_skip {cs front inside back tail : List Char}
    (hcs : cs = front ++ inside ++ back) (hpos : byteSize (front ++ inside) = pos)
    (hbehind : ∀ e ∈ edits, pos ≤ e.start) (h : substitute cs pos edits = some tail) :
    substitute cs (byteSize front) edits = some (inside ++ tail) := by
  subst hcs hpos
  cases edits with
  | nil =>
      have hall := sliceChars?_append front (inside ++ back) []
      have hrest := sliceChars?_append (front ++ inside) back []
      rw [List.append_nil, ← byteSize_append, ← List.append_assoc] at hall
      rw [List.append_nil, ← byteSize_append] at hrest
      rw [substitute, hrest] at h
      rw [substitute, hall, Option.some.inj h]
  | cons e rest =>
      rw [substitute] at h
      obtain ⟨gap, hgap, h⟩ := Option.bind_eq_some_iff.mp h
      obtain ⟨more, hmore, h⟩ := Option.bind_eq_some_iff.mp h
      cases h
      -- What stands there and the gap behind it make the gap in front of the first edit.
      obtain ⟨before, behind, hcs, hbefore, hstart⟩ := of_sliceChars? hgap
      rw [List.append_assoc before] at hcs
      obtain ⟨mid, hmid, hback⟩ := exists_append_of_byteSize_le hcs hbefore.ge
      have hsize := congrArg byteSize hmid
      rw [hbefore, byteSize_append (front ++ inside)] at hsize
      obtain rfl : mid = [] := by
        cases mid with
        | nil => rfl
        | cons c cs =>
            have hc := c.utf8Size_pos
            rw [byteSize_cons] at hsize
            omega
      obtain rfl : back = gap ++ behind := hback
      have hlong := sliceChars?_append front (inside ++ gap) behind
      rw [byteSize_append inside, ← Nat.add_assoc, ← byteSize_append, hstart, ← List.append_assoc,
        List.append_assoc _ gap] at hlong
      rw [substitute, hlong, hmore]
      simp

/-- Edits in front of a position and behind it are carried out apart. What
those in front come to is as long as they tell. -/
theorem substitute_append {front back cs : List Char} (htext : text.toList = front ++ back)
    (hfits : ∀ e ∈ before, e.FitsIn text) (hchain : before.Pairwise fun a b => a.stop ≤ b.start)
    (hbefore : ∀ e ∈ before, pos ≤ e.start ∧ e.stop ≤ byteSize front)
    (hafter : ∀ e ∈ after, byteSize front ≤ e.start)
    (hpos : ∃ done rest, front = done ++ rest ∧ byteSize done = pos)
    (h : substitute text.toList pos (before ++ after) = some cs) :
    ∃ head tail, cs = head ++ tail ∧
      substitute text.toList (byteSize front) after = some tail ∧
      byteSize head + pos + (before.map fun e => e.stop - e.start).sum
        = byteSize front + (before.map fun e => Text.size e.replacement).sum := by
  induction before generalizing pos cs with
  | nil =>
      -- What is left of the front is untouched.
      obtain ⟨done, rest, rfl, rfl⟩ := hpos
      rw [byteSize_append] at hafter
      rw [htext] at h ⊢
      obtain ⟨tail, rfl, htail⟩ := substitute_gap hafter h
      refine ⟨rest, tail, rfl, by rwa [byteSize_append], ?_⟩
      simp only [byteSize_append, List.map_nil, List.sum_nil]
      omega
  | cons e before ih =>
      rw [List.cons_append, substitute] at h
      obtain ⟨gap, hgap, h⟩ := Option.bind_eq_some_iff.mp h
      obtain ⟨rest, hrest, h⟩ := Option.bind_eq_some_iff.mp h
      cases h
      obtain ⟨⟨hproper, -, hstop⟩, hfits⟩ := List.forall_mem_cons.mp hfits
      obtain ⟨⟨-, hinside⟩, hbefore⟩ := List.forall_mem_cons.mp hbefore
      obtain ⟨hnext, hchain⟩ := List.pairwise_cons.mp hchain
      -- The first edit stops inside the front, and the others go on from there.
      obtain ⟨upto, behind, hupto, huptoSize⟩ := isBoundary_iff.mp hstop
      obtain ⟨more, hfront, -⟩ := exists_append_of_byteSize_le (hupto.symm.trans htext)
        (by rw [huptoSize]; exact hinside)
      obtain ⟨head, tail, rfl, htail, hsize⟩ := ih hfits hchain
        (fun a ha => ⟨hnext a ha, (hbefore a ha).2⟩) ⟨upto, more, hfront, huptoSize⟩ hrest
      obtain ⟨-, -, -, -, hgapSize⟩ := of_sliceChars? hgap
      refine ⟨gap ++ e.replacement.toList ++ head, tail, by simp, htail, ?_⟩
      rw [byteSize_append, byteSize_append, List.map_cons, List.map_cons, List.sum_cons,
        List.sum_cons, ← Text.size]
      omega

/-! ### Positions and spans that no edit cuts -/

/-- Ascending edits that replace something, and what they come to on a
text. -/
structure CarriesOut (text : String) (edits : List Edit) (out : String) : Prop where
  /-- Each fits in the text. -/
  fits : ∀ e ∈ edits, e.FitsIn text
  /-- Each replaces something. -/
  proper : ∀ e ∈ edits, e.start < e.stop
  /-- They follow one another. -/
  chain : edits.Pairwise fun a b => a.stop ≤ b.start
  /-- This is what they come to. -/
  result : substitute text.toList 0 edits = some out.toList

/-- A position that no edit cuts parts the edits. -/
theorem exists_split (hchain : edits.Pairwise fun a b => a.stop ≤ b.start)
    (hproper : ∀ e ∈ edits, e.start < e.stop)
    (hclear : ∀ e ∈ edits, e.stop ≤ pos ∨ pos ≤ e.start) :
    ∃ before after, edits = before ++ after ∧ (∀ e ∈ before, e.stop ≤ pos) ∧
      ∀ e ∈ after, pos ≤ e.start := by
  induction edits with
  | nil => exact ⟨[], [], rfl, by simp, by simp⟩
  | cons e edits ih =>
      obtain ⟨hnext, hchain⟩ := List.pairwise_cons.mp hchain
      obtain ⟨hlt, hproper⟩ := List.forall_mem_cons.mp hproper
      obtain ⟨hfirst, hclear⟩ := List.forall_mem_cons.mp hclear
      rcases hfirst with hfirst | hfirst
      · obtain ⟨before, after, rfl, hbefore, hafter⟩ := ih hchain hproper hclear
        exact ⟨e :: before, after, rfl, List.forall_mem_cons.mpr ⟨hfirst, hbefore⟩, hafter⟩
      · refine ⟨[], e :: edits, rfl, by simp, List.forall_mem_cons.mpr ⟨hfirst, fun a ha => ?_⟩⟩
        have hbehind := hnext a ha
        omega

/-- Only the edits in front of a position move it. -/
theorem movedPos_append (hproper : ∀ e ∈ after, e.start < e.stop)
    (hbefore : ∀ e ∈ before, e.stop ≤ pos) (hafter : ∀ e ∈ after, pos ≤ e.start) :
    movedPos (before ++ after) pos
      = pos + (before.map fun e => Text.size e.replacement).sum
        - (before.map fun e => e.stop - e.start).sum := by
  have hfront : before.filter (fun e => e.stop ≤ pos) = before :=
    List.filter_eq_self.mpr fun e he => by simpa using hbefore e he
  have hback : after.filter (fun e => e.stop ≤ pos) = [] :=
    List.filter_eq_nil_iff.mpr fun e he => by
      have hstart := hafter e he
      have hlt := hproper e he
      simp only [decide_eq_true_eq]
      omega
  rw [movedPos, List.filter_append, hfront, hback, List.append_nil]

/-- The edited text up to where a position comes to, and behind it. -/
theorem CarriesOut.exists_moved (h : CarriesOut text (before ++ after) out) {front back : List Char}
    (htext : text.toList = front ++ back) (hbefore : ∀ e ∈ before, e.stop ≤ byteSize front)
    (hafter : ∀ e ∈ after, byteSize front ≤ e.start) :
    ∃ head tail, out.toList = head ++ tail ∧
      substitute text.toList (byteSize front) after = some tail ∧
      byteSize head + (before.map fun e => e.stop - e.start).sum
        = byteSize front + (before.map fun e => Text.size e.replacement).sum := by
  obtain ⟨hfits, -⟩ := List.forall_mem_append.mp h.fits
  exact substitute_append htext hfits (List.pairwise_append.mp h.chain).1
    (fun e he => ⟨Nat.zero_le _, hbefore e he⟩) hafter ⟨[], front, rfl, rfl⟩ h.result

/-- A part of a text between two positions. -/
theorem slice?_eq_some {head inside tail : List Char} {i j : Nat}
    (htext : text.toList = head ++ inside ++ tail) (hi : byteSize head = i)
    (hj : i + byteSize inside = j) : slice? text i j = some (String.ofList inside) := by
  rw [slice?, htext, ← hj, ← hi, sliceChars?_append]
  rfl

/-- What no edit touches is found where its span comes to. -/
theorem CarriesOut.slice?_of_clear (h : CarriesOut text edits out) {span : Span} {inside : String}
    (hinside : slice? text span.start span.stop = some inside)
    (hclear : ∀ e ∈ edits, e.stop ≤ span.start ∨ span.stop ≤ e.start) :
    slice? out (movedSpan edits span).start (movedSpan edits span).stop = some inside := by
  obtain ⟨cs, hslice, rfl⟩ := Option.map_eq_some_iff.mp hinside
  obtain ⟨front, back, htext, hfront, hstop⟩ := of_sliceChars? hslice
  obtain ⟨before, after, rfl, hbefore, hafter⟩ := @exists_split edits span.start h.chain h.proper
    fun e he => (hclear e he).imp_right fun hright => by omega
  have hproper := (List.forall_mem_append.mp h.proper).2
  have hbehind : ∀ e ∈ after, span.stop ≤ e.start := fun e he => by
    have hlt := hproper e he
    have hstart := hafter e he
    rcases hclear e (by simp [he]) with hleft | hright
    · omega
    · exact hright
  rw [List.append_assoc] at htext
  obtain ⟨head, tail, hout, htail, hsize⟩ := h.exists_moved htext (hfront ▸ hbefore)
    (hfront ▸ hafter)
  rw [htext, ← List.append_assoc] at htail
  obtain ⟨rest, rfl, -⟩ := substitute_gap (by rw [hfront, hstop]; exact hbehind) htail
  -- No edit ends inside the span, so its ends are moved alike.
  have hstart := movedPos_append hproper hbefore hafter
  have hend := @movedPos_append before after span.stop hproper
    (fun e he => by have := hbefore e he; omega) hbehind
  rw [← List.append_assoc] at hout
  refine slice?_eq_some hout ?_ ?_
  · show byteSize head = movedPos _ span.start
    omega
  · show movedPos _ span.start + byteSize cs = movedPos _ span.stop
    omega

/-- What an edit puts in is found where its span comes to. -/
theorem CarriesOut.slice?_of_mem (h : CarriesOut text edits out) (he : e ∈ edits) :
    slice? out (movedSpan edits e.span).start (movedSpan edits e.span).stop
      = some e.replacement := by
  obtain ⟨before, after, rfl⟩ := List.append_of_mem he
  obtain ⟨-, hnext, hover⟩ := List.pairwise_append.mp h.chain
  obtain ⟨hnext, -⟩ := List.pairwise_cons.mp hnext
  obtain ⟨hlt, hproper⟩ := List.forall_mem_cons.mp (List.forall_mem_append.mp h.proper).2
  obtain ⟨-, hbound, -⟩ := h.fits e he
  have hbefore : ∀ a ∈ before, a.stop ≤ e.start := fun a ha => hover a ha e (by simp)
  have hafter : ∀ a ∈ e :: after, e.start ≤ a.start :=
    List.forall_mem_cons.mpr ⟨Nat.le_refl _, fun a ha => by have := hnext a ha; omega⟩
  obtain ⟨front, back, htext, hfront⟩ := isBoundary_iff.mp hbound
  obtain ⟨head, tail, hout, htail, hsize⟩ := h.exists_moved htext (hfront ▸ hbefore)
    (hfront ▸ hafter)
  rw [substitute] at htail
  obtain ⟨gap, hgap, htail⟩ := Option.bind_eq_some_iff.mp htail
  obtain ⟨rest, -, htail⟩ := Option.bind_eq_some_iff.mp htail
  cases htail
  -- There is nothing between the front and the edit.
  obtain ⟨-, -, -, -, hgapSize⟩ := of_sliceChars? hgap
  have hstart := movedPos_append (List.forall_mem_cons.mpr ⟨hlt, hproper⟩) hbefore hafter
  have hend := @movedPos_append (before ++ [e]) after e.stop hproper
    (List.forall_mem_append.mpr
      ⟨fun a ha => Nat.le_trans (hbefore a ha) (Nat.le_of_lt hlt), by simp⟩) hnext
  simp only [List.append_assoc, List.singleton_append, List.map_append, List.map_cons,
    List.map_nil, List.sum_append, List.sum_cons, List.sum_nil] at hend
  have htext : out.toList = head ++ gap ++ e.replacement.toList ++ rest := by
    rw [hout, List.append_assoc, List.append_assoc, List.append_assoc]
  show slice? out (movedPos _ e.start) (movedPos _ e.stop) = _
  rw [slice?_eq_some htext ?_ ?_, String.ofList_toList]
  · rw [byteSize_append]
    omega
  · rw [← Text.size]
    omega

/-! ### Batches -/

/-- The order of the edits does not count for where a position comes to. -/
theorem movedPos_reverse (edits : List Edit) (pos : Nat) :
    movedPos edits.reverse pos = movedPos edits pos := by
  rw [movedPos, movedPos, List.filter_reverse, List.map_reverse, List.map_reverse,
    List.sum_reverse, List.sum_reverse]

/-- Nor does it count for a span. -/
theorem movedSpan_reverse (edits : List Edit) (span : Span) :
    movedSpan edits.reverse span = movedSpan edits span := by
  rw [movedSpan, movedSpan, movedPos_reverse, movedPos_reverse]

/-- The edit replaces a part of the text by some text. -/
def Replaces (text : String) (e : Edit) : Prop :=
  e.FitsIn text ∧ e.start < e.stop ∧ e.replacement ≠ ""

/-- What is left of a batch of replacements that do not cut one another is
carried out as a whole. -/
theorem carriesOut_mergeEdits (h : ∀ e ∈ edits, e.Replaces text) (hcompat : AllCompatible edits) :
    CarriesOut text (mergeEdits text edits).reverse (applyEdits text edits).1 ∧
      (∀ e ∈ mergeEdits text edits, e ∈ edits) ∧
      ∀ e ∈ edits, ∃ k ∈ mergeEdits text edits, k.start ≤ e.start ∧ e.stop ≤ k.stop := by
  have hproper : ∀ e ∈ edits, e.start ≤ e.stop := fun e he => (h e he).1.1
  have hmerge := isMerge_mergeSort_foldl hproper
  have hmem : ∀ e ∈ ((edits.mergeSort appliesBefore).foldl keep []).reverse, e ∈ edits := by
    intro e he
    have hsurvives := (hmerge.mem_iff e).mp he
    have hnot : e.isInsertion = false := by
      obtain ⟨a, ha, hspan⟩ := hsurvives.exists_span_eq
      obtain ⟨hstart, hstop⟩ := span_eq_iff.mp hspan
      have hlt := (h a ha).2.1
      rw [isInsertion_eq_false_iff]
      omega
    exact List.mem_of_find?_eq_some ((survives_iff_of_replacement hnot).mp hsurvives).1
  -- No edit is a deletion, so none takes a line break.
  have hsame : mergeEdits text edits = ((edits.mergeSort appliesBefore).foldl keep []).reverse := by
    refine (List.map_congr_left fun e he => ?_).trans (List.map_id _)
    rcases withLineBreak_cases text _ e with hkept | ⟨hempty, -⟩
    · exact hkept
    · exact absurd hempty (h e (hmem e he)).2.2
  rw [← hsame] at hmerge hmem
  have hfits : ∀ e ∈ mergeEdits text edits, e.FitsIn text := fun e he => (h e (hmem e he)).1
  obtain ⟨out, hok⟩ := applyEditsChecked_ok text hproper hcompat
  have hchain := pairwise_of_findConflict?_eq_none (applyEditsChecked_eq_ok_iff.mp hok).1
    fun e he => (hfits e he).1
  refine ⟨⟨?_, ?_, List.pairwise_reverse.mpr hchain, substitute_eq_splice hfits hchain⟩, hmem, ?_⟩
  · exact fun e he => hfits e (List.mem_reverse.mp he)
  · exact fun e he => (h e (hmem e (List.mem_reverse.mp he))).2.1
  · intro e he
    obtain ⟨k, hk, -, hstart, hstop⟩ := exists_survives_around he (h e he).2.1
    exact ⟨k, (hmerge.mem_iff k).mpr hk, hstart, hstop⟩

end ScriptRefactor.Edit
