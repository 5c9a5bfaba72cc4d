import ScriptRefactor.Proofs.Edit.Conflicts
import ScriptRefactor.Proofs.Edit.Moved

/-!
# `ScriptRefactor.Proofs.Edit.LineBreaks`: what a removed line leaves in front

A deletion of the whole content of a line takes the line break with it. What
comes out in front of such a deletion should be empty or end with a line
break, else it is joined to the next line. Only the text of the batch around
the deletion is looked at when the line break is taken, not the edits that
touch the deletion from the front.

* `endsLine_substitute_iff`: what those edits put there decides. Going back
  over deletions, the first other edit has to end with a line break, and where
  there is none, the place reached has to be the start of a line.
* `leavesLineStart_of_untouched`: removed lines in a row do no harm, so it is
  enough that no edit of the batch ends where a removed line starts.
* `removed_line_endsLine_iff` puts both together for an accepted batch, and
  `removed_line_joins_insertion` is the batch where a text is put in at the
  start of the removed line.
-/

set_option autoImplicit false

namespace ScriptRefactor

open Text

namespace Edit

/-- A text behind which a line starts: it is empty or ends with a line
break. -/
def EndsLine (cs : List Char) : Prop := cs = [] ∨ cs.getLast? = some '\n'

/-- A line of the text starts at the position. -/
def atLineStart (text : String) (pos : Nat) : Bool :=
  pos = 0 || hasCharAt text (pos - 1) '\n'

/-- A line starts behind what the edits in front of a position, the next one
first, leave there: in the text itself if none of them ends at the position,
else behind the text that the next one puts in; a deletion shows what is in
front of it. -/
def leavesLineStart (text : String) : List Edit → Nat → Bool
  | [], pos => atLineStart text pos
  | e :: front, pos =>
    if e.stop < pos then atLineStart text pos
    else if e.replacement = "" then leavesLineStart text front e.start
    else e.replacement.toList.getLast? = some '\n'

/-! ### Lines of the text -/

/-- A line starts where the text in front ends one. -/
theorem atLineStart_iff {text : String} {pre rest : List Char} (h : text.toList = pre ++ rest) :
    atLineStart text (byteSize pre) = true ↔ EndsLine pre := by
  rcases pre.eq_nil_or_concat with rfl | ⟨init, c, rfl⟩
  · simp [atLineStart, EndsLine]
  · have hpos := c.utf8Size_pos
    rw [List.concat_eq_append] at h ⊢
    have hsize : byteSize (init ++ [c]) = byteSize init + c.utf8Size := by simp
    have hne : byteSize (init ++ [c]) ≠ 0 := by omega
    have hends : EndsLine (init ++ [c]) ↔ c = '\n' := by simp [EndsLine]
    rw [atLineStart, Bool.or_eq_true, decide_eq_true_eq, or_iff_right hne, hends, hasCharAt_iff]
    constructor
    · rintro ⟨before, after, hsplit, hbefore⟩
      -- One byte is left for the last character, so it is the line break itself.
      obtain ⟨mid, hinit, hmid⟩ := exists_append_of_byteSize_le (hsplit.symm.trans h) (by omega)
      have hmidSize := congrArg byteSize hinit
      simp only [byteSize_append, byteSize_cons, byteSize_nil] at hmidSize
      cases mid with
      | nil =>
          rw [byteSize_nil] at hmidSize
          omega
      | cons d mid =>
          rw [List.cons_append, List.cons.injEq] at hmid
          obtain ⟨rfl, -⟩ := hmid
          cases mid with
          | nil => simpa using (List.append_inj' hinit rfl).2
          | cons d' mid =>
              have hd := ('\n' : Char).utf8Size_pos
              have hd' := d'.utf8Size_pos
              rw [byteSize_cons, byteSize_cons] at hmidSize
              omega
    · rintro rfl
      have hone : ('\n' : Char).utf8Size = 1 := rfl
      exact ⟨init, rest, by simp [h], by omega⟩

/-- A removed line starts where a line starts, and ends in front of a line
break. -/
theorem of_emptiesLine {text : String} {e : Edit} (h : e.emptiesLine text = true) :
    e.replacement = "" ∧ e.start < e.stop ∧ atLineStart text e.start = true ∧
      hasCharAt text e.stop '\n' = true := by
  simpa [emptiesLine, atLineStart, and_assoc] using h

/-! ### The text in front of an edit -/

/-- A slice is cut out of the part of a text in which it lies. -/
theorem sliceChars?_of_append {as bs gap : List Char} {i j : Nat}
    (h : sliceChars? (as ++ bs) i j = some gap) (hj : j ≤ byteSize as) :
    sliceChars? as i j = some gap := by
  obtain ⟨front, back, hcs, rfl, rfl⟩ := of_sliceChars? h
  obtain ⟨mid, rfl, -⟩ := exists_append_of_byteSize_le hcs.symm (by rwa [byteSize_append])
  exact sliceChars?_append front gap mid

/-- The edits in a part of a text are carried out on that part, and the
others on the rest. -/
theorem substitute_split {pre rest cs : List Char} {before after : List Edit} {pos : Nat}
    (hbefore : ∀ e ∈ before, e.start ≤ e.stop ∧
      ∃ done more, pre = done ++ more ∧ byteSize done = e.stop)
    (hafter : ∀ e ∈ after, byteSize pre ≤ e.start)
    (hpos : ∃ done more, pre = done ++ more ∧ byteSize done = pos)
    (h : substitute (pre ++ rest) pos (before ++ after) = some cs) :
    ∃ head tail, substitute pre pos before = some head ∧
      substitute (pre ++ rest) (byteSize pre) after = some tail ∧ cs = head ++ tail := by
  induction before generalizing pos cs with
  | nil =>
      -- No edit is left in front, so the part that is still to come ends with the front.
      obtain ⟨done, more, rfl, rfl⟩ := hpos
      rw [byteSize_append] at hafter
      obtain ⟨tail, rfl, htail⟩ := substitute_gap hafter h
      have hslice := sliceChars?_append done more []
      rw [List.append_nil, ← byteSize_append] at hslice
      exact ⟨more, tail, hslice, by rwa [byteSize_append], rfl⟩
  | cons e before ih =>
      obtain ⟨⟨hproper, done, more, hdone, hstop⟩, hbefore⟩ := List.forall_mem_cons.mp hbefore
      have hinside : e.start ≤ byteSize pre := by
        have hsize := congrArg byteSize hdone
        rw [byteSize_append] at hsize
        omega
      rw [List.cons_append, substitute] at h
      obtain ⟨gap, hgap, h⟩ := Option.bind_eq_some_iff.mp h
      obtain ⟨next, hnext, h⟩ := Option.bind_eq_some_iff.mp h
      cases h
      -- The first edit stops inside the front, and its gap is a part of the front.
      obtain ⟨head, tail, hhead, htail, rfl⟩ := ih hbefore ⟨done, more, hdone, hstop⟩ hnext
      refine ⟨gap ++ e.replacement.toList ++ head, tail, ?_, htail, by simp⟩
      rw [substitute, sliceChars?_of_append hgap hinside, hhead]
      rfl

/-- A position in front of an edit that fits in the text splits what is in
front of that edit. -/
theorem exists_front {text : String} {pre rest : List Char} {pos : Nat}
    (htext : text.toList = pre ++ rest) (hbound : isBoundary text pos = true)
    (hle : pos ≤ byteSize pre) : ∃ done more, pre = done ++ more ∧ byteSize done = pos := by
  obtain ⟨done, more, hdone, rfl⟩ := isBoundary_iff.mp hbound
  obtain ⟨mid, rfl, -⟩ := exists_append_of_byteSize_le (hdone.symm.trans htext) hle
  exact ⟨done, mid, rfl, rfl⟩

/-- What is put in by the last edit, and what stays behind it. -/
theorem substitute_last {pre inside gap : List Char} {e : Edit} (hstart : byteSize pre = e.start)
    (hstop : byteSize (pre ++ inside) = e.stop) :
    substitute (pre ++ inside ++ gap) (byteSize pre) [e]
      = some (e.replacement.toList ++ gap) := by
  have hnone := sliceChars?_append pre [] (inside ++ gap)
  have hrest := sliceChars?_append (pre ++ inside) gap []
  rw [byteSize_nil, Nat.add_zero, List.append_nil, ← List.append_assoc] at hnone
  rw [List.append_nil, ← byteSize_append] at hrest
  rw [substitute, substitute, ← hstart, hnone, ← hstop, hrest]
  rfl

variable {text : String}

/-- Around an edit of a merged batch the text comes out in three parts: what
the edits in front make of the text there, what the edit puts in, and what
the edits behind make of the text behind. -/
theorem exists_parts {merged behind front : List Edit} {e : Edit}
    (hsplit : merged = behind ++ e :: front) (hfits : ∀ a ∈ merged, a.FitsIn text)
    (hchain : merged.Pairwise fun a b => b.stop ≤ a.start) :
    ∃ pre rest head tail, text.toList = pre ++ rest ∧ byteSize pre = e.start ∧
      substitute pre 0 front.reverse = some head ∧
      substitute text.toList e.stop behind.reverse = some tail ∧
      (splice text merged).toList = head ++ e.replacement.toList ++ tail := by
  have hsub := substitute_eq_splice hfits hchain
  have he : e ∈ merged := by simp [hsplit]
  obtain ⟨hproper, hstart, -⟩ := hfits e he
  obtain ⟨pre, rest, htext, hpre⟩ := isBoundary_iff.mp hstart
  rw [hsplit] at hchain
  obtain ⟨-, hbelow, hover⟩ := List.pairwise_append.mp hchain
  -- The edits in front lie in the text in front, and the others do not.
  have hcuts : ∀ a ∈ front.reverse, a.start ≤ a.stop ∧
      ∃ done more, pre = done ++ more ∧ byteSize done = a.stop := by
    intro a ha
    rw [List.mem_reverse] at ha
    obtain ⟨haproper, -, hastop⟩ := hfits a (by simp [hsplit, ha])
    have hle := (List.pairwise_cons.mp hbelow).1 a ha
    exact ⟨haproper, exists_front htext hastop (by omega)⟩
  have hafter : ∀ a ∈ e :: behind.reverse, byteSize pre ≤ a.start := by
    intro a ha
    rcases List.mem_cons.mp ha with rfl | ha
    · omega
    · have hle := hover a (List.mem_reverse.mp ha) e (List.mem_cons_self ..)
      omega
  have hzero : ∃ done more, pre = done ++ more ∧ byteSize done = 0 := ⟨[], pre, rfl, rfl⟩
  have hreverse : merged.reverse = front.reverse ++ e :: behind.reverse := by simp [hsplit]
  rw [hreverse, htext] at hsub
  obtain ⟨head, tail, hhead, htail, hparts⟩ := substitute_split hcuts hafter hzero hsub
  -- Nothing stands between them and the edit.
  rw [substitute, hpre] at htail
  obtain ⟨gap, hgap, htail⟩ := Option.bind_eq_some_iff.mp htail
  obtain ⟨tail, hbehind, htail⟩ := Option.bind_eq_some_iff.mp htail
  cases htail
  have hnone := sliceChars?_append pre [] rest
  rw [byteSize_nil, Nat.add_zero, List.append_nil, hpre] at hnone
  obtain rfl := Option.some.inj (hgap.symm.trans hnone)
  rw [← htext] at hbehind
  exact ⟨pre, rest, head, tail, htext, hpre, hhead, hbehind, by simpa using hparts⟩

/-! ### What comes out in front -/

/-- What comes out in front of a position is empty or ends with a line break
exactly if the edits there leave the start of a line. -/
theorem endsLine_substitute_iff (front : List Edit) :
    ∀ {pre rest head : List Char}, text.toList = pre ++ rest →
      (∀ e ∈ front, e.FitsIn text) → front.Pairwise (fun a b => b.stop ≤ a.start) →
      (∀ e ∈ front, e.stop ≤ byteSize pre) → substitute pre 0 front.reverse = some head →
      (EndsLine head ↔ leavesLineStart text front (byteSize pre) = true) := by
  induction front with
  | nil =>
      intro pre rest head htext _ _ _ h
      have hslice := sliceChars?_append [] pre []
      simp only [byteSize_nil, Nat.zero_add, List.nil_append, List.append_nil] at hslice
      obtain rfl : pre = head := Option.some.inj (hslice.symm.trans h)
      rw [leavesLineStart, atLineStart_iff htext]
  | cons e front ih =>
      intro pre rest head htext hfits hchain hinside h
      obtain ⟨⟨hproper, hstart, hstop⟩, hfits⟩ := List.forall_mem_cons.mp hfits
      obtain ⟨hnext, hchain⟩ := List.pairwise_cons.mp hchain
      have hle : e.stop ≤ byteSize pre := hinside e (by simp)
      -- What is in front of the position: the text in front of the edit, its span and a gap.
      obtain ⟨upto, gap, rfl, hupto⟩ := exists_front htext hstop hle
      rw [List.append_assoc] at htext
      obtain ⟨pre, inside, rfl, hpre⟩ := exists_front htext hstart (by omega)
      rw [List.append_assoc] at htext
      have hcuts : ∀ a ∈ front.reverse, a.start ≤ a.stop ∧
          ∃ done more, pre = done ++ more ∧ byteSize done = a.stop := by
        intro a ha
        rw [List.mem_reverse] at ha
        have hle' := hnext a ha
        exact ⟨(hfits a ha).1, exists_front htext (hfits a ha).2.2 (by omega)⟩
      have hzero : ∃ done more, pre = done ++ more ∧ byteSize done = 0 := ⟨[], pre, rfl, rfl⟩
      rw [List.reverse_cons, List.append_assoc] at h
      obtain ⟨head, tail, hhead, htail, rfl⟩ := substitute_split hcuts (by simp [hpre]) hzero h
      rw [← List.append_assoc, substitute_last hpre hupto] at htail
      cases htail
      have hfront := ih htext hfits hchain (fun a ha => by rw [hpre]; exact hnext a ha) hhead
      rw [hpre] at hfront
      rw [leavesLineStart, byteSize_append, hupto]
      cases gap with
      | cons c gap =>
          -- The text behind the edit is in front of the position.
          have hc := c.utf8Size_pos
          have hends : EndsLine (head ++ (e.replacement.toList ++ c :: gap)) ↔
              EndsLine (pre ++ inside ++ c :: gap) := by
            simp [EndsLine, List.getLast?_append]
          have hline := @atLineStart_iff text (pre ++ inside ++ c :: gap) rest (by simp [htext])
          rw [byteSize_append, hupto] at hline
          rw [if_pos (by rw [byteSize_cons]; omega), hends, hline]
      | nil =>
          rw [if_neg (by simp), List.append_nil]
          split
          · rename_i hempty
            rw [hempty, String.toList_empty, List.append_nil, hfront]
          · rename_i hsome
            have hne : e.replacement.toList ≠ [] := by simpa using hsome
            obtain ⟨c, hc⟩ : ∃ c, e.replacement.toList.getLast? = some c :=
              ⟨_, List.getLast?_eq_some_getLast hne⟩
            simp [EndsLine, List.getLast?_append, hc, hne]

/-- Of removed lines in a row, each starts where a line starts, unless an edit
of the batch ends where one of them starts. -/
theorem leavesLineStart_of_untouched {batch kept : List Edit}
    (hspan : ∀ k ∈ kept, ∃ a ∈ batch, a.span = k.span)
    (hfree : ∀ k ∈ kept, k.emptiesLine text = true → ∀ a ∈ batch, a.stop ≠ k.start)
    (front : List Edit) :
    ∀ {d : Edit}, d ∈ kept → d.emptiesLine text = true →
      (∀ e ∈ front, ∃ k ∈ kept, e = k.withLineBreak text kept) →
      front.Pairwise (fun a b => b.stop ≤ a.start) → (∀ e ∈ front, e.stop ≤ d.start) →
      leavesLineStart text front d.start = true := by
  induction front with
  | nil =>
      intro d _ hempties _ _ _
      exact (of_emptiesLine hempties).2.2.1
  | cons e front ih =>
      intro d hd hempties hfront hchain hinside
      obtain ⟨⟨k, hk, hek⟩, hfront⟩ := List.forall_mem_cons.mp hfront
      obtain ⟨hnext, hchain⟩ := List.pairwise_cons.mp hchain
      rw [leavesLineStart]
      split
      · exact (of_emptiesLine hempties).2.2.1
      · rename_i hnot
        have hstop : e.stop = d.start := by
          have hle := hinside e (by simp)
          omega
        -- It ends there only with its line break, so it is a removed line itself.
        unfold withLineBreak at hek
        split at hek
        · rename_i htaken
          have hkempties := (Bool.and_eq_true_iff.mp htaken).1
          rw [hek] at hnext ⊢
          rw [if_pos (of_emptiesLine hkempties).1]
          show leavesLineStart text front k.start = true
          exact ih hk hkempties hfront hchain hnext
        · obtain ⟨a, ha, hspan⟩ := hspan k hk
          rw [span_eq_iff] at hspan
          exact absurd (by rw [hspan.2, ← hek, hstop]) (hfree d hd hempties a ha)

/-- A removed line that is kept is an edit of the batch. -/
theorem mem_of_emptiesLine {edits merged : List Edit} (hmerge : IsMerge edits merged) {k : Edit}
    (hk : k ∈ merged) (hempties : k.emptiesLine text = true) : k ∈ edits := by
  have hnot : k.isInsertion = false :=
    isInsertion_eq_false_iff.mpr (Nat.ne_of_lt (of_emptiesLine hempties).2.1)
  have hfirst := ((survives_iff_of_replacement hnot).mp ((hmerge.mem_iff k).mp hk)).1
  exact List.mem_of_find?_eq_some hfirst

/-- An edit that is changed is a removed line, and takes its line break. -/
theorem of_withLineBreak_ne {batch : List Edit} {d : Edit} (h : d.withLineBreak text batch ≠ d) :
    d.emptiesLine text = true ∧ d.withLineBreak text batch = { d with stop := d.stop + 1 } := by
  unfold withLineBreak at h ⊢
  split at h
  · rename_i hboth
    exact ⟨(Bool.and_eq_true_iff.mp hboth).1, if_pos hboth⟩
  · exact absurd rfl h

end Edit

open Edit

/-- A batch that is accepted, and a deletion that is kept and extended over
the line break behind it. The text comes out in two parts: what the edits in
front of the deletion make of the text there, and what the edits behind it
make of the text behind the line break. The first part is empty or ends with
a line break, so that nothing is joined to the next line, exactly if the edits
in front leave the start of a line. They do if no edit of the batch ends where
a removed line starts. -/
theorem removed_line_endsLine_iff (text : String) (edits : List Edit) (out : String)
    (hfits : ∀ e ∈ edits, e.start ≤ e.stop ∧
      isBoundary text e.start = true ∧ isBoundary text e.stop = true)
    (h : applyEditsChecked text edits = .ok out) (d : Edit) (hd : d ∈ keptOf edits)
    (htaken : d.withLineBreak text (keptOf edits) ≠ d) :
    ∃ pre rest behind front head tail,
      text.toList = pre ++ rest ∧ byteSize pre = d.start ∧
      mergeEdits text edits = behind ++ { d with stop := d.stop + 1 } :: front ∧
      substitute pre 0 front.reverse = some head ∧
      substitute text.toList (d.stop + 1) behind.reverse = some tail ∧
      out.toList = head ++ tail ∧
      ((head = [] ∨ head.getLast? = some '\n') ↔ leavesLineStart text front d.start = true) ∧
      ((∀ k ∈ edits, k.emptiesLine text = true → ∀ a ∈ edits, a.stop ≠ k.start) →
        head = [] ∨ head.getLast? = some '\n') := by
  have hmerge : IsMerge edits (keptOf edits) := isMerge_mergeSort_foldl fun e he => (hfits e he).1
  have hmerged : ∀ e ∈ mergeEdits text edits, e.FitsIn text := fitsIn_of_mem_mergeEdits hfits
  obtain ⟨hnone, rfl⟩ := applyEditsChecked_eq_ok_iff.mp h
  have hchain := pairwise_of_findConflict?_eq_none hnone fun e he => (hmerged e he).1
  -- The deletion is one of the merged edits, with its line break.
  obtain ⟨hempties, hextended⟩ := of_withLineBreak_ne htaken
  have hmem : { d with stop := d.stop + 1 } ∈ mergeEdits text edits := by
    rw [← hextended]
    exact List.mem_map_of_mem hd
  obtain ⟨behind, front, hsplit⟩ := List.append_of_mem hmem
  obtain ⟨pre, rest, head, tail, htext, hpre, hhead, htail, hparts⟩ :=
    exists_parts hsplit hmerged hchain
  have hpre : byteSize pre = d.start := hpre
  have hempty : ({ d with stop := d.stop + 1 } : Edit).replacement = "" := (of_emptiesLine hempties).1
  rw [hempty, String.toList_empty, List.append_nil] at hparts
  -- The edits in front lie clear of each other and of the deletion.
  have hfront : ∀ e ∈ front, e ∈ mergeEdits text edits := fun e he => by simp [hsplit, he]
  rw [hsplit] at hchain
  obtain ⟨hinside, hchain⟩ := List.pairwise_cons.mp (List.pairwise_append.mp hchain).2.1
  have hinside : ∀ e ∈ front, e.stop ≤ d.start := hinside
  have hiff := endsLine_substitute_iff front htext (fun e he => hmerged e (hfront e he)) hchain
    (by rwa [hpre]) hhead
  rw [hpre] at hiff
  refine ⟨pre, rest, behind, front, head, tail, htext, hpre, hsplit, hhead, htail, hparts, hiff, ?_⟩
  intro hfree
  have hstart : leavesLineStart text front d.start = true := by
    refine leavesLineStart_of_untouched (fun k hk => ((hmerge.mem_iff k).mp hk).exists_span_eq)
      (fun k hk hkempties => hfree k (mem_of_emptiesLine hmerge hk hkempties) hkempties) front hd
      hempties (fun e he => ?_) hchain hinside
    obtain ⟨k, hk, hek⟩ := List.mem_map.mp (hfront e he)
    exact ⟨k, hk, hek.symm⟩
  exact hiff.mpr hstart

/-- Two removed lines in a row, and a line put in at the start of the first
one. -/
theorem removed_line_endsLine_iff_inRow :
    let text := "one\ntwo\nthree\nfour"
    let edits : List Edit := [delete 8 13, delete 4 7, insert 4 "2\n"]
    (∀ e ∈ edits, e.start ≤ e.stop ∧
      isBoundary text e.start = true ∧ isBoundary text e.stop = true) ∧
    applyEditsChecked text edits = .ok "one\n2\nfour" ∧
    delete 8 13 ∈ keptOf edits ∧
    (delete 8 13).withLineBreak text (keptOf edits) ≠ delete 8 13 ∧
    ∃ behind front head tail,
      mergeEdits text edits = behind ++ ⟨8, 14, ""⟩ :: front ∧
      "one\n2\nfour".toList = head ++ tail ∧
      ((head = [] ∨ head.getLast? = some '\n') ↔ leavesLineStart text front 8 = true) := by
  intro text edits
  have hfits : ∀ e ∈ edits, e.FitsIn text := by
    simp only [edits, List.forall_mem_cons]
    decide
  have hkept : keptOf edits = [delete 8 13, delete 4 7, insert 4 "2\n"] := by
    rw [keptOf_of_sorted (by decide)]
    decide +kernel
  have hok : applyEditsChecked text edits = .ok "one\n2\nfour" := by
    rw [applyEditsChecked_eq_ok_iff, mergeEdits_eq_map, hkept]
    decide +kernel
  have hd : delete 8 13 ∈ keptOf edits := by
    rw [hkept]
    decide
  have htaken : (delete 8 13).withLineBreak text (keptOf edits) ≠ delete 8 13 := by
    rw [hkept]
    decide +kernel
  obtain ⟨_, _, behind, front, head, tail, -, -, hsplit, -, -, hparts, hiff, -⟩ :=
    removed_line_endsLine_iff text edits _ hfits hok _ hd htaken
  exact ⟨hfits, hok, hd, htaken, behind, front, head, tail, hsplit, hparts, hiff⟩

/-- A text put in at the start of a removed line is joined to the next line.
So is the line in front, if its line break is removed, too. -/
theorem removed_line_joins_insertion :
    (let text := "one\ntwo\nthree\n"
    let edits : List Edit := [delete 4 7, insert 4 "x"]
    (∀ e ∈ edits, e.start ≤ e.stop ∧
      isBoundary text e.start = true ∧ isBoundary text e.stop = true) ∧
    applyEditsChecked text edits = .ok "one\nxthree\n" ∧
    mergeEdits text edits = [⟨4, 8, ""⟩, insert 4 "x"] ∧
    (delete 4 7).withLineBreak text (keptOf edits) = ⟨4, 8, ""⟩ ∧
    substitute "one\n".toList 0 [insert 4 "x"] = some "one\nx".toList ∧
    ¬ ("one\nx".toList = [] ∨ "one\nx".toList.getLast? = some '\n')) ∧
    applyEditsChecked "one\ntwo\nthree\n" [delete 4 7, delete 3 4] = .ok "onethree\n" := by
  have hkept : keptOf [delete 4 7, insert 4 "x"] = [delete 4 7, insert 4 "x"] := by
    rw [keptOf_of_sorted (by decide)]
    decide +kernel
  have hbreak : keptOf [delete 4 7, delete 3 4] = [delete 4 7, delete 3 4] := by
    rw [keptOf_of_sorted (by decide)]
    decide +kernel
  simp only [applyEditsChecked_eq_ok_iff, mergeEdits_eq_map, hkept, hbreak, List.forall_mem_cons]
  decide +kernel

end ScriptRefactor
