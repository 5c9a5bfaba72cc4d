import ScriptRefactor.Proofs.Edit.LineBreaks
import ScriptRefactor.Proofs.Text.Bytes

/-!
# `ScriptRefactor.Proofs.Edit.Guarded`: edits on the bytes of a text

A machine applies a batch to the bytes of the text, with positions in words
of 64 bits. There each step can go wrong: an index can be out of range, a
difference below zero, a sum too large for a word, and a range that is
replaced out of order, past the end or inside a character. The functions of
`OnBytes` check all of it and stop with `none`.

They never do (`applyEdits_onBytes`), for positions of any size and in any
order, and come to the bytes of the text that `applyEdits` gives:

* the search for the front of a character ends at `floorPos`, within three
  steps (`floorBoundary?_encode`), so each range is in order and fits
  (`carryOut?_encode`);
* the byte in front of a position is only read behind a start that is not
  zero, and a line break is only taken where there is one, so that the
  position behind it is one of the text (`takeLineBreak?_encode`).
-/

set_option autoImplicit false

namespace ScriptRefactor

open Text

namespace OnBytes

/-! ### One step at a time, with its checks -/

/-- A difference of words, if it is not below zero. -/
def sub? (a b : Nat) : Option Nat := if b ≤ a then some (a - b) else none

/-- A sum of words, if it is a word. -/
def add? (a b : Nat) : Option Nat := if a + b < 2 ^ 64 then some (a + b) else none

/-- The search for a place where the bytes can be cut, back from an index. It
stops with `none` if it would have to go below zero. -/
def stepBack? (bytes : List UInt8) : Nat → Option Nat
  | 0 => if isCharBoundary bytes 0 then some 0 else none
  | i + 1 => if isCharBoundary bytes (i + 1) then some (i + 1) else stepBack? bytes i

/-- The last place not behind a position where the bytes can be cut. -/
def floorBoundary? (bytes : List UInt8) (pos : Nat) : Option Nat :=
  stepBack? bytes (min pos bytes.length)

/-- Other bytes in the place of a range, if its ends are in order, not past
the end, and at places where the bytes can be cut. -/
def replaceRange? (bytes : List UInt8) (start stop : Nat) (new : List UInt8) :
    Option (List UInt8) :=
  if start ≤ stop ∧ stop ≤ bytes.length ∧ isCharBoundary bytes start = true ∧
      isCharBoundary bytes stop = true then
    some (bytes.take start ++ new ++ bytes.drop stop)
  else none

/-- One edit carried out. -/
def carryOut? (bytes : List UInt8) (e : Edit) : Option (List UInt8) := do
  let stop ← floorBoundary? bytes e.stop
  let start ← floorBoundary? bytes e.start
  replaceRange? bytes (min start stop) stop (encode e.replacement.toList)

/-- A line starts at a position: it is the first one, or the byte in front is
a line feed. -/
def startsLine? (bytes : List UInt8) (pos : Nat) : Option Bool :=
  if pos = 0 then some true
  else do
    let i ← sub? pos 1
    return bytes[i]? = some 10

/-- The edit removes all of a line. -/
def removesLine? (bytes : List UInt8) (e : Edit) : Option Bool :=
  if e.replacement.isEmpty && e.start < e.stop then do
    let atStart ← startsLine? bytes e.start
    return atStart && bytes[e.stop]? = some 10
  else some false

/-- The line break taken by the edit at an index, if it removes a line and
none of the others starts there. -/
def takeLineBreak? (bytes : List UInt8) (kept : List Edit) (i : Nat) : Option (List Edit) := do
  let e ← kept[i]?
  let removes ← removesLine? bytes e
  let blocked := kept.zipIdx.any fun p => p.2 ≠ i && p.1.start = e.stop
  if removes && !blocked then
    let stop ← add? e.stop 1
    return kept.set i { e with stop }
  else return kept

/-- The edits of a batch that are applied: those kept, with the line breaks
taken one after the other. -/
def mergeEdits? (bytes : List UInt8) (edits : List Edit) : Option (List Edit) :=
  let kept := Edit.keptOf edits
  (List.range kept.length).foldlM (takeLineBreak? bytes) kept

/-- A batch of edits applied. -/
def applyEdits? (bytes : List UInt8) (edits : List Edit) : Option (List UInt8) :=
  if edits.isEmpty then some bytes
  else do
    let merged ← mergeEdits? bytes edits
    merged.foldlM carryOut? bytes

/-! ### The ranges that are replaced -/

/-- The search ends at the front of the character. -/
theorem stepBack?_encode (cs : List Char) (n : Nat) :
    stepBack? (encode cs) n = some (floorPos cs n) := by
  induction n with
  | zero =>
      have hzero : floorPos cs 0 = 0 := Nat.le_zero.mp (floorPos_le cs 0)
      rw [hzero]
      rfl
  | succ n ih =>
      rw [stepBack?]
      split
      · rename_i hcut
        obtain ⟨before, after, rfl, hsize⟩ := isCharBoundary_encode_iff.mp hcut
        rw [← hsize, floorPos_append]
      · rename_i hnot
        -- No character starts at `n + 1`, so it is moved to where `n` is.
        have hne : floorPos cs (n + 1) ≠ n + 1 := by
          intro heq
          rw [← heq] at hnot
          exact hnot (isCharBoundary_floorPos cs (n + 1))
        have hle := floorPos_le cs (n + 1)
        have hback : floorPos cs (n + 1) ≤ floorPos cs n :=
          le_floorPos (cutBefore_fst_append_snd cs (n + 1)).symm (show floorPos cs (n + 1) ≤ n by omega)
        have hmono := floorPos_mono cs (Nat.le_succ n)
        rw [ih, Nat.le_antisymm hmono hback]

theorem floorBoundary?_encode (cs : List Char) (n : Nat) :
    floorBoundary? (encode cs) n = some (floorPos cs n) := by
  rw [floorBoundary?, stepBack?_encode, length_encode, floorPos_min_byteSize]

/-- Each edit is carried out on the bytes of any text, as it is on the text
itself. -/
theorem carryOut?_encode (cs : List Char) (e : Edit) :
    carryOut? (encode cs) e = some (encode (Edit.carryOut cs e)) := by
  have hstart : min (floorPos cs e.start) (floorPos cs e.stop) = floorPos cs (min e.start e.stop) :=
    (floorPos_min cs e.start e.stop).symm
  have hfits : floorPos cs (min e.start e.stop) ≤ floorPos cs e.stop ∧
      floorPos cs e.stop ≤ (encode cs).length ∧
      isCharBoundary (encode cs) (floorPos cs (min e.start e.stop)) = true ∧
      isCharBoundary (encode cs) (floorPos cs e.stop) = true := by
    refine ⟨floorPos_mono cs (Nat.min_le_right _ _), ?_, isCharBoundary_floorPos cs _,
      isCharBoundary_floorPos cs _⟩
    rw [length_encode]
    exact floorPos_le_byteSize cs e.stop
  simp only [carryOut?, floorBoundary?_encode, Option.bind_eq_bind, Option.bind_some, hstart]
  rw [replaceRange?, if_pos hfits, take_floorPos_encode, drop_floorPos_encode, Edit.carryOut,
    encode_append, encode_append]

/-- All of them are, one after the other. -/
theorem foldlM_carryOut?_encode (merged : List Edit) (cs : List Char) :
    merged.foldlM carryOut? (encode cs) = some (encode (merged.foldl Edit.carryOut cs)) := by
  induction merged generalizing cs with
  | nil => rfl
  | cons e rest ih =>
      rw [List.foldlM_cons, carryOut?_encode, List.foldl_cons]
      exact ih (Edit.carryOut cs e)

/-! ### The line breaks that are taken -/

variable {text : String}

theorem startsLine?_encode (text : String) (pos : Nat) :
    startsLine? (encode text.toList) pos = some (pos = 0 || hasCharAt text (pos - 1) '\n') := by
  rw [startsLine?]
  split
  · rename_i hzero
    simp [hzero]
  · rename_i hne
    have hsub : sub? pos 1 = some (pos - 1) := if_pos (Nat.pos_of_ne_zero hne)
    have hfeed : decide ((encode text.toList)[pos - 1]? = some 10) = hasCharAt text (pos - 1) '\n' := by
      rw [Bool.eq_iff_iff, decide_eq_true_eq, getElem?_encode_eq_lineFeed_iff]
    simp [hsub, hfeed, hne]

theorem removesLine?_encode (text : String) (e : Edit) :
    removesLine? (encode text.toList) e = some (e.emptiesLine text) := by
  have hfeed : decide ((encode text.toList)[e.stop]? = some 10) = hasCharAt text e.stop '\n' := by
    rw [Bool.eq_iff_iff, decide_eq_true_eq, getElem?_encode_eq_lineFeed_iff]
  rw [removesLine?, Edit.emptiesLine, startsLine?_encode]
  split
  · rename_i hdeletes
    rw [Bool.and_eq_true_iff] at hdeletes
    simp [hdeletes, hfeed]
  · rename_i hnot
    rw [Bool.not_eq_true] at hnot
    simp [hnot]

/-- An edit that does not start at a position does not have to be left out of
the search for one that does. -/
theorem any_zipIdx_ne {kept : List Edit} {i pos : Nat} {e : Edit} (he : kept[i]? = some e)
    (hne : e.start ≠ pos) :
    (kept.zipIdx.any fun p => p.2 ≠ i && p.1.start = pos) = kept.any fun k => k.start = pos := by
  rw [Bool.eq_iff_iff, List.any_eq_true, List.any_eq_true]
  constructor
  · rintro ⟨⟨k, j⟩, hmem, hk⟩
    exact ⟨k, List.mem_of_getElem? (List.mk_mem_zipIdx_iff_getElem?.mp hmem),
      (Bool.and_eq_true_iff.mp hk).2⟩
  · rintro ⟨k, hmem, hk⟩
    obtain ⟨j, hj⟩ := List.getElem?_of_mem hmem
    have hji : j ≠ i := by
      rintro rfl
      obtain rfl := Option.some.inj (he.symm.trans hj)
      exact hne (of_decide_eq_true hk)
    exact ⟨(k, j), List.mk_mem_zipIdx_iff_getElem?.mpr hj, by simpa [hji] using hk⟩

/-- One round of the loop: the edits in front have their line breaks, and the
next one takes its own. -/
theorem takeLineBreak?_encode (hsize : size text < 2 ^ 64) {kept done rest : List Edit} {e : Edit}
    (hkept : kept = done ++ e :: rest) :
    takeLineBreak? (encode text.toList) (done.map (Edit.withLineBreak text kept) ++ e :: rest)
        done.length
      = some (done.map (Edit.withLineBreak text kept) ++ e.withLineBreak text kept :: rest) := by
  have hget : (done.map (Edit.withLineBreak text kept) ++ e :: rest)[done.length]? = some e := by
    rw [List.getElem?_append_right (by simp)]
    simp
  rw [takeLineBreak?, hget, Option.bind_eq_bind, Option.bind_some, removesLine?_encode,
    Option.bind_eq_bind, Option.bind_some, Edit.withLineBreak]
  cases hempties : e.emptiesLine text with
  | false => simp
  | true =>
      obtain ⟨-, hlt, -, hbreak⟩ := Edit.of_emptiesLine hempties
      -- The starts are as they were before the loop.
      have hblocked : ((done.map (Edit.withLineBreak text kept) ++ e :: rest).any
          fun k => k.start = e.stop) = kept.any fun k => k.start = e.stop := by
        simp [hkept, Function.comp_def]
      rw [any_zipIdx_ne hget (Nat.ne_of_lt hlt), hblocked]
      -- Behind the line break there is a position of the text.
      obtain ⟨before, after, htext, hstop⟩ := hasCharAt_iff.mp hbreak
      have hadd : add? e.stop 1 = some (e.stop + 1) := by
        have hfeed : ('\n' : Char).utf8Size = 1 := rfl
        rw [size, htext, byteSize_append, byteSize_cons, hfeed] at hsize
        exact if_pos (by omega)
      cases kept.any fun k => k.start = e.stop with
      | true => rfl
      | false => simp [hadd]

/-- The loop over the edits that are kept: those in front have taken their
line breaks, the others are as they were. -/
theorem foldlM_takeLineBreak?_encode (hsize : size text < 2 ^ 64) {kept : List Edit}
    (rest : List Edit) :
    ∀ done : List Edit, kept = done ++ rest →
      (List.range' done.length rest.length).foldlM (takeLineBreak? (encode text.toList))
          (done.map (Edit.withLineBreak text kept) ++ rest)
        = some (kept.map (Edit.withLineBreak text kept)) := by
  induction rest with
  | nil =>
      rintro done rfl
      simp
  | cons e rest ih =>
      intro done hkept
      have hnext := ih (done ++ [e]) (by simp [hkept])
      rw [List.map_append, List.length_append, List.map_singleton, List.append_assoc] at hnext
      rw [List.length_cons, List.range'_succ, List.foldlM_cons, takeLineBreak?_encode hsize hkept]
      exact hnext

/-- The batch is merged as on the text itself. -/
theorem mergeEdits?_encode (hsize : size text < 2 ^ 64) (edits : List Edit) :
    mergeEdits? (encode text.toList) edits = some (mergeEdits text edits) := by
  rw [mergeEdits?, List.range_eq_range', Edit.mergeEdits_eq_map]
  exact foldlM_takeLineBreak?_encode hsize (Edit.keptOf edits) [] rfl

end OnBytes

open OnBytes Text.Utf8

/-- A batch of any edits is applied to the bytes of a text without one check
that fails: the spans may overlap, end before they start, reach past the end
or lie inside a character. What comes out is well-formed and reads as the text
that `applyEdits` gives. In any text, the search for the front of a character
ends, at most three bytes before the position or the end. The only condition
is that the bytes of the text can be counted in a word, as those of any text
in memory can. -/
theorem applyEdits_onBytes (text : String) (edits : List Edit) (hsize : size text < 2 ^ 64) :
    mergeEdits? (encode text.toList) edits = some (mergeEdits text edits) ∧
    (∃ bytes, applyEdits? (encode text.toList) edits = some bytes ∧ isWellFormed bytes = true ∧
      decode bytes = (applyEdits text edits).1) ∧
    ∀ (cs : List Char) (pos : Nat), ∃ found, floorBoundary? (encode cs) pos = some found ∧
      isCharBoundary (encode cs) found = true ∧ found ≤ pos ∧
      min pos (encode cs).length ≤ found + 3 := by
  have hmerge := mergeEdits?_encode hsize edits
  refine ⟨hmerge, ⟨encode (applyEdits text edits).1.toList, ?_, isWellFormed_encode _, ?_⟩, ?_⟩
  · rw [applyEdits?]
    split
    · rename_i hnone
      rw [List.isEmpty_iff.mp hnone]
      simp [applyEdits, mergeEdits, splice]
    · rw [hmerge, Option.bind_eq_bind, Option.bind_some, foldlM_carryOut?_encode]
      simp [applyEdits, splice]
  · exact (decode_flatMap_utf8EncodeChar _).trans String.ofList_toList
  · intro cs pos
    refine ⟨floorPos cs pos, floorBoundary?_encode cs pos, isCharBoundary_floorPos cs pos,
      floorPos_le cs pos, ?_⟩
    rw [length_encode]
    exact min_le_floorPos_add cs pos

/-- A text put in at the last word, a removed line, an edit that ends before
it starts, and a text put in inside a letter. -/
theorem applyEdits_onBytes_outOfPlace :
    let text := "é\nb\n"
    let edits : List Edit :=
      [Edit.insert (2 ^ 64 - 1) "!", Edit.delete 3 4, ⟨2, 1, "z"⟩, Edit.insert 1 "x"]
    size text < 2 ^ 64 ∧
      mergeEdits? (encode text.toList) edits
        = some [Edit.insert (2 ^ 64 - 1) "!", ⟨3, 5, ""⟩, ⟨2, 1, "z"⟩, Edit.insert 1 "x"] ∧
      ∃ bytes, applyEdits? (encode text.toList) edits = some bytes ∧ isWellFormed bytes = true ∧
        decode bytes = "zxé\n!" := by
  intro text edits
  have hsize : size text < 2 ^ 64 := by decide
  have hmerged : mergeEdits text edits
      = [Edit.insert (2 ^ 64 - 1) "!", ⟨3, 5, ""⟩, ⟨2, 1, "z"⟩, Edit.insert 1 "x"] := by
    rw [Edit.mergeEdits_eq_map, Edit.keptOf_of_sorted (by decide)]
    decide +kernel
  have hout : (applyEdits text edits).1 = "zxé\n!" := by
    show splice text (mergeEdits text edits) = _
    rw [hmerged]
    decide +kernel
  obtain ⟨hmerge, hbytes, -⟩ := applyEdits_onBytes text edits hsize
  rw [hmerged] at hmerge
  rw [hout] at hbytes
  exact ⟨hsize, hmerge, hbytes⟩

end ScriptRefactor
