import ScriptRefactor.Proofs.Text.Cut

/-!
# `ScriptRefactor.Proofs.Text.Floor`: positions moved to the front of a character

`cutBefore` cuts a text at the last position between two characters that is
not behind a given one. `floorPos` is that position: it is the largest of its
kind (`floorPos_le`, `le_floorPos`), so it grows with the given position
(`floorPos_mono`), and cutting there is cutting at the given one
(`cutBefore_floorPos`). What is put behind a text does not change how
it is cut (`cutBefore_append_left`).
-/

set_option autoImplicit false

namespace ScriptRefactor.Text

variable {as bs cs : List Char} {m n : Nat}

/-- The last position between two characters that is not behind a position;
for one past the end this is the end. -/
def floorPos (cs : List Char) (n : Nat) : Nat := byteSize (cutBefore cs n).1

/-- A cut loses nothing. -/
theorem cutBefore_fst_append_snd (cs : List Char) (n : Nat) :
    (cutBefore cs n).1 ++ (cutBefore cs n).2 = cs := by
  fun_induction cutBefore cs n with
  | case1 => rfl
  | case2 c cs n hle before after hcut ih => simpa [hcut] using ih
  | case3 => rfl

theorem floorPos_le (cs : List Char) (n : Nat) : floorPos cs n ≤ n := by
  unfold floorPos
  fun_induction cutBefore cs n with
  | case1 => exact Nat.zero_le _
  | case2 c cs n hle before after hcut ih =>
      simp only [hcut] at ih
      rw [byteSize_cons]
      omega
  | case3 => exact Nat.zero_le _

theorem floorPos_le_byteSize (cs : List Char) (n : Nat) : floorPos cs n ≤ byteSize cs := by
  have hsize := congrArg byteSize (cutBefore_fst_append_snd cs n)
  rw [byteSize_append] at hsize
  unfold floorPos
  omega

/-- A position between two characters stays. -/
@[simp] theorem floorPos_append (as bs : List Char) :
    floorPos (as ++ bs) (byteSize as) = byteSize as := by
  rw [floorPos, cutBefore_append]

/-- A text is cut where a position is moved to. -/
theorem cutBefore_floorPos (cs : List Char) (n : Nat) :
    cutBefore cs (floorPos cs n) = cutBefore cs n := by
  have hcut := cutBefore_append (cutBefore cs n).1 (cutBefore cs n).2
  rwa [cutBefore_fst_append_snd] at hcut

/-- Behind the place where a position is moved to, the next character goes
past it. -/
theorem lt_floorPos_add {c : Char} {rest : List Char} (h : (cutBefore cs n).2 = c :: rest) :
    n < floorPos cs n + c.utf8Size := by
  unfold floorPos
  fun_induction cutBefore cs n with
  | case1 => cases h
  | case2 d cs n hle before after hcut ih =>
      simp only [hcut] at ih
      have hlt := ih h
      rw [byteSize_cons]
      omega
  | case3 d cs n hlt =>
      cases h
      rw [byteSize_nil]
      omega

/-- No position between two characters lies between a position and where it
is moved to. -/
theorem le_floorPos (h : cs = as ++ bs) (hle : byteSize as ≤ n) : byteSize as ≤ floorPos cs n := by
  have hparts := (cutBefore_fst_append_snd cs n).trans h
  rcases Nat.lt_or_ge (floorPos cs n) (byteSize as) with hlt | hge
  · -- Otherwise the front reaches over the next character.
    obtain ⟨mid, rfl, hmid⟩ := exists_append_of_byteSize_le hparts (Nat.le_of_lt hlt)
    cases mid with
    | nil => simp [floorPos] at hlt
    | cons c mid =>
        have hnext := lt_floorPos_add (hmid.trans (List.cons_append ..))
        simp only [byteSize_append, byteSize_cons] at hle
        unfold floorPos at hnext
        omega
  · exact hge

theorem floorPos_mono (cs : List Char) (h : m ≤ n) : floorPos cs m ≤ floorPos cs n :=
  le_floorPos (cutBefore_fst_append_snd cs m).symm (Nat.le_trans (floorPos_le cs m) h)

/-- A position between two characters stays where it is. -/
theorem floorPos_of_isBoundary {text : String} (h : isBoundary text n = true) :
    floorPos text.toList n = n := by
  obtain ⟨before, after, htext, rfl⟩ := isBoundary_iff.mp h
  rw [htext, floorPos_append]

/-- Only the position in front of a line break is moved there. -/
theorem floorPos_eq_iff_of_hasCharAt {text : String} {pos : Nat}
    (h : hasCharAt text pos '\n' = true) :
    floorPos text.toList n = pos ↔ n = pos := by
  constructor
  · intro hfloor
    have hle := floorPos_le text.toList n
    have hsucc := isBoundary_succ_of_hasCharAt (c := '\n') (by decide) h
    -- Behind the line break there is the next position between characters.
    obtain ⟨before, after, htext, hbefore⟩ := isBoundary_iff.mp hsucc
    rcases Nat.lt_or_ge pos n with hlt | hge
    · have hnext := le_floorPos (n := n) htext (by omega)
      omega
    · omega
  · rintro rfl
    exact floorPos_of_isBoundary (isBoundary_of_hasCharAt h)

/-- The end of the text is the last of these positions. -/
theorem floorPos_min_byteSize (cs : List Char) (n : Nat) :
    floorPos cs (min n (byteSize cs)) = floorPos cs n := by
  rcases Nat.le_total n (byteSize cs) with hle | hge
  · rw [Nat.min_eq_left hle]
  · have hend : byteSize cs ≤ floorPos cs n := le_floorPos (List.append_nil cs).symm hge
    have hend' : floorPos cs (byteSize cs) = byteSize cs := by
      simpa using floorPos_append cs []
    have hle := floorPos_le_byteSize cs n
    rw [Nat.min_eq_right hge]
    omega

/-- A position in the text is moved over at most three bytes. -/
theorem min_le_floorPos_add (cs : List Char) (n : Nat) :
    min n (byteSize cs) ≤ floorPos cs n + 3 := by
  cases hrest : (cutBefore cs n).2 with
  | nil =>
      have hparts := cutBefore_fst_append_snd cs n
      rw [hrest, List.append_nil] at hparts
      have hend : floorPos cs n = byteSize cs := congrArg byteSize hparts
      omega
  | cons c rest =>
      have hnext := lt_floorPos_add hrest
      have hfour := c.utf8Size_le_four
      omega

/-- Of two positions, the one in front stays in front. -/
theorem floorPos_min (cs : List Char) (m n : Nat) :
    floorPos cs (min m n) = min (floorPos cs m) (floorPos cs n) := by
  rcases Nat.le_total m n with h | h
  · rw [Nat.min_eq_left h, Nat.min_eq_left (floorPos_mono cs h)]
  · rw [Nat.min_eq_right h, Nat.min_eq_right (floorPos_mono cs h)]

/-- A text is cut in front of its end as if nothing followed. -/
theorem cutBefore_append_left (h : n ≤ byteSize as) :
    cutBefore (as ++ bs) n = ((cutBefore as n).1, (cutBefore as n).2 ++ bs) := by
  induction as generalizing n with
  | nil =>
      obtain rfl : n = 0 := by simpa using h
      exact cutBefore_append [] bs
  | cons c as ih =>
      rw [byteSize_cons] at h
      rw [List.cons_append, cutBefore, cutBefore]
      split
      · rw [ih (by omega)]
      · rfl

/-- What follows does not count for where a position in front is moved
to. -/
theorem floorPos_append_left (h : n ≤ byteSize as) : floorPos (as ++ bs) n = floorPos as n := by
  rw [floorPos, cutBefore_append_left h, floorPos]

end ScriptRefactor.Text
