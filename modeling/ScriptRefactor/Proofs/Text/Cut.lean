import ScriptRefactor.Text.Basic

/-!
# `ScriptRefactor.Proofs.Text.Cut`: cutting a text at byte positions

A byte position cuts a text when the characters in front of it have
that many bytes. All operations on byte positions come down to this:

* `cutAt?_eq_some_iff`: `cutAt?` finds the two parts, and finds
  nothing else;
* `cutBefore_append`: `cutBefore` cuts at a position between two
  characters as `cutAt?` does;
* `sliceChars?_append`: `sliceChars?` gives the middle of three parts.
-/

set_option autoImplicit false

namespace ScriptRefactor.Text

/-! ### The size of a text -/

@[simp] theorem byteSize_nil : byteSize [] = 0 := rfl

@[simp] theorem byteSize_cons (c : Char) (cs : List Char) :
    byteSize (c :: cs) = c.utf8Size + byteSize cs := rfl

@[simp] theorem byteSize_append (as bs : List Char) :
    byteSize (as ++ bs) = byteSize as + byteSize bs := by
  induction as with
  | nil => simp
  | cons c as ih => simp [ih, Nat.add_assoc]

/-! ### Cutting -/

/-- A cut gives two parts of the text, the first of which ends at the
position. -/
theorem cutAt?_eq_some_iff {cs : List Char} {n : Nat} {before after : List Char} :
    cutAt? cs n = some (before, after) ↔ cs = before ++ after ∧ byteSize before = n := by
  induction cs generalizing n before with
  | nil =>
      cases n with
      | zero =>
          cases before with
          | nil => simp [cutAt?, eq_comm]
          | cons c before => simp [cutAt?]
      | succ n =>
          cases before with
          | nil => simp [cutAt?]
          | cons c before => simp [cutAt?]
  | cons c cs ih =>
      have hc := c.utf8Size_pos
      cases n with
      | zero =>
          cases before with
          | nil => simp [cutAt?, eq_comm]
          | cons d before =>
              have hd := d.utf8Size_pos
              simp only [cutAt?, Option.some.injEq, Prod.mk.injEq, byteSize_cons]
              constructor
              · rintro ⟨h, -⟩
                cases h
              · rintro ⟨-, h⟩
                omega
      | succ n =>
          rw [cutAt?]
          cases before with
          | nil =>
              split
              · simp
              · simp
          | cons d before =>
              -- The first character goes in front of the cut, if it ends before the position.
              split
              · rename_i hle
                simp only [Option.map_eq_some_iff, Prod.exists, Prod.mk.injEq, List.cons.injEq,
                  List.cons_append, byteSize_cons]
                constructor
                · rintro ⟨b, a, hcut, ⟨rfl, rfl⟩, rfl⟩
                  obtain ⟨rfl, hsize⟩ := ih.mp hcut
                  exact ⟨⟨rfl, rfl⟩, by omega⟩
                · rintro ⟨⟨rfl, rfl⟩, hsize⟩
                  exact ⟨before, after, ih.mpr ⟨rfl, by omega⟩, ⟨rfl, rfl⟩, rfl⟩
              · rename_i hlt
                simp only [reduceCtorEq, List.cons_append, List.cons.injEq, byteSize_cons,
                  false_iff]
                rintro ⟨⟨rfl, -⟩, hsize⟩
                omega

/-- A position behind the first part is a cut. -/
theorem cutAt?_append (as bs : List Char) : cutAt? (as ++ bs) (byteSize as) = some (as, bs) :=
  cutAt?_eq_some_iff.mpr ⟨rfl, rfl⟩

/-- A position between two characters is not moved. -/
theorem cutBefore_append (as bs : List Char) : cutBefore (as ++ bs) (byteSize as) = (as, bs) := by
  induction as with
  | nil =>
      cases bs with
      | nil => rfl
      | cons c bs =>
          have hc := c.utf8Size_pos
          have hlt : ¬ c.utf8Size ≤ 0 := by omega
          simp [cutBefore, hlt]
  | cons c as ih =>
      have hle : c.utf8Size ≤ c.utf8Size + byteSize as := by omega
      simp [cutBefore, hle, ih]

/-- The characters between two cuts are the middle part. -/
theorem sliceChars?_append (as bs cs : List Char) :
    sliceChars? (as ++ bs ++ cs) (byteSize as) (byteSize as + byteSize bs) = some bs := by
  have hlt : ¬ byteSize as + byteSize bs < byteSize as := by omega
  have hdiff : byteSize as + byteSize bs - byteSize as = byteSize bs := by omega
  rw [sliceChars?, if_neg hlt, List.append_assoc, cutAt?_append]
  show (cutAt? (bs ++ cs) (byteSize as + byteSize bs - byteSize as)).bind
    (fun p => some p.1) = some bs
  rw [hdiff, cutAt?_append]
  rfl

/-! ### Positions between characters -/

/-- A position lies between two characters when the text splits
there. -/
theorem isBoundary_iff {text : String} {pos : Nat} :
    isBoundary text pos = true ↔
      ∃ before after, text.toList = before ++ after ∧ byteSize before = pos := by
  unfold isBoundary
  rw [Option.isSome_iff_exists]
  constructor
  · rintro ⟨⟨before, after⟩, h⟩
    exact ⟨before, after, cutAt?_eq_some_iff.mp h⟩
  · rintro ⟨before, after, h⟩
    exact ⟨(before, after), cutAt?_eq_some_iff.mpr h⟩

/-- A character stands at a position when the text splits in front of
it there. -/
theorem hasCharAt_iff {text : String} {pos : Nat} {c : Char} :
    hasCharAt text pos c = true ↔
      ∃ before after, text.toList = before ++ c :: after ∧ byteSize before = pos := by
  unfold hasCharAt
  constructor
  · intro h
    split at h
    · rename_i before rest hcut
      obtain ⟨hsplit, hsize⟩ := cutAt?_eq_some_iff.mp hcut
      obtain ⟨after, rfl⟩ := List.head?_eq_some_iff.mp (of_decide_eq_true h)
      exact ⟨before, after, hsplit, hsize⟩
    · cases h
  · rintro ⟨before, after, hsplit, hsize⟩
    rw [cutAt?_eq_some_iff.mpr ⟨hsplit, hsize⟩]
    simp

theorem isBoundary_of_hasCharAt {text : String} {pos : Nat} {c : Char}
    (h : hasCharAt text pos c = true) : isBoundary text pos = true := by
  obtain ⟨before, after, htext, hpos⟩ := hasCharAt_iff.mp h
  exact isBoundary_iff.mpr ⟨before, c :: after, htext, hpos⟩

/-- The position behind a character of one byte is between two
characters. -/
theorem isBoundary_succ_of_hasCharAt {text : String} {pos : Nat} {c : Char} (hc : c.utf8Size = 1)
    (h : hasCharAt text pos c = true) : isBoundary text (pos + 1) = true := by
  unfold hasCharAt at h
  split at h
  · rename_i before rest hcut
    obtain ⟨hsplit, hsize⟩ := cutAt?_eq_some_iff.mp hcut
    cases rest with
    | nil => simp at h
    | cons d rest =>
        have hd : d = c := by simpa using h
        subst hd
        refine isBoundary_iff.mpr ⟨before ++ [d], rest, by simp [hsplit], ?_⟩
        simp [hsize, hc]
  · cases h

/-- Two parts of one text that start at its front: the shorter one is
the front of the longer one. -/
theorem exists_append_of_byteSize_le {as bs cs ds : List Char} (h : as ++ bs = cs ++ ds)
    (hle : byteSize as ≤ byteSize cs) : ∃ mid, cs = as ++ mid ∧ bs = mid ++ ds := by
  rcases List.append_eq_append_iff.mp h with ⟨mid, hcs, hbs⟩ | ⟨mid, has, hds⟩
  · exact ⟨mid, hcs, hbs⟩
  · -- The first part is no longer than the other one, so nothing stands between their ends.
    have hmid : mid = [] := by
      cases mid with
      | nil => rfl
      | cons c mid =>
          have hc := c.utf8Size_pos
          rw [has, byteSize_append, byteSize_cons] at hle
          omega
    subst hmid
    exact ⟨[], by simpa using has.symm, by simpa using hds.symm⟩

end ScriptRefactor.Text
