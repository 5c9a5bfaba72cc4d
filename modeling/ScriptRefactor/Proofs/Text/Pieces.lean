import ScriptRefactor.Text.Basic

/-!
# `ScriptRefactor.Proofs.Text.Pieces`: pieces between separators

Pieces without the separator are joined and cut apart again without a
change (`splitOn_joinWith`), so that the text tells them (`joinWith_inj`),
and a text that was cut has such pieces (`not_mem_of_mem_splitOn`).

Joined pieces start with a piece and a separator exactly if it is the first
of several ones (`prefix_joinWith_iff`). `afterPrefix?` finds exactly what
follows a beginning (`afterPrefix?_eq_some_iff`).
-/

set_option autoImplicit false

namespace ScriptRefactor.Text

variable {sep : Char}

/-! ### Cutting -/

/-- There is always a first piece. -/
theorem splitOn_ne_nil (sep : Char) (cs : List Char) : splitOn sep cs ≠ [] := by
  cases cs with
  | nil => simp [splitOn]
  | cons c cs =>
      rw [splitOn]
      split
      · simp
      · split <;> simp

/-- A text without the separator is one piece. -/
theorem splitOn_of_not_mem {cs : List Char} (h : sep ∉ cs) : splitOn sep cs = [cs] := by
  induction cs with
  | nil => rfl
  | cons c cs ih =>
      rw [List.mem_cons, not_or] at h
      rw [splitOn, if_neg (Ne.symm h.1), ih h.2]

/-- A separator between two texts separates their pieces. -/
theorem splitOn_append (sep : Char) (before after : List Char) :
    splitOn sep (before ++ sep :: after) = splitOn sep before ++ splitOn sep after := by
  induction before with
  | nil => simp [splitOn]
  | cons c cs ih =>
      rw [List.cons_append, splitOn, splitOn, ih]
      split
      · rfl
      · -- Both texts start with the same piece, which takes the character.
        cases hcs : splitOn sep cs with
        | nil => exact absurd hcs (splitOn_ne_nil sep cs)
        | cons piece pieces => rfl

/-- A piece has no separator, and only characters of the text. -/
theorem not_mem_of_mem_splitOn {cs piece : List Char} (h : piece ∈ splitOn sep cs) :
    sep ∉ piece ∧ ∀ c ∈ piece, c ∈ cs := by
  induction cs generalizing piece with
  | nil =>
      rw [splitOn, List.mem_singleton] at h
      simp [h]
  | cons c cs ih =>
      rw [splitOn] at h
      split at h
      · rcases List.mem_cons.mp h with rfl | h
        · simp
        · exact ⟨(ih h).1, fun x hx => List.mem_cons_of_mem c ((ih h).2 x hx)⟩
      · rename_i hc
        split at h
        · -- The character goes to the first piece, and the other ones are as before.
          rename_i first pieces hcs
          rw [hcs] at ih
          rcases List.mem_cons.mp h with rfl | h
          · have hfirst := ih (List.mem_cons_self ..)
            refine ⟨?_, ?_⟩
            · rw [List.mem_cons, not_or]
              exact ⟨Ne.symm hc, hfirst.1⟩
            · intro x hx
              rcases List.mem_cons.mp hx with rfl | hx
              · exact List.mem_cons_self ..
              · exact List.mem_cons_of_mem c (hfirst.2 x hx)
          · have hpiece := ih (List.mem_cons_of_mem first h)
            exact ⟨hpiece.1, fun x hx => List.mem_cons_of_mem c (hpiece.2 x hx)⟩
        · rename_i hcs
          exact absurd hcs (splitOn_ne_nil sep cs)

/-! ### Joining -/

/-- A piece joined in front of others. -/
theorem joinWith_cons (sep piece : List Char) {pieces : List (List Char)} (h : pieces ≠ []) :
    joinWith sep (piece :: pieces) = piece ++ sep ++ joinWith sep pieces := by
  cases pieces with
  | nil => exact absurd rfl h
  | cons next pieces => rfl

/-- One piece joined behind others. -/
theorem joinWith_snoc (sep : Char) {ps : List (List Char)} (hp : ps ≠ []) (q : List Char) :
    joinWith [sep] (ps ++ [q]) = joinWith [sep] ps ++ sep :: q := by
  induction ps with
  | nil => exact absurd rfl hp
  | cons p ps ih =>
      cases ps with
      | nil => simp [joinWith]
      | cons next ps =>
          rw [List.cons_append, joinWith_cons [sep] p (by simp), ih (by simp),
            joinWith_cons [sep] p (by simp)]
          simp only [List.append_assoc]

/-- What is put behind the last piece goes behind all. -/
theorem joinWith_append_last (sep : Char) (ps : List (List Char)) (q r : List Char) :
    joinWith [sep] (ps ++ [q]) ++ r = joinWith [sep] (ps ++ [q ++ r]) := by
  cases ps with
  | nil => rfl
  | cons p ps =>
      rw [joinWith_snoc sep (List.cons_ne_nil p ps), joinWith_snoc sep (List.cons_ne_nil p ps),
        List.append_assoc, List.cons_append]

/-- Pieces joined behind others: each has the separator in front. -/
theorem joinWith_append (sep : Char) {ps : List (List Char)} (hp : ps ≠ [])
    (qs : List (List Char)) :
    joinWith [sep] (ps ++ qs) = joinWith [sep] ps ++ qs.flatMap (sep :: ·) := by
  induction qs generalizing ps with
  | nil => simp
  | cons q qs ih =>
      rw [List.append_cons, ih (by simp), joinWith_snoc sep hp, List.flatMap_cons,
        List.append_assoc]

/-- Joined pieces: the first one, and each other one with the separator
in front. -/
theorem joinWith_cons_eq_append (sep : Char) (p : List Char) (ps : List (List Char)) :
    joinWith [sep] (p :: ps) = p ++ ps.flatMap (sep :: ·) :=
  joinWith_append sep (List.cons_ne_nil p []) ps

/-- Joined pieces put behind others without a separator: the last piece of
the ones takes the first of the others. -/
theorem joinWith_append_joinWith (sep : Char) (ps : List (List Char)) (q r : List Char)
    (rs : List (List Char)) :
    joinWith [sep] (ps ++ [q]) ++ joinWith [sep] (r :: rs)
      = joinWith [sep] (ps ++ [q ++ r] ++ rs) := by
  have hne : ps ++ [q ++ r] ≠ [] := by simp
  rw [joinWith_cons_eq_append, ← List.append_assoc, joinWith_append_last, joinWith_append sep hne]

/-- Pieces without the separator are cut apart as they were joined. -/
theorem splitOn_joinWith {pieces : List (List Char)} (hne : pieces ≠ [])
    (h : ∀ piece ∈ pieces, sep ∉ piece) : splitOn sep (joinWith [sep] pieces) = pieces := by
  induction pieces with
  | nil => exact absurd rfl hne
  | cons piece pieces ih =>
      have hpiece : splitOn sep piece = [piece] := splitOn_of_not_mem (h piece (by simp))
      cases pieces with
      | nil => exact hpiece
      | cons next pieces =>
          rw [joinWith_cons [sep] piece (by simp), List.append_assoc, List.singleton_append,
            splitOn_append, hpiece, ih (by simp) fun p hp => h p (List.mem_cons_of_mem piece hp)]
          rfl

/-- Pieces without the separator are told by the text they are joined to. -/
theorem joinWith_inj {ps qs : List (List Char)} (hp : ps ≠ []) (hq : qs ≠ [])
    (hps : ∀ p ∈ ps, sep ∉ p) (hqs : ∀ q ∈ qs, sep ∉ q) :
    joinWith [sep] ps = joinWith [sep] qs ↔ ps = qs := by
  refine ⟨fun h => ?_, congrArg _⟩
  rw [← splitOn_joinWith hp hps, h, splitOn_joinWith hq hqs]

/-! ### Beginnings -/

/-- A piece up to a separator is told by where the separator stands. -/
theorem append_singleton_prefix_iff {piece first : List Char} (hpiece : sep ∉ piece)
    (hfirst : sep ∉ first) (rest : List Char) :
    piece ++ [sep] <+: first ++ sep :: rest ↔ piece = first := by
  constructor
  · rintro ⟨tail, htail⟩
    rw [List.append_assoc, List.singleton_append] at htail
    have hcut := congrArg (splitOn sep) htail
    rw [splitOn_append, splitOn_append, splitOn_of_not_mem hpiece, splitOn_of_not_mem hfirst] at hcut
    exact (List.cons_eq_cons.mp hcut).1
  · rintro rfl
    exact ⟨rest, by simp⟩

/-- Joined pieces start with a piece and a separator if it is the first of
several ones. -/
theorem prefix_joinWith_iff {piece first : List Char} (hpiece : sep ∉ piece) (hfirst : sep ∉ first)
    (pieces : List (List Char)) :
    piece ++ [sep] <+: joinWith [sep] (first :: pieces) ↔ pieces ≠ [] ∧ piece = first := by
  cases pieces with
  | nil =>
      rw [joinWith, ne_self_iff_false, false_and, iff_false]
      exact fun h => hfirst (h.subset (by simp))
  | cons next pieces =>
      rw [joinWith_cons_eq_append, List.flatMap_cons, List.cons_append,
        append_singleton_prefix_iff hpiece hfirst]
      simp

/-- Joined pieces start with what the first one starts with. -/
theorem head_joinWith_iff {c : Char} (hc : c ≠ sep) (first : List Char)
    (pieces : List (List Char)) :
    (joinWith [sep] (first :: pieces)).head? = some c ↔ first.head? = some c := by
  rw [joinWith_cons_eq_append]
  cases first with
  | nil => cases pieces <;> simp [Ne.symm hc]
  | cons x first => rfl

/-- What follows a beginning. -/
theorem afterPrefix?_eq_some_iff {start cs rest : List Char} :
    afterPrefix? start cs = some rest ↔ cs = start ++ rest := by
  induction start generalizing cs with
  | nil => simp [afterPrefix?, eq_comm]
  | cons p ps ih =>
      cases cs with
      | nil => simp [afterPrefix?]
      | cons c cs =>
          rw [afterPrefix?]
          split
          · rename_i h
            simp [ih, h]
          · rename_i h
            simp [Ne.symm h]

end ScriptRefactor.Text
