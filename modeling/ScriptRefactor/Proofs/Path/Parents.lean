import ScriptRefactor.Proofs.Path.Names

/-!
# `ScriptRefactor.Proofs.Path.Parents`: the directories above a path

A text is cut at the separator behind which there is none
(`splitLast?_eq_some_iff`). So the directory that holds a path has all
segments but the last one (`parent_snoc`). On a path inside the project, a
name is joined behind the others (`join_ofNames`), and what the path is
under has names of its front (`exists_prefix_of_isUnder`).
-/

set_option autoImplicit false

namespace ScriptRefactor

namespace Text

variable {sep : Char} {cs before after : List Char}

/-- The pieces of a text, joined, are the text. -/
theorem joinWith_splitOn (sep : Char) (cs : List Char) : joinWith [sep] (splitOn sep cs) = cs := by
  induction cs with
  | nil => rfl
  | cons c cs ih =>
      rw [splitOn]
      split
      · rename_i hc
        rw [joinWith_cons [sep] [] (splitOn_ne_nil sep cs), ih, hc]
        rfl
      · -- The character goes to the front of the first piece.
        split
        · rename_i piece pieces hpieces
          rw [hpieces, joinWith_cons_eq_append] at ih
          rw [joinWith_cons_eq_append, List.cons_append, ih]
        · rename_i hnil
          exact absurd hnil (splitOn_ne_nil sep cs)

/-- Without the separator there is no last one. -/
theorem splitLast?_of_not_mem {cs : List Char} (h : sep ∉ cs) : splitLast? sep cs = none := by
  induction cs with
  | nil => rfl
  | cons c cs ih =>
      rw [List.mem_cons, not_or] at h
      rw [splitLast?, ih h.2]
      exact if_neg (Ne.symm h.1)

/-- The last separator is the one behind which there is none. -/
theorem splitLast?_append {after : List Char} (h : sep ∉ after) (before : List Char) :
    splitLast? sep (before ++ sep :: after) = some (before, after) := by
  induction before with
  | nil =>
      rw [List.nil_append, splitLast?, splitLast?_of_not_mem h]
      exact if_pos rfl
  | cons c before ih => rw [List.cons_append, splitLast?, ih]

/-- A text is not cut at a last separator exactly if it has none. -/
theorem splitLast?_eq_none_iff : splitLast? sep cs = none ↔ sep ∉ cs := by
  refine ⟨fun h => ?_, splitLast?_of_not_mem⟩
  induction cs with
  | nil => exact List.not_mem_nil
  | cons c cs ih =>
      rw [splitLast?] at h
      cases hrest : splitLast? sep cs with
      | some cut =>
          rw [hrest] at h
          cases h
      | none =>
          rw [hrest] at h
          dsimp only at h
          split at h
          · cases h
          · rename_i hc
            exact List.not_mem_cons_of_ne_of_not_mem (Ne.symm hc) (ih hrest)

/-- A text is cut at the separator behind which there is none. -/
theorem splitLast?_eq_some_iff :
    splitLast? sep cs = some (before, after) ↔ cs = before ++ sep :: after ∧ sep ∉ after := by
  refine ⟨fun h => ?_, fun ⟨hcs, hafter⟩ => hcs ▸ splitLast?_append hafter before⟩
  induction cs generalizing before with
  | nil => cases h
  | cons c cs ih =>
      rw [splitLast?] at h
      cases hrest : splitLast? sep cs with
      | some cut =>
          rw [hrest] at h
          cases h
          obtain ⟨hcs, hafter⟩ := ih hrest
          exact ⟨by rw [hcs, List.cons_append], hafter⟩
      | none =>
          rw [hrest] at h
          dsimp only at h
          split at h
          · rename_i hc
            cases h
            exact ⟨by rw [hc, List.nil_append], splitLast?_eq_none_iff.mp hrest⟩
          · cases h

end Text

namespace Path

open Text

variable {a b : List (List Char)} {n : List Char}

/-- The directory that holds a path has all segments but the last one. -/
theorem parent_snoc (hn : '/' ∉ n) (b : List (List Char)) :
    parent (ofNames (b ++ [n])) = ofNames b := by
  unfold parent
  rw [ofNames, String.toList_ofList]
  cases b with
  | nil =>
      rw [List.nil_append, joinWith, splitLast?_of_not_mem hn]
      rfl
  | cons m b => rw [joinWith_snoc '/' (List.cons_ne_nil m b), splitLast?_append hn, ofNames]

/-- The directory that holds a path has all names but the last one. -/
theorem parent_ofNames (hn : IsName n) : parent (ofNames (b ++ [n])) = ofNames b :=
  parent_snoc hn.2.1 b

/-- A name is joined behind the others. -/
theorem join_ofNames (hb : ∀ m ∈ b, IsName m) (hn : IsName n) :
    join (ofNames b) (String.ofList n) = ofNames (b ++ [n]) := by
  have hall : ∀ m ∈ b ++ [n], IsName m := List.forall_mem_append.mpr ⟨hb, by simpa using hn⟩
  rw [← normalize_ofNames hall, join]
  cases b with
  | nil => rfl
  | cons m b =>
      have hne : (ofNames (m :: b)).isEmpty = false := by
        rw [String.isEmpty_eq_false_iff, ofNames]
        exact fun h => joinWith_ne_nil (List.cons_ne_nil m b) hb (String.ofList_injective h)
      have htext : ofNames (m :: b) ++ "/" ++ String.ofList n = ofNames (m :: b ++ [n]) := by
        have hslash : "/" = String.ofList ['/'] := rfl
        rw [ofNames, ofNames, joinWith_snoc '/' (List.cons_ne_nil m b), hslash,
          ← String.ofList_append, ← String.ofList_append, List.append_assoc, List.singleton_append]
      rw [hne, htext]
      rfl

/-- What a path inside is under is a directory above it, or the path
itself. -/
theorem exists_prefix_of_isUnder (ha : ∀ m ∈ a, IsName m) {dir : String}
    (h : isUnder (ofNames a) dir = true) : ∃ b, b <+: a ∧ dir = ofNames b := by
  obtain ⟨rest, hrest⟩ := Option.isSome_iff_exists.mp h
  obtain ⟨htext, hends⟩ := below?_eq_some_iff.mp hrest
  rw [ofNames, String.toList_ofList] at htext
  rcases hends with rfl | rfl | hslash
  · exact ⟨[], List.nil_prefix, rfl⟩
  · refine ⟨a, List.prefix_rfl, ?_⟩
    rw [ofNames, htext, List.append_nil, String.ofList_toList]
  · -- The names in front of the separator are the pieces of the directory.
    obtain ⟨tail, rfl⟩ := List.head?_eq_some_iff.mp hslash
    have hane : a ≠ [] := by
      rintro rfl
      exact absurd (List.append_eq_nil_iff.mp htext.symm).2 (by simp)
    have hsplit := splitOn_joinWith_names hane ha
    rw [htext, splitOn_append] at hsplit
    refine ⟨splitOn '/' dir.toList, hsplit ▸ List.prefix_append _ _, ?_⟩
    rw [ofNames, joinWith_splitOn, String.ofList_toList]

/-- What is above a path within is within. -/
theorem Within.of_isUnder {path dir : String} (h : Within path) (hunder : isUnder path dir = true) :
    Within dir := by
  obtain ⟨names, hnames, rfl⟩ := h
  obtain ⟨b, hpre, rfl⟩ := exists_prefix_of_isUnder hnames hunder
  exact ⟨b, fun n hn => hnames n (hpre.subset hn), rfl⟩

/-- The directory that holds a path is the project, or inside. -/
theorem Inside.within_parent {path : String} (h : Inside path) : Within (parent path) := by
  obtain ⟨names, hne, hnames, rfl⟩ := h
  rw [← List.dropLast_concat_getLast hne] at hnames ⊢
  obtain ⟨hfront, hlast⟩ := List.forall_mem_append.mp hnames
  rw [parent_ofNames (hlast _ (by simp))]
  exact ⟨_, hfront, rfl⟩

/-- A path inside is under the directory that holds it, but not the other
way round. -/
theorem Inside.isUnder_parent {path : String} (h : Inside path) :
    isUnder path (parent path) = true ∧ isUnder (parent path) path = false := by
  obtain ⟨names, hne, hnames, rfl⟩ := h
  rw [← List.dropLast_concat_getLast hne] at hnames ⊢
  obtain ⟨hfront, hlast⟩ := List.forall_mem_append.mp hnames
  rw [parent_ofNames (hlast _ (by simp)), ← Bool.not_eq_true, isUnder_ofNames hnames hfront,
    isUnder_ofNames hfront hnames]
  refine ⟨List.prefix_append _ _, fun hpre => ?_⟩
  have hlength := hpre.length_le
  rw [List.length_append, List.length_singleton] at hlength
  omega

/-- What is above a path inside is above the directory that holds it, or
is that. -/
theorem isUnder_parent {path dir : String} (hpath : Inside path) (hne : dir ≠ path)
    (h : isUnder path dir = true) : isUnder (parent path) dir = true := by
  obtain ⟨names, hnames, hall, rfl⟩ := hpath
  obtain ⟨a, hpre, rfl⟩ := exists_prefix_of_isUnder hall h
  rw [← List.dropLast_concat_getLast hnames] at hall hpre hne ⊢
  obtain ⟨hfront, hlast⟩ := List.forall_mem_append.mp hall
  have ha := (List.prefix_concat_iff.mp hpre).resolve_left fun heq => hne (heq ▸ rfl)
  rw [parent_ofNames (hlast _ (by simp)),
    isUnder_ofNames hfront fun n hn => hfront n (ha.subset hn)]
  exact ha

end Path

end ScriptRefactor
