import ScriptRefactor.Proofs.LineDiff.Chunks

/-!
# `ScriptRefactor.Proofs.LineDiff.Unified`: differences that are empty

The unified difference of two texts is empty just if they are equal
(`unified_eq_empty_iff`). Lines are left out of it only around and between the
changes: every hunk that changes lines is in one of its groups
(`exists_mem_groups`), and a group is only left out if it is a single run of
shared lines.
-/

set_option autoImplicit false

namespace ScriptRefactor.LineDiff

variable {old new : Array String} {h : Hunk} {hs group : List Hunk} {bs : List Block}

/-! ### Groups -/

/-- What keeps the hunks that change lines keeps them at the front. -/
theorem mem_changeFirst {f : Hunk → Hunk} (hf : f h = h) (hmem : h ∈ hs) :
    h ∈ changeFirst f hs := by
  cases hs with
  | nil => exact hmem
  | cons first hs =>
      obtain rfl | hmem := List.mem_cons.mp hmem
      · exact List.mem_cons.mpr (.inl hf.symm)
      · exact List.mem_cons_of_mem _ hmem

/-- What keeps the hunks that change lines keeps them at the end. -/
theorem mem_changeLast {f : Hunk → Hunk} (hf : f h = h) (hmem : h ∈ hs) :
    h ∈ changeLast f hs := by
  fun_induction changeLast f hs with
  | case1 => exact hmem
  | case2 last =>
      obtain rfl := List.mem_singleton.mp hmem
      exact List.mem_singleton.mpr hf.symm
  | case3 first hs hne ih =>
      obtain rfl | hmem := List.mem_cons.mp hmem
      · exact List.mem_cons_self
      · exact List.mem_cons_of_mem _ (ih hmem)

/-- A hunk that changes lines is in a group, be it in the one begun or
still to come. -/
theorem exists_mem_groupFrom (hchange : h.isSame = false) (hmem : h ∈ group ∨ h ∈ hs) :
    ∃ g ∈ groupFrom group hs, h ∈ g := by
  fun_induction groupFrom group hs with
  -- At the end the group begun is left out only if nothing in it changes.
  | case1 group hsame =>
      obtain hmem | hmem := hmem
      · have hall := List.all_eq_true.mp (Bool.and_eq_true_iff.mp hsame).1 h hmem
        rw [hchange] at hall
        cases hall
      · exact absurd hmem List.not_mem_nil
  | case2 group hsame =>
      refine ⟨_, List.mem_singleton_self _, List.mem_reverse.mpr ?_⟩
      exact hmem.resolve_right List.not_mem_nil
  -- A long stretch of equal lines closes the group, and the hunk is in it or behind.
  | case3 group o length hs hlong ih =>
      obtain hmem | hmem := hmem
      · exact ⟨_, List.mem_cons_self, List.mem_reverse.mpr (List.mem_cons_of_mem _ hmem)⟩
      · obtain rfl | hmem := List.mem_cons.mp hmem
        · cases hchange
        · obtain ⟨g, hg, hh⟩ := ih (.inr hmem)
          exact ⟨g, List.mem_cons_of_mem _ hg, hh⟩
  -- A short one, and a hunk that changes lines, are taken into the group begun.
  | case4 group o length hs hshort ih =>
      obtain hmem | hmem := hmem
      · exact ih (.inl (List.mem_cons_of_mem _ hmem))
      · obtain rfl | hmem := List.mem_cons.mp hmem
        · cases hchange
        · exact ih (.inr hmem)
  | case5 group first hs hne ih =>
      obtain hmem | hmem := hmem
      · exact ih (.inl (List.mem_cons_of_mem _ hmem))
      · obtain rfl | hmem := List.mem_cons.mp hmem
        · exact ih (.inl List.mem_cons_self)
        · exact ih (.inr hmem)

/-- Every hunk that changes lines is shown. -/
theorem exists_mem_groups (hchange : h.isSame = false) (hmem : h ∈ hs) :
    ∃ g ∈ groups hs, h ∈ g := by
  have hkeep (n : Nat) : Hunk.tail n h = h ∧ Hunk.front n h = h := by
    cases h with
    | same o length => cases hchange
    | change o deleted n inserted => exact ⟨rfl, rfl⟩
  exact exists_mem_groupFrom hchange
    (.inr (mem_changeLast (hkeep context).2 (mem_changeFirst (hkeep context).1 hmem)))

/-- Shared lines alone are not shown. -/
theorem groups_same (o length : Nat) : groups [.same o length] = [] := by
  have hshort : ¬ 2 * context < min (min length context) context := by
    have := Nat.min_le_right (min length context) context
    omega
  rw [groups, changeFirst, Hunk.tail, changeLast, Hunk.front, groupFrom, if_neg hshort, groupFrom]
  rfl

/-- A text has no groups against itself. -/
theorem groups_hunks_self (text : Array String) : groups (hunks text text) = [] := by
  obtain hnone | ⟨o, length, hone⟩ := hunks_self text
  · rw [hnone]
    rfl
  · rw [hone]
    exact groups_same o length

/-! ### The difference as a text -/

/-- A shown line is not empty: it starts with its sign. -/
theorem unifiedLine_ne_empty (line : Tag × String) : unifiedLine line ≠ "" := by
  rw [unifiedLine]
  intro hempty
  have hsign := (String.append_eq_empty_iff.mp (String.append_eq_empty_iff.mp hempty).1).1
  have hsigns : ∀ tag : Tag, sign tag ≠ "" := by
    intro tag
    cases tag <;> decide
  exact hsigns line.1 hsign

/-- Texts that make nothing are empty. -/
theorem eq_empty_of_join {texts : List String} (h : String.join texts = "") :
    ∀ text ∈ texts, text = "" := by
  induction texts with
  | nil => simp
  | cons text texts ih =>
      rw [String.join_cons] at h
      obtain ⟨htext, htexts⟩ := String.append_eq_empty_iff.mp h
      exact List.forall_mem_cons.mpr ⟨htext, ih htexts⟩

/-- So are texts that make nothing with something between them. -/
theorem eq_empty_of_intercalate {between : String} {texts : List String}
    (h : between.intercalate texts = "") : ∀ text ∈ texts, text = "" := by
  induction texts with
  | nil => simp
  | cons text texts ih =>
      cases texts with
      | nil => simpa using h
      | cons next texts =>
          rw [String.intercalate_cons_of_ne_nil (List.cons_ne_nil next texts)] at h
          obtain ⟨hfront, hrest⟩ := String.append_eq_empty_iff.mp h
          exact List.forall_mem_cons.mpr ⟨(String.append_eq_empty_iff.mp hfront).1, ih hrest⟩

/-- Without a shown line, all lines are shared. -/
theorem equal_of_unified_eq_empty {old new : String} (hempty : unified old new = "") :
    ∀ line ∈ (hunks (tokenize old) (tokenize new)).flatMap
      (Hunk.lines (tokenize old) (tokenize new)), line.1 = .equal := by
  intro line hline
  obtain ⟨h, hmem, hline⟩ := List.mem_flatMap.mp hline
  cases hsame : h.isSame with
  | true =>
      cases h with
      | same o length =>
          obtain ⟨value, -, rfl⟩ := List.mem_map.mp hline
          rfl
      | change o deleted n inserted => cases hsame
  | false =>
      obtain ⟨g, hg, hh⟩ := exists_mem_groups hsame hmem
      rw [unified] at hempty
      have hgroup := eq_empty_of_intercalate hempty _ (List.mem_map.mpr ⟨g, hg, rfl⟩)
      have hshown := eq_empty_of_join hgroup (unifiedLine line)
        (List.mem_map.mpr ⟨line, List.mem_flatMap.mpr ⟨h, hh, hline⟩, rfl⟩)
      exact absurd hshown (unifiedLine_ne_empty line)

/-- **A unified difference is empty just if the texts are equal.** -/
theorem unified_eq_empty_iff (old new : String) : unified old new = "" ↔ old = new := by
  refine ⟨fun hempty => ?_, ?_⟩
  · -- With shared lines only, both texts are made of all of them.
    have hequal := equal_of_unified_eq_empty hempty
    obtain ⟨hold, hnew⟩ := lines_hunks (tokenize old) (tokenize new)
    generalize (hunks (tokenize old) (tokenize new)).flatMap _ = lines at hequal hold hnew
    have hall (tag : Tag) (htag : tag ≠ .equal) : without tag lines = lines.map Prod.snd := by
      rw [without, List.filter_eq_self.mpr fun line hline =>
        decide_eq_true (hequal line hline ▸ htag.symm)]
    rw [hall _ (by decide)] at hold hnew
    have hjoin := congrArg String.join (hold.symm.trans hnew)
    rwa [join_tokenize, join_tokenize] at hjoin
  · rintro rfl
    rw [unified, groups_hunks_self]
    rfl

end ScriptRefactor.LineDiff
