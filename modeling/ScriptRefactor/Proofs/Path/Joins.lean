import ScriptRefactor.Proofs.Path.Canonical

/-!
# `ScriptRefactor.Proofs.Path.Joins`: paths joined one after the other

To join a relative path to a directory is to walk on from where the
directory ends (`exists_join`), and the empty directory is one where nothing
was walked yet. A walk forgets nothing when what it kept is written down as
a path in between and walked again (`walk_normalize_self`), be it from the
root of the file system, where steps up are lost, or from the project, where
they pile up in front. So it does not matter which of several paths are
joined first (`join_assoc`).
-/

set_option autoImplicit false

namespace ScriptRefactor.Path

open Text

variable {path base mid rest : String} {names : List (List Char)}

/-! ### Walks through normal forms -/

/-- A normal form starts at the root exactly if the path does. -/
theorem startsAtRoot_normalize (path : String) :
    startsAtRoot (normalize path) = startsAtRoot path := by
  rw [← isFromRoot_normalize, normalize_normalize, isFromRoot_normalize]

/-- A walk from the root through names keeps them. -/
theorem walk_ofRoot (h : ∀ s ∈ names, IsName s) : walk true [] (ofRoot names) = names.reverse := by
  have hback : '\\' ∉ '/' :: joinWith ['/'] names := by
    rw [List.mem_cons, not_or]
    exact ⟨by decide, (mem_joinWith_names h).1⟩
  have hcut : splitOn '/' ('/' :: joinWith ['/'] names) =
      [] :: splitOn '/' (joinWith ['/'] names) := splitOn_append '/' [] _
  rw [walk, ofRoot, String.toList_ofList, map_separator hback, hcut, List.foldl_cons,
    keepSegment_of_idle (.inl rfl), foldl_keepSegment_splitOn true h, List.append_nil]

/-- What a path keeps of its segments, its normal form keeps. -/
theorem walk_normalize_self (path : String) :
    walk (startsAtRoot path) [] (normalize path) = walk (startsAtRoot path) [] path := by
  cases hroot : startsAtRoot path with
  | false => exact walk_normalize hroot false []
  | true =>
      obtain ⟨names, n, hnames, hups, hkept⟩ := exists_names_of_foldl_keepSegment true
        (splitOn '/' (path.toList.map separator)) fun s => not_mem_of_mem_splitOn_separator
      have hwalk : walk true [] path = names := by
        rw [walk, hkept, hups rfl]
        exact List.append_nil names
      rw [normalize_eq_walk, hroot, if_pos rfl, hwalk, walk_ofRoot, List.reverse_reverse]
      exact fun s hs => hnames s (List.mem_reverse.mp hs)

/-- Paths that start alike and keep the same segments have one normal
form. -/
theorem normalize_congr {other : String} (hroot : startsAtRoot path = startsAtRoot other)
    (hwalk : walk (startsAtRoot other) [] path = walk (startsAtRoot other) [] other) :
    normalize path = normalize other := by
  rw [normalize_eq_walk, normalize_eq_walk, hroot]
  split
  · rename_i hother
    rw [hother] at hwalk
    rw [hwalk]
  · rename_i hother
    rw [Bool.not_eq_true] at hother
    rw [hother] at hwalk
    rw [hwalk]

/-! ### Joins -/

/-- A join is the normal form of a path that starts where the directory
starts and is walked through after it. -/
theorem exists_join (base : String) (h : startsAtRoot rest = false) :
    ∃ path, join base rest = normalize path ∧ startsAtRoot path = startsAtRoot base ∧
      ∀ fromRoot kept, walk fromRoot kept path = walk fromRoot (walk fromRoot kept base) rest := by
  unfold join
  split
  · -- Nothing is kept of the empty directory.
    rename_i hempty
    obtain rfl := String.isEmpty_iff.mp hempty
    exact ⟨rest, rfl, h, fun _ _ => rfl⟩
  · rename_i hbase
    have hne : base ≠ "" := fun hempty => hbase (String.isEmpty_iff.mpr hempty)
    exact ⟨base ++ "/" ++ rest, rfl, startsAtRoot_append hne rest,
      fun fromRoot kept => walk_append fromRoot kept base rest⟩

/-- The normal form of a directory leads where the directory leads. -/
theorem normalize_join (base : String) (h : startsAtRoot rest = false) :
    join (normalize base) rest = join base rest := by
  obtain ⟨path, hpath, hroot, hwalk⟩ := exists_join (normalize base) h
  obtain ⟨other, hother, hroot', hwalk'⟩ := exists_join base h
  rw [hpath, hother]
  refine normalize_congr (hroot.trans ((startsAtRoot_normalize base).trans hroot'.symm)) ?_
  rw [hwalk, hwalk', hroot', walk_normalize_self]

/-- The first two or the last two of three paths may be joined first. -/
theorem join_join (base : String) (hmid : startsAtRoot mid = false)
    (hrest : startsAtRoot rest = false) :
    join (join base mid) rest = join base (join mid rest) := by
  obtain ⟨front, hfront, hrootFront, hwalkFront⟩ := exists_join base hmid
  obtain ⟨back, hback, hrootBack, hwalkBack⟩ := exists_join mid hrest
  have hrelative : startsAtRoot back = false := hrootBack.trans hmid
  obtain ⟨left, hleft, hrootLeft, hwalkLeft⟩ := exists_join front hrest
  obtain ⟨right, hright, hrootRight, hwalkRight⟩ := exists_join base hrelative
  rw [hfront, hback, normalize_join front hrest, join_normalize hrelative, hleft, hright]
  refine normalize_congr (hrootLeft.trans (hrootFront.trans hrootRight.symm)) ?_
  rw [hwalkLeft, hwalkFront, hwalkRight, hwalkBack]

/-- With the empty path joined to it, a directory is in normal form. -/
theorem join_empty (base : String) : join base "" = normalize base := by
  obtain ⟨path, hpath, hroot, hwalk⟩ := @exists_join "" base rfl
  rw [hpath]
  exact normalize_congr hroot (hwalk _ _)

/-- **Joining is associative.** Of three paths, of which only the first may
start at the root of the file system, the first two or the last two may be
joined first, however far they go up and whatever is empty in between. The
empty path joined to a directory is the directory in normal form. -/
theorem join_assoc (base : String) :
    (∀ mid rest, startsAtRoot mid = false → startsAtRoot rest = false →
      join (join base mid) rest = join base (join mid rest)) ∧
    join base "" = normalize base :=
  ⟨fun _ _ => join_join base, join_empty base⟩

/-- The way out of a directory and further up is the same, whichever part of
it is walked first; from the root of the file system it stays there. -/
theorem join_assoc_upwards :
    join (join "src" "a/../..") "../x" = join "src" (join "a/../.." "../x") ∧
      join (join "src" "a/../..") "../x" = "../x" ∧
      join (join "/a" "../..") ".." = join "/a" (join "../.." "..") ∧
      join (join "/a" "../..") ".." = "/" ∧ join "src/." "" = normalize "src/." :=
  ⟨(join_assoc "src").1 _ _ (by decide) (by decide), by decide,
    (join_assoc "/a").1 _ _ (by decide) (by decide), by decide, (join_assoc "src/.").2⟩

end ScriptRefactor.Path
