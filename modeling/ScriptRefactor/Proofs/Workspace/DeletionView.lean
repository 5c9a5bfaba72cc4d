import ScriptRefactor.Proofs.Workspace.OwnFiles

/-!
# `ScriptRefactor.Proofs.Workspace.DeletionView`: the view behind a deletion

A deletion takes away what is at its key and below, and nothing else
(`delete_hides_iff`), except in two ways:

* A directory that was moved below the key is still shown, and so is what it
  holds if the key itself is not recorded, since only files that were moved
  there seem to be at it (`Clears`).
* A file that was moved to the key or below is deleted where it came from. What
  was staged there since, or moved there, goes as well (`HidesBeside`).

Without directory moves the deletion always clears its key, and beside it only
a staged file can go, at the origin of a move.
-/

set_option autoImplicit false

namespace ScriptRefactor.Workspace

open ScriptRefactor.Path

/-- What is deleted behind a deletion of a key. -/
def deletedWith (w : Workspace) (d : Disk) (key : String) : List String :=
  w.deletions.keys ++ w.addedDeletions d key

/-- Something of its own stands at a key: a file that was not moved away, or a
directory. -/
def StandsOwn (w : Workspace) (d : Disk) (key : String) : Prop :=
  (w.isMoveOrigin key = false ∧ w.owns key d.isFile = true) ∨ w.owns key d.isDir = true

/-- A deletion of `p` clears `q`: if a directory was moved to `q`, then `q` is
deleted, and if something of its own stands there, `q` or a directory above it
is. -/
def Clears (w : Workspace) (d : Disk) (p q : String) : Prop :=
  ((∃ m ∈ w.dirMoves, m.2 = q) → q ∈ w.deletedWith d p) ∧
    (w.StandsOwn d q → ∃ k ∈ w.deletedWith d p, isUnder q k = true)

/-- A deletion of `p` hides `q` as well: a file that was moved to `p` or below
came from `q`, or from above `q` and nothing is staged there. -/
def HidesBeside (w : Workspace) (p q : String) : Prop :=
  ∃ m ∈ w.movedBelow p, isUnder q m.1 = true ∧ (m.1 = q ∨ q ∉ w.stagedFiles)

instance (w : Workspace) (d : Disk) (key : String) : Decidable (w.StandsOwn d key) :=
  inferInstanceAs (Decidable (_ ∨ _))

instance (w : Workspace) (d : Disk) (p q : String) : Decidable (w.Clears d p q) :=
  inferInstanceAs (Decidable (_ ∧ _))

instance (w : Workspace) (p q : String) : Decidable (w.HidesBeside p q) :=
  inferInstanceAs (Decidable (∃ m ∈ w.movedBelow p, _))

variable {w v : Workspace} {d : Disk} {p q : String}

/-! ### The workspace behind a deletion -/

/-- The origins of the files that were moved below the key are deleted with
it. -/
theorem mem_deletedWith_of_movedBelow {m : String × String} (hm : m ∈ w.movedBelow p) :
    m.1 ∈ w.deletedWith d p :=
  List.mem_append_right _ (mem_addedDeletions.mpr (.inl ⟨m, hm, rfl⟩))

/-- The workspace is that behind a deletion of a key. -/
structure Deleted (w : Workspace) (d : Disk) (p : String) (v : Workspace) : Prop where
  /-- What is staged below the key is dropped. -/
  dropped : ∃ deletions, v = { w.dropped p with deletions := deletions }
  /-- The deletions are recorded. -/
  deletions : ∀ k, k ∈ v.deletions.keys ↔ k ∈ w.deletedWith d p

/-- A deletion leads to such a workspace. -/
theorem deleted_apply (w : Workspace) (d : Disk) (path : String) (mode : DeleteMode) :
    w.Deleted d (w.key path) (w.apply d (.delete path mode)) := by
  obtain ⟨deletions, happly, hkeys⟩ := w.delete_eq d path mode
  have hv : w.apply d (.delete path mode)
      = { w.dropped (w.key path) with deletions := deletions } := happly
  refine ⟨⟨deletions, hv⟩, fun k => ?_⟩
  rw [hv, deletedWith, List.mem_append, mem_addedDeletions]
  exact hkeys k

namespace Deleted

variable (h : w.Deleted d p v)
include h

/-- The moves to the key and below it are dropped. -/
theorem mem_moves {m : String × String} :
    m ∈ v.moves ↔ m ∈ w.moves ∧ isUnder m.2 p = false := by
  obtain ⟨deletions, rfl⟩ := h.dropped
  show m ∈ w.moves.filter _ ↔ _
  rw [List.mem_filter, Bool.not_eq_true']

/-- The files staged at the key and below it are dropped. -/
theorem mem_stagedFiles : q ∈ v.stagedFiles ↔ q ∈ w.stagedFiles ∧ isUnder q p = false := by
  have htexts : q ∈ v.texts.keys ↔ q ∈ w.texts.keys ∧ isUnder q p = false := by
    obtain ⟨deletions, rfl⟩ := h.dropped
    show q ∈ (w.texts.filterKeys _).keys ↔ _
    rw [Table.mem_keys_filterKeys, Bool.not_eq_true']
  rw [mem_stagedFiles_iff, mem_stagedFiles_iff, htexts, or_and_right]
  refine or_congr_right ?_
  constructor
  · rintro ⟨m, hm, rfl⟩
    obtain ⟨hm, hout⟩ := h.mem_moves.mp hm
    exact ⟨⟨m, hm, rfl⟩, hout⟩
  · rintro ⟨⟨m, hm, rfl⟩, hout⟩
    exact ⟨m, h.mem_moves.mpr ⟨hm, hout⟩, rfl⟩

/-- The directories staged at the key and below it are dropped, but not the
moves of directories. -/
theorem mem_stagedDirs : q ∈ v.stagedDirs ↔
    (q ∈ w.dirs.toList ∧ isUnder q p = false) ∨ ∃ m ∈ w.dirMoves, m.2 = q := by
  obtain ⟨deletions, rfl⟩ := h.dropped
  show q ∈ (w.dirs.filter _).toList ++ w.dirMoves.map Prod.snd ↔ _
  rw [List.mem_append, KeySet.mem_filter, Bool.not_eq_true', List.mem_map]

/-- Keys have the same of their own. -/
theorem owns_eq (q : String) (holds : Place → Bool) : v.owns q holds = w.owns q holds := by
  obtain ⟨deletions, rfl⟩ := h.dropped
  rfl

/-- Where nothing is gone, no file was moved away but those that were before,
and those are. -/
theorem isMoveOrigin_eq (hkept : v.isGone q = false) : v.isMoveOrigin q = w.isMoveOrigin q := by
  rw [Bool.eq_iff_iff, isMoveOrigin, isMoveOrigin, List.any_eq_true, List.any_eq_true]
  constructor
  · rintro ⟨m, hm, heq⟩
    exact ⟨m, (h.mem_moves.mp hm).1, heq⟩
  · rintro ⟨m, hm, heq⟩
    cases hbelow : isUnder m.2 p with
    | false => exact ⟨m, h.mem_moves.mpr ⟨hm, hbelow⟩, heq⟩
    | true =>
        -- The origin of a dropped move is deleted.
        obtain rfl : m.1 = q := of_decide_eq_true heq
        have hdeleted := (h.deletions m.1).mpr
          (mem_deletedWith_of_movedBelow (List.mem_filter.mpr ⟨hm, hbelow⟩))
        exact absurd (isUnder_self m.1) (List.any_eq_false.mp hkept m.1 hdeleted)

/-- Nothing at a key or above it is gone if no deleted key is there. -/
theorem isGone_eq_false_iff :
    v.isGone q = false ↔ ¬ ∃ k ∈ w.deletedWith d p, isUnder q k = true := by
  rw [isGone, List.any_eq_false]
  simp only [h.deletions, not_exists, not_and]

/-! ### At the key and below -/

/-- Nothing is staged at the key or below it. -/
theorem not_staged {file : String} (hunder : isUnder file p = true) : file ∉ v.stagedFiles := by
  intro hmem
  have hout := (h.mem_stagedFiles.mp hmem).2
  rw [hunder] at hout
  cases hout

/-- A file that is left at the key or below it is the own one of a key. -/
theorem fileExists_below_iff (hunder : isUnder q p = true) :
    v.fileExists d q = true ↔
      v.isGone q = false ∧ w.isMoveOrigin q = false ∧ w.owns q d.isFile = true := by
  rw [fileExists_of_not_staged (h.not_staged hunder), h.owns_eq]
  exact and_congr_right fun hkept => by rw [h.isMoveOrigin_eq hkept]

/-- A directory that is left at the key or below it was moved there, or is the
own one of a key. -/
theorem dirExists_below_iff (hp : p ≠ "") (hunder : isUnder q p = true) :
    v.dirExists d q = true ↔ q ∉ w.deletedWith d p ∧ ((∃ m ∈ w.dirMoves, m.2 = q) ∨
      (v.isBelowDeletion q = false ∧ w.owns q d.isDir = true)) := by
  have hroot : q ≠ "" := by
    rintro rfl
    obtain ⟨rest, hrest⟩ := Option.isSome_iff_exists.mp hunder
    have hnil : p.toList = [] :=
      (List.append_eq_nil_iff.mp (below?_eq_some_iff.mp hrest).1.symm).1
    exact hp (String.toList_eq_nil_iff.mp hnil)
  have hfiles : ¬ ∃ file ∈ v.stagedFiles, file ≠ q ∧ isUnder file q = true :=
    fun ⟨file, hfile, _, hbelow⟩ => h.not_staged (isUnder_trans hbelow hunder) hfile
  have howns := onDisk_eq_owns (not_target_of_not_staged (h.not_staged hunder)) d.isDir
  rw [dirExists_eq_true_iff, or_iff_right hroot, h.deletions, h.mem_stagedDirs, hunder,
    or_iff_right hfiles, howns, h.owns_eq]
  simp

/-- What is at the key or below goes exactly if the deletion clears it. -/
theorem hidden_below_iff (hp : p ≠ "") (hunder : isUnder q p = true) :
    v.fileExists d q = false ∧ v.dirExists d q = false ↔ w.Clears d p q := by
  rw [← Bool.not_eq_true, ← Bool.not_eq_true, h.fileExists_below_iff hunder,
    h.dirExists_below_iff hp hunder, Clears, StandsOwn]
  have hgone := h.isGone_eq_false_iff (q := q)
  have hself : v.isGone q = false ↔ q ∉ w.deletedWith d p ∧ v.isBelowDeletion q = false := by
    rw [Workspace.isGone_eq_false_iff, h.deletions]
  -- What is left there is a directory that was moved, or stands on disk and is not gone.
  constructor
  · rintro ⟨hfile, hdir⟩
    refine ⟨fun hmoved => ?_, fun hstands => ?_⟩
    · by_contra hkept
      exact hdir ⟨hkept, .inl hmoved⟩
    · by_contra hnone
      have hkept := hgone.mpr hnone
      rcases hstands with hown | hown
      · exact hfile ⟨hkept, hown⟩
      · obtain ⟨hnot, hbelow⟩ := hself.mp hkept
        exact hdir ⟨hnot, .inr ⟨hbelow, hown⟩⟩
  · rintro ⟨hmoved, hstands⟩
    refine ⟨fun ⟨hkept, hown⟩ => hgone.mp hkept (hstands (.inl hown)), ?_⟩
    rintro ⟨hnot, hdir | ⟨hbelow, hown⟩⟩
    · exact hnot (hmoved hdir)
    · exact hgone.mp (hself.mpr ⟨hnot, hbelow⟩) (hstands (.inr hown))

/-! ### Beside the key -/

omit h in
/-- Of what is not below the key, only the origins of the files that were moved
there are deleted with it. -/
theorem mem_deletedWith_beside {k : String} (hout : isUnder q p = false)
    (hunder : isUnder q k = true) : k ∈ w.deletedWith d p ↔
      k ∈ w.deletions.keys ∨ ∃ m ∈ w.movedBelow p, m.1 = k := by
  rw [deletedWith, List.mem_append, mem_addedDeletions, Deletes]
  have hkp : k ≠ p := by
    rintro rfl
    rw [hunder] at hout
    cases hout
  simp [hkp]

/-- Beside the key, the files that were there are there, but for those that are
hidden as well. -/
theorem fileExists_beside_iff (hout : isUnder q p = false) :
    v.fileExists d q = true ↔ w.fileExists d q = true ∧ ¬ w.HidesBeside p q := by
  -- A staged file is hidden by a deletion of its key only, another one also by one above it.
  by_cases hstaged : q ∈ w.stagedFiles
  · have hstill : q ∈ v.stagedFiles := h.mem_stagedFiles.mpr ⟨hstaged, hout⟩
    rw [fileExists_of_staged hstill, fileExists_of_staged hstaged, h.deletions,
      mem_deletedWith_beside hout (isUnder_self q), not_or, HidesBeside]
    refine and_congr_right fun _ => not_congr (exists_congr fun m => and_congr_right fun _ => ?_)
    constructor
    · rintro rfl
      exact ⟨isUnder_self _, .inl rfl⟩
    · rintro ⟨-, heq | hnot⟩
      · exact heq
      · exact absurd hstaged hnot
  · have hstill : q ∉ v.stagedFiles := fun hmem => hstaged (h.mem_stagedFiles.mp hmem).1
    have hgone : v.isGone q = false ↔ w.isGone q = false ∧ ¬ w.HidesBeside p q := by
      rw [h.isGone_eq_false_iff, isGone, List.any_eq_false, HidesBeside]
      constructor
      · intro hnone
        refine ⟨fun k hk hunder => hnone ⟨k, List.mem_append_left _ hk, hunder⟩, ?_⟩
        rintro ⟨m, hm, hunder, -⟩
        exact hnone ⟨m.1, mem_deletedWith_of_movedBelow hm, hunder⟩
      · rintro ⟨hkept, hhides⟩ ⟨k, hk, hunder⟩
        obtain hk | ⟨m, hm, rfl⟩ := (mem_deletedWith_beside hout hunder).mp hk
        · exact hkept k hk hunder
        · exact hhides ⟨m, hm, hunder, .inr hstaged⟩
    rw [fileExists_of_not_staged hstill, fileExists_of_not_staged hstaged, h.owns_eq]
    constructor
    · rintro ⟨hkept, hstays⟩
      obtain ⟨hwas, hhides⟩ := hgone.mp hkept
      rw [h.isMoveOrigin_eq hkept] at hstays
      exact ⟨⟨hwas, hstays⟩, hhides⟩
    · rintro ⟨⟨hwas, hstays⟩, hhides⟩
      have hkept := hgone.mpr ⟨hwas, hhides⟩
      rw [h.isMoveOrigin_eq hkept]
      exact ⟨hkept, hstays⟩

/-- Beside the key, a file that is not hidden is as before, and says the
same. -/
theorem same_beside (hout : isUnder q p = false) (hhides : ¬ w.HidesBeside p q) :
    v.fileExists d q = w.fileExists d q ∧ v.textOf d q = w.textOf d q := by
  have hexists : v.fileExists d q = w.fileExists d q := by
    rw [Bool.eq_iff_iff, h.fileExists_beside_iff hout, and_iff_left hhides]
  obtain ⟨deletions, rfl⟩ := h.dropped
  refine ⟨hexists, textOf_congr rfl rfl hexists ?_ ?_⟩
  · show (w.texts.filterKeys _).find? q = _
    rw [Table.find?_filterKeys, if_pos (by simp [hout])]
  · -- The first move to the key is kept.
    have hfind : (w.dropped p).moves.find? (fun m => m.2 = q)
        = w.moves.find? fun m => m.2 = q := by
      show (w.moves.filter fun m => !isUnder m.2 p).find? _ = _
      rw [List.find?_filter]
      refine List.find?_congr fun m hm => ?_
      by_cases hm : m.2 = q
      · simp [hm, hout]
      · simp [hm]
    unfold diskKey?
    dsimp only
    rw [hfind]
    rfl

end Deleted

/-! ### Without directory moves -/

namespace FileMovesOnly

variable (h : FileMovesOnly d w) (hd : d.IsTree) (hq : Within q)
include h hd hq

/-- Where only files are moved, a deletion clears its key and all below. -/
theorem clears (hunder : isUnder q p = true) : w.Clears d p q := by
  have hnone : ¬ ∃ m ∈ w.dirMoves, m.2 = q := by
    rw [h.dirMoves]
    simp
  refine ⟨fun hmoved => absurd hmoved hnone, fun hstands => ?_⟩
  have hthere : d.occupied (w.place q) = true := by
    rw [StandsOwn, h.owns_eq, h.owns_eq] at hstands
    rcases hstands with ⟨-, hfile⟩ | hdir
    · exact Disk.occupied_of_isFile hfile
    · exact Disk.occupied_of_isDir hdir
  cases honly : w.holdsOnlyMoved d p with
  | false =>
      have hmem : p ∈ w.deletedWith d p :=
        List.mem_append_right _ (mem_addedDeletions.mpr (.inr ⟨rfl, honly⟩))
      exact ⟨p, hmem, hunder⟩
  | true =>
      -- Then the key is the origin of a move, or nothing stands there.
      have hstays : (w.dropped p).staysOnDisk d p = false := by
        simpa using (Bool.and_eq_true_iff.mp honly).2
      have hnotarget : ∀ m ∈ (w.dropped p).moves, m.2 ≠ p := by
        rintro m hm rfl
        simpa [isUnder_self] using (List.mem_filter.mp hm).2
      rw [staysOnDisk, onDisk_eq_owns hnotarget, Bool.and_eq_false_iff,
        Bool.not_eq_false'] at hstays
      rcases hstays with horigin | hempty
      · obtain ⟨m, hm, heq⟩ := List.any_eq_true.mp horigin
        obtain rfl : m.1 = p := of_decide_eq_true heq
        have hm := (List.mem_filter.mp hm).1
        obtain rfl := h.eq_of_isUnder_origin hd hm hq hunder hthere
        -- What stands there is a file, which was moved away.
        rcases hstands with ⟨hstays, -⟩ | hdir
        · exact absurd rfl ((isMoveOrigin_eq_false_iff m.1).mp hstays m hm)
        · rw [h.owns_eq, Disk.isDir_eq_false_of_isFile (h.files m hm)] at hdir
          cases hdir
      · have hp := hq.of_isUnder hunder
        have hbelow := hd.occupied_of_prefix ((w.prefix_place_iff hq hp).mpr hunder) hthere
        exact absurd ((h.owns_eq p d.occupied).trans hbelow) (Bool.eq_false_iff.mp hempty)

/-- Where only files are moved, a file beside a deletion is hidden only at the
origin of a file that was moved there, where another one was staged. -/
theorem staged_of_hidesBeside (hhides : w.HidesBeside p q) (hexists : w.fileExists d q = true) :
    q ∈ w.stagedFiles ∧ ∃ m ∈ w.movedBelow p, m.1 = q := by
  obtain ⟨m, hm, hunder, horigin⟩ := hhides
  have hmoves := (List.mem_filter.mp hm).1
  by_cases hstaged : q ∈ w.stagedFiles
  · exact ⟨hstaged, m, hm, horigin.resolve_right (not_not_intro hstaged)⟩
  · -- The own file of the key stands at the origin of the move or below, and was moved away.
    obtain ⟨-, hstays, hfile⟩ := (fileExists_of_not_staged hstaged).mp hexists
    rw [h.owns_eq] at hfile
    have heq := h.eq_of_isUnder_origin hd hmoves hq hunder (Disk.occupied_of_isFile hfile)
    exact absurd heq.symm ((isMoveOrigin_eq_false_iff q).mp hstays m hmoves)

end FileMovesOnly

/-! ### The deletion -/

/-- **A deletion takes away exactly its key and what is below, where it clears
that and hides nothing beside.** Take any workspace, any disk and a path that
is not the root of the project. Behind a deletion neither a file nor a
directory is at a key at the deleted one or below exactly if the deletion
clears it. No file is at another key that the deletion hides as well; at every
other key the file is as before, and says the same.

In a state of a run without directory moves, over a disk that is a tree, a
deletion clears all keys at and below its own, and the only files that it hides
beside are staged ones, each at the origin of a file that was moved to the
deleted key or below. -/
theorem delete_hides_iff (d : Disk) (w : Workspace) (path : String) (mode : DeleteMode) :
    let p := w.key path
    let w' := w.apply d (.delete path mode)
    p ≠ "" →
    (∀ q, isUnder q p = true →
      (w'.fileExists d q = false ∧ w'.dirExists d q = false ↔ w.Clears d p q)) ∧
    (∀ q, isUnder q p = false →
      (w.HidesBeside p q → w'.fileExists d q = false) ∧
      (¬ w.HidesBeside p q →
        w'.fileExists d q = w.fileExists d q ∧ w'.textOf d q = w.textOf d q)) ∧
    ∀ (root : String) (settings : Settings) (filter : PathFilter) (calls : List Call),
      d.IsTree → w = (ofFilter root settings filter).run d calls →
      (∀ c ∈ calls, c.isDirMove = false) →
      ∀ q, Within q → (isUnder q p = true → w.Clears d p q) ∧
        (w.HidesBeside p q → w.fileExists d q = true →
          q ∈ w.stagedFiles ∧ ∃ m ∈ w.movedBelow p, m.1 = q) := by
  intro p w' hp
  have h : w.Deleted d p w' := deleted_apply w d path mode
  refine ⟨fun q hunder => h.hidden_below_iff hp hunder, fun q hout => ⟨fun hhides => ?_, ?_⟩,
    fun root settings filter calls hd hw hcalls q hq => ?_⟩
  · rw [← Bool.not_eq_true, h.fileExists_beside_iff hout]
    exact fun hexists => hexists.2 hhides
  · exact h.same_beside hout
  · have hmoves : FileMovesOnly d w := by
      rw [hw]
      exact (FileMovesOnly.ofFilter d root settings filter).run hcalls
    exact ⟨hmoves.clears hd hq, hmoves.staged_of_hidesBeside hd hq⟩

/-- A file is moved into the directory, another one out of it, and a directory
is staged there. -/
def filledUp : List Call :=
  [.moveFile "a" "s/a", .moveFile "s/x.js" "x.js", .save "x.js" "new\n", .mkdir "s/n"]

/-- Deleted then, the directory is gone with all that it holds, and the other
files stay. -/
theorem delete_hides_iff_filledUp :
    let w := (ofFilter "/root" Settings.default PathFilter.showAll).run filesAndDir filledUp
    let w' := w.apply filesAndDir (.delete "s/" .warn)
    (∀ q ∈ ["s", "s/a", "s/x.js", "s/n"],
      w'.fileExists filesAndDir q = false ∧ w'.dirExists filesAndDir q = false) ∧
      w'.textOf filesAndDir "x.js" = .ok "new\n" ∧
      w'.textOf filesAndDir "b" = .ok "b\n" ∧ w'.fileExists filesAndDir "a" = false := by
  intro w w'
  have hkey : w.key "s/" = "s" := by decide +kernel
  obtain ⟨hbelow, hbeside, hruns⟩ := delete_hides_iff filesAndDir w "s/" .warn (by decide +kernel)
  rw [hkey] at hbelow hbeside hruns
  have hclears := hruns "/root" Settings.default PathFilter.showAll filledUp (by decide +kernel) rfl
    (by decide +kernel)
  refine ⟨fun q hq => ?_, ?_, ?_, ?_⟩
  · have hkeys : ∀ q ∈ ["s", "s/a", "s/x.js", "s/n"], isUnder q "s" = true ∧
        w.key q = q ∧ w.key q ≠ "" ∧ leaves (w.key q) = false := by decide +kernel
    obtain ⟨hunder, hself, hne, hleaves⟩ := hkeys q hq
    have hwithin : Within q := hself ▸ (inside_key hne hleaves).within
    exact (hbelow q hunder).mpr ((hclears q hwithin).1 hunder)
  · exact ((hbeside "x.js" (by decide +kernel)).2 (by decide +kernel)).2.trans (by decide +kernel)
  · exact ((hbeside "b" (by decide +kernel)).2 (by decide +kernel)).2.trans (by decide +kernel)
  · exact (hbeside "a" (by decide +kernel)).1 (by decide +kernel)

/-- A file is moved away and a new text saved where it was. When the moved file
is deleted, the new text is lost: the deletion is recorded for the key where it
was saved. -/
theorem delete_of_moved_file_hides_saved_text :
    let w := (ofFilter "/root" Settings.default PathFilter.showAll).run filesAndDir
      [.moveFile "a" "m", .save "a" "new\n"]
    let w' := w.apply filesAndDir (.delete "m" .warn)
    isUnder "a" "m" = false ∧ w.textOf filesAndDir "a" = .ok "new\n" ∧
      w'.fileExists filesAndDir "a" = false := by
  decide +kernel

/-- A directory was moved into the deleted one, alone or with a file: it is
still shown, and with a file so is what it holds. -/
theorem delete_leaves_moved_directory :
    let new := ofFilter "/root" Settings.default PathFilter.showAll
    let w := new.run filesAndDir [.moveDir "s" "t/s", .delete "t" .warn]
    let v := new.run filesAndDir [.moveDir "s" "t/s", .moveFile "a" "t/a", .delete "t" .warn]
    w.dirExists filesAndDir "t/s" = true ∧ w.fileExists filesAndDir "t/s/x.js" = false ∧
      v.dirExists filesAndDir "t/s" = true ∧
      v.textOf filesAndDir "t/s/x.js" = .ok "x\n" := by
  decide +kernel

end ScriptRefactor.Workspace
