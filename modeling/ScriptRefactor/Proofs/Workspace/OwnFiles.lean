import ScriptRefactor.Proofs.Workspace.FlushFinds

/-!
# `ScriptRefactor.Proofs.Workspace.OwnFiles`: what keys have of their own

A key to which no file was moved shows what the directory moves brought
there: what it has of its own. Neither a file move nor a staged text or
deletion changes that, so the files that a call brings to light or hides can
be told from the deletions, the moved keys and the staged files alone
(`fileExists_iff_owns`).

As long as no directory is moved, what a key has of its own is what stands at
its place, and files are moved away from files only (`FileMovesOnly`).
-/

set_option autoImplicit false

namespace ScriptRefactor

/-- The call moves a directory. -/
def Call.isDirMove : Call → Bool
  | .moveDir .. => true
  | _ => false

namespace Workspace

open ScriptRefactor.Path

/-- What a key has of its own has the property `p`: what stands on disk
where the directory moves took the key from. -/
def owns (w : Workspace) (key : String) (p : Place → Bool) : Bool :=
  (beforeDirMoves w.dirMoves.reverse key).any fun k => p (w.place k)

variable {w v : Workspace} {d : Disk} {key : String}

/-! ### The view of own files -/

/-- Where no file was moved to, a key stands for its own. -/
theorem onDisk_eq_owns (h : ∀ m ∈ w.moves, m.2 ≠ key) (p : Place → Bool) :
    w.onDisk key p = w.owns key p := by
  rw [onDisk, diskKey?_of_not_target h, owns]
  cases beforeDirMoves w.dirMoves.reverse key <;> rfl

/-- A key that is not staged is the target of no move. -/
theorem not_target_of_not_staged (h : key ∉ w.stagedFiles) : ∀ m ∈ w.moves, m.2 ≠ key := by
  rintro m hm rfl
  exact h (List.mem_append_right _ (List.mem_map_of_mem hm))

/-- A staged file has a text or is the target of a move. -/
theorem mem_stagedFiles_iff :
    key ∈ w.stagedFiles ↔ key ∈ w.texts.keys ∨ ∃ m ∈ w.moves, m.2 = key := by
  rw [stagedFiles, List.mem_append, List.mem_map]

/-- There is a file that is staged, or the own one of the key that was
neither deleted nor moved away. -/
theorem fileExists_iff_owns :
    w.fileExists d key = true ↔ key ∉ w.deletions.keys ∧ (key ∈ w.stagedFiles ∨
      (w.isBelowDeletion key = false ∧ w.isMoveOrigin key = false
        ∧ w.owns key d.isFile = true)) := by
  rw [fileExists_eq_true_iff]
  refine and_congr_right fun _ => ?_
  by_cases hstaged : key ∈ w.stagedFiles
  · exact iff_of_true (.inl hstaged) (.inl hstaged)
  · rw [onDisk_eq_owns (not_target_of_not_staged hstaged)]

/-- A staged file is there unless its key is deleted. -/
theorem fileExists_of_staged (h : key ∈ w.stagedFiles) :
    w.fileExists d key = true ↔ key ∉ w.deletions.keys := by
  rw [fileExists_iff_owns]
  exact ⟨And.left, fun hkept => ⟨hkept, .inl h⟩⟩

/-- A file that is not staged is the own one of its key, and neither it nor a
directory above it was deleted, nor was it moved away. -/
theorem fileExists_of_not_staged (h : key ∉ w.stagedFiles) :
    w.fileExists d key = true ↔
      w.isGone key = false ∧ w.isMoveOrigin key = false ∧ w.owns key d.isFile = true := by
  rw [fileExists_iff_owns, isGone_eq_false_iff, or_iff_right h, and_assoc]

/-- A file says the same where it is there as before, with the same text
or the same content on disk. -/
theorem textOf_congr (hroot : v.root = w.root) (hsettings : v.settings = w.settings)
    (hexists : v.fileExists d key = w.fileExists d key)
    (htext : v.texts.find? key = w.texts.find? key) (hdisk : v.diskKey? key = w.diskKey? key) :
    v.textOf d key = w.textOf d key := by
  have hpath : v.fullPath = w.fullPath := by
    funext k
    rw [fullPath, fullPath, hroot]
  rw [textOf, textOf, hexists, htext, hdisk, place_congr hroot, hpath, hsettings]

/-! ### Runs without directory moves -/

/-- No directory is moved, and files are moved away from files. -/
structure FileMovesOnly (d : Disk) (w : Workspace) : Prop where
  /-- No directory is moved. -/
  dirMoves : w.dirMoves = []
  /-- Moved files are on disk. -/
  files : ∀ m ∈ w.moves, d.isFile (w.place m.1) = true

namespace FileMovesOnly

/-- A new workspace moves nothing. -/
theorem ofFilter (d : Disk) (root : String) (settings : Settings) (filter : PathFilter) :
    FileMovesOnly d (ofFilter root settings filter) where
  dirMoves := rfl
  files := fun m hm => by cases hm

/-- What a key has of its own stands at its place. -/
theorem owns_eq (h : FileMovesOnly d w) (key : String) (p : Place → Bool) :
    w.owns key p = p (w.place key) := by
  rw [owns, h.dirMoves]
  rfl

/-- Fewer moves are of files as well. -/
theorem of_subset (h : FileMovesOnly d w) (hroot : v.root = w.root)
    (hdirMoves : v.dirMoves = w.dirMoves) (hmoves : ∀ m ∈ v.moves, m ∈ w.moves) :
    FileMovesOnly d v where
  dirMoves := hdirMoves.trans h.dirMoves
  files := fun m hm => by
    rw [place_congr hroot]
    exact h.files m (hmoves m hm)

/-- A call that moves no directory moves files only. -/
theorem apply (h : FileMovesOnly d w) {c : Call} (hc : c.isDirMove = false) :
    FileMovesOnly d (w.apply d c) := by
  have hothers := moves_apply (w := w) (d := d) (c := c)
  cases c with
  | delete path mode =>
      obtain ⟨deletions, happly, -⟩ := w.delete_eq d path mode
      rw [Workspace.apply, happly]
      exact h.of_subset rfl rfl fun m hm => (List.mem_filter.mp hm).1
  | moveFile origin target =>
      rcases apply_moveFile_cases d w origin target with ⟨-, happly⟩ | ⟨-, happly⟩
      · rw [happly]
        refine ⟨h.dirMoves, fun n hn => ?_⟩
        -- A move that goes on keeps its origin, and a new one starts at a file.
        rcases mem_movedMoves hn with hn | ⟨-, ⟨m, hm, heq⟩ | ⟨heq, hnone, hreal⟩⟩
        · exact h.files n hn
        · rw [← heq]
          exact h.files m hm
        · rw [heq]
          exact ((isReal_iff h.dirMoves hnone).mp hreal).2
      · rw [happly]
        exact h
  | moveDir origin target => cases hc
  | _ =>
      obtain ⟨hmoves, hdirMoves, -⟩ := hothers rfl rfl
      exact h.of_subset (root_apply d w _) hdirMoves fun m hm => hmoves ▸ hm

/-- So does a run of such calls. -/
theorem run (h : FileMovesOnly d w) {calls : List Call}
    (hcalls : ∀ c ∈ calls, c.isDirMove = false) : FileMovesOnly d (w.run d calls) :=
  run_induction (fun _ hv c hc => hv.apply (hcalls c hc)) h

/-- Nothing stands below the place of a moved file. -/
theorem eq_of_isUnder_origin (h : FileMovesOnly d w) (hd : d.IsTree) {m : String × String}
    (hm : m ∈ w.moves) (hwithin : Within key) (hunder : isUnder key m.1 = true)
    (hthere : d.occupied (w.place key) = true) : key = m.1 := by
  by_contra hne
  have horigin := hwithin.of_isUnder hunder
  have hdir := hd.isDir_of_prefix ((w.prefix_place_iff hwithin horigin).mpr hunder)
    (fun heq => hne ((w.place_inj horigin hwithin).mp heq).symm) hthere
  rw [Disk.isDir_eq_false_of_isFile (h.files m hm)] at hdir
  cases hdir

end FileMovesOnly

/-! ### A project -/

/-- A path that is its own key, and neither the root nor out of the project, is
within it. -/
theorem within_of_key_eq (hkey : w.key key = key) (hne : key ≠ "") (h : leaves key = false) :
    Within key := by
  have hinside : Inside (w.key key) := inside_key (hkey.symm ▸ hne) (hkey.symm ▸ h)
  rw [hkey] at hinside
  exact hinside.within

/-- Two files, and a directory with one. -/
def filesAndDir : Disk :=
  ⟨[(["root"], .dir), (["root", "a"], .file (Disk.bytesOf "a\n")),
    (["root", "b"], .file (Disk.bytesOf "b\n")), (["root", "s"], .dir),
    (["root", "s", "x.js"], .file (Disk.bytesOf "x\n"))]⟩

end Workspace

end ScriptRefactor
