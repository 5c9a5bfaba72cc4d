import ScriptRefactor.Proofs.Workspace.ReadRuns
import ScriptRefactor.Proofs.Workspace.RecordedMoves

/-!
# `ScriptRefactor.Proofs.Workspace.MovedView`: the view beside a moved file

A file move says nothing of any key but its origin and its target. The
other files are there as before and say the same
(`fileExists_withMove`, `textOf_withMove`), so a text that is read or
saved under another key may be read or saved before or behind the move
(`content_withMove`, `save_withMove`). For this the tables of a workspace
have to be in order (`IsOrdered`), which every run keeps.

Of two workspaces that differ in two keys only (`AgreesBeside`), the one
shows a directory exactly if the other does, unless one of the keys lies
below it. A directory that still holds another file is shown by both, as
long as it is no file itself (`Plain.dirExists_of_file`).
-/

set_option autoImplicit false

namespace ScriptRefactor.Workspace

open ScriptRefactor.Path

variable {w v : Workspace} {d : Disk} {o t key : String}

/-! ### Ordered workspaces -/

/-- The tables of the texts and of the marked keys are in ascending
order. -/
structure IsOrdered (w : Workspace) : Prop where
  /-- The texts. -/
  texts : w.texts.IsAscending
  /-- The keys whose texts are to be written. -/
  saves : w.saves.toList.Pairwise (· < ·)

/-- A new workspace keeps nothing. -/
theorem isOrdered_ofFilter (root : String) (settings : Settings) (filter : PathFilter) :
    IsOrdered (ofFilter root settings filter) :=
  ⟨Table.isAscending_empty, List.Pairwise.nil⟩

/-- A key set with one more key, or without one, stays in order. -/
theorem pairwise_movedSaves (h : w.saves.toList.Pairwise (· < ·)) (o t : String) :
    (w.movedSaves o t).toList.Pairwise (· < ·) := by
  unfold movedSaves
  split
  · exact KeySet.pairwise_insertKey t (h.filter _)
  · exact h

/-- A call keeps the tables in order. -/
theorem IsOrdered.apply (h : w.IsOrdered) (c : Call) : (w.apply d c).IsOrdered where
  texts := by
    rw [texts_apply]
    exact TextEdit.isAscending_apply h.texts _
  saves := by
    cases c with
    | put path text => exact h.saves
    | save path text => exact KeySet.pairwise_insertKey _ h.saves
    | mkdir path => exact h.saves
    | delete path mode => exact h.saves.filter _
    | moveFile origin target =>
        rcases apply_moveFile_cases d w origin target with ⟨-, happly⟩ | ⟨-, happly⟩
        · rw [happly]
          exact pairwise_movedSaves h.saves _ _
        · rw [happly]
          exact h.saves
    | moveDir origin target =>
        rcases apply_moveDir_cases d w origin target with ⟨-, happly⟩ | ⟨-, happly⟩
        · rw [happly]
          exact KeySet.pairwise_ofList _
        · rw [happly]
          exact h.saves
    | content path =>
        show (w.content d path).2.saves.toList.Pairwise (· < ·)
        unfold content
        dsimp only
        split <;> exact h.saves
    | invalidate path =>
        show (w.invalidate path).saves.toList.Pairwise (· < ·)
        unfold invalidate
        dsimp only
        split <;> exact h.saves

/-- A run keeps the tables in order. -/
theorem IsOrdered.run (h : w.IsOrdered) (calls : List Call) : (w.run d calls).IsOrdered :=
  run_induction (fun _ hv c _ => hv.apply c) h

/-! ### Other keys than those of a move -/

section Beside

variable (ho : key ≠ o) (ht : key ≠ t)

include ho ht

/-- No other key gets a text, or loses one. -/
theorem find?_movedTexts : (w.movedTexts o t).find? key = w.texts.find? key := by
  unfold movedTexts
  split
  · rw [Table.find?_insert_of_ne _ ht, Table.find?_erase, if_neg ho]
  · rfl

/-- No other key is marked, or loses its mark. -/
theorem mem_movedSaves : key ∈ (w.movedSaves o t).toList ↔ key ∈ w.saves.toList := by
  unfold movedSaves
  split
  · rw [KeySet.mem_insert, KeySet.mem_erase]
    simp [ho, ht]
  · exact Iff.rfl

/-- The move that leads to another key is the same. -/
theorem find?_movedMoves :
    ((w.movedMoves d o t).find? fun m => m.2 = key) = w.moves.find? fun m => m.2 = key := by
  rcases movedMoves_cases w d o t with ⟨before, m, after, hmoves, hm, hmoved⟩ | ⟨-, hmoved⟩
  · have hne : m.2 ≠ key := fun h => ho (h.symm.trans hm)
    rw [hmoved, hmoves, List.find?_append, List.find?_append, List.find?_cons_of_neg (by simpa)]
    split
    · rfl
    · rw [List.find?_cons_of_neg (by simpa using Ne.symm ht)]
  · rw [hmoved]
    split
    · rw [List.find?_append, List.find?_cons_of_neg (by simpa using Ne.symm ht), List.find?_nil,
        Option.or_none]
    · rfl

/-- Another key is moved to as before. -/
theorem isMoveTarget_withMove : (w.withMove d o t).isMoveTarget key = w.isMoveTarget key := by
  have hfind : ∀ v : Workspace, v.isMoveTarget key = (v.moves.find? fun m => m.2 = key).isSome :=
    fun v => (List.isSome_find? ..).symm
  rw [hfind, hfind]
  exact congrArg Option.isSome (find?_movedMoves ho ht)

/-- Another key is moved away as before. -/
theorem isMoveOrigin_withMove : (w.withMove d o t).isMoveOrigin key = w.isMoveOrigin key := by
  rw [isMoveOrigin, isMoveOrigin]
  show (w.movedMoves d o t).any _ = _
  rcases movedMoves_cases w d o t with ⟨before, m, after, hmoves, -, hmoved⟩ | ⟨-, hmoved⟩
  · rw [hmoved, hmoves, List.any_append, List.any_append, List.any_cons]
    by_cases hback : m.1 = t
    · -- A move that goes back is dropped; it led away from the target.
      simp [hback, Ne.symm ht]
    · simp [hback]
  · rw [hmoved]
    split
    · simp [Ne.symm ho]
    · rfl

/-- The content of another key stands where it stood. -/
theorem diskKey?_withMove : (w.withMove d o t).diskKey? key = w.diskKey? key := by
  have hfind : (w.withMove d o t).moves.find? (fun m => m.2 = key)
      = w.moves.find? fun m => m.2 = key := find?_movedMoves ho ht
  unfold diskKey?
  rw [hfind]
  rfl

/-- Another key has a text as before. -/
theorem contains_texts_withMove :
    (w.withMove d o t).texts.contains key = w.texts.contains key := by
  rw [Table.contains_eq_isSome, Table.contains_eq_isSome]
  exact congrArg Option.isSome (find?_movedTexts ho ht)

/-- Another file is there as before. -/
theorem fileExists_withMove : (w.withMove d o t).fileExists d key = w.fileExists d key := by
  unfold fileExists onDisk
  rw [contains_texts_withMove ho ht, isMoveTarget_withMove ho ht, isMoveOrigin_withMove ho ht,
    diskKey?_withMove ho ht]
  rfl

/-- Another file says what it said. -/
theorem textOf_withMove : (w.withMove d o t).textOf d key = w.textOf d key := by
  have htext : (w.withMove d o t).texts.find? key = w.texts.find? key := find?_movedTexts ho ht
  unfold textOf
  rw [fileExists_withMove ho ht, htext, diskKey?_withMove ho ht]
  rfl

/-- A text kept under another key before a move is kept behind it. -/
theorem movedTexts_insert (h : w.texts.IsAscending) (text : String) :
    ({ w with texts := w.texts.insert key text } : Workspace).movedTexts o t
      = (w.movedTexts o t).insert key text := by
  have hmoved : ∀ v : Workspace, v.movedTexts o t = (TextEdit.move o t).apply v.texts :=
    fun v => rfl
  rw [hmoved, hmoved]
  refine Table.IsAscending.ext (TextEdit.isAscending_apply (h.insert key text) _)
    ((TextEdit.isAscending_apply h _).insert key text) fun k => ?_
  have horigin : o ∈ (w.texts.insert key text).keys ↔ o ∈ w.texts.keys := by
    rw [Table.mem_keys_insert]
    simp [Ne.symm ho]
  simp only [Table.find?_insert, TextEdit.find?_move, horigin]
  by_cases hk : k = key
  · subst hk
    simp [ho, ht]
  · simp [hk, Ne.symm ho]

/-- A key marked before a move is marked behind it. -/
theorem movedSaves_insert (h : w.saves.toList.Pairwise (· < ·)) :
    ({ w with saves := w.saves.insert key } : Workspace).movedSaves o t
      = (w.movedSaves o t).insert key := by
  refine KeySet.ext_of_pairwise
    (pairwise_movedSaves (w := { w with saves := w.saves.insert key })
      (KeySet.pairwise_insertKey key h) o t)
    (KeySet.pairwise_insertKey key (pairwise_movedSaves h o t)) fun k => ?_
  have horigin : (w.saves.insert key).contains o = w.saves.contains o := by
    rw [Bool.eq_iff_iff, KeySet.contains_iff, KeySet.contains_iff, KeySet.mem_insert]
    simp [Ne.symm ho]
  unfold movedSaves
  dsimp only
  rw [horigin, KeySet.mem_insert]
  split
  · simp only [KeySet.mem_insert, KeySet.mem_erase]
    by_cases hk : k = key
    · subst hk
      simp [ho, ht]
    · simp [hk]
  · rw [KeySet.mem_insert]

end Beside

/-- A file at another key may be read before or behind a move. -/
theorem content_withMove (h : w.IsOrdered) (hkey : w.key key = key) (ho : key ≠ o)
    (ht : key ≠ t) :
    (w.withMove d o t).content d key
      = ((w.content d key).1, (w.content d key).2.withMove d o t) := by
  have hkey' : (w.withMove d o t).key key = key := hkey
  rw [content, content, hkey, hkey', textOf_withMove ho ht]
  cases w.textOf d key with
  | error e => rfl
  | ok text =>
      refine congrArg (Prod.mk _) ?_
      show ({ w.withMove d o t with texts := (w.movedTexts o t).insert key text } : Workspace) = _
      rw [← movedTexts_insert ho ht h.texts]
      rfl

/-- A file at another key may be saved before or behind a move. -/
theorem save_withMove (h : w.IsOrdered) (hkey : w.key key = key) (ho : key ≠ o) (ht : key ≠ t)
    (text : String) :
    (w.withMove d o t).save key text = (w.save key text).withMove d o t := by
  have hkey' : (w.withMove d o t).key key = key := hkey
  show (w.withMove d o t).apply d (.save key text) = (w.apply d (.save key text)).withMove d o t
  rw [apply_save (congrArg w.key hkey), apply_save (congrArg (w.withMove d o t).key hkey'), hkey,
    hkey']
  show ({ w.withMove d o t with
      deletions := w.deletions.erase key
      texts := (w.movedTexts o t).insert key (Text.Utf8.foldLineBreaks text)
      saves := (w.movedSaves o t).insert key } : Workspace) = _
  rw [← movedTexts_insert ho ht h.texts, ← movedSaves_insert ho ht h.saves]
  rfl

/-! ### Views that differ in two keys -/

/-- Two workspaces show and list the same of every key but two. -/
structure AgreesBeside (w v : Workspace) (d : Disk) (o t : String) : Prop where
  /-- They are workspaces of one project. -/
  root : v.root = w.root
  /-- Listings show the same. -/
  filter : v.filter = w.filter
  /-- The other files are there in both or in none. -/
  file : ∀ k, k ≠ o → k ≠ t → v.fileExists d k = w.fileExists d k
  /-- The other staged files are the same. -/
  files : ∀ k, k ≠ o → k ≠ t → (k ∈ v.stagedFiles ↔ k ∈ w.stagedFiles)
  /-- The staged directories are the same. -/
  dirs : v.stagedDirs = w.stagedDirs
  /-- The other staged keys are the same. -/
  keys : ∀ k, k ≠ o → k ≠ t → (k ∈ v.stagedKeys ↔ k ∈ w.stagedKeys)
  /-- The other keys stand on disk where they stood. -/
  disk : ∀ k, k ≠ o → k ≠ t → v.diskKey? k = w.diskKey? k

/-- Agreement goes both ways. -/
theorem AgreesBeside.symm (h : AgreesBeside w v d o t) : AgreesBeside v w d o t where
  root := h.root.symm
  filter := h.filter.symm
  file k ho ht := (h.file k ho ht).symm
  files k ho ht := (h.files k ho ht).symm
  dirs := h.dirs.symm
  keys k ho ht := (h.keys k ho ht).symm
  disk k ho ht := (h.disk k ho ht).symm

/-- A file move says nothing of other keys. -/
theorem agreesBeside_withMove (w : Workspace) (d : Disk) (o t : String) :
    AgreesBeside w (w.withMove d o t) d o t := by
  -- The moved text stands at the target now. The keys of other texts are as before.
  have htexts : ∀ k, k ≠ o → k ≠ t → (k ∈ (w.withMove d o t).texts.keys ↔ k ∈ w.texts.keys) := by
    intro k ho ht
    rw [← Table.contains_iff_mem_keys, ← Table.contains_iff_mem_keys,
      contains_texts_withMove ho ht]
  -- A place is a target of a move by what the workspace answers for it.
  have hmoves : ∀ k, k ≠ o → k ≠ t →
      (k ∈ (w.withMove d o t).moves.map Prod.snd ↔ k ∈ w.moves.map Prod.snd) := by
    intro k ho ht
    have hmem : ∀ v : Workspace, k ∈ v.moves.map Prod.snd ↔ v.isMoveTarget k = true := fun v => by
      rw [isMoveTarget_iff, List.mem_map]
    rw [hmem, hmem, isMoveTarget_withMove ho ht]
  exact {
    root := rfl
    filter := rfl
    file := fun k ho ht => fileExists_withMove ho ht
    files := fun k ho ht => by
      rw [stagedFiles, stagedFiles, List.mem_append, List.mem_append, htexts k ho ht,
        hmoves k ho ht]
    dirs := rfl
    keys := fun k ho ht => by
      have hsaves : k ∈ (w.withMove d o t).saves.toList ↔ k ∈ w.saves.toList :=
        mem_movedSaves ho ht
      simp only [stagedKeys, List.mem_append, htexts k ho ht, hmoves k ho ht, hsaves]
      exact Iff.rfl
    disk := fun k ho ht => diskKey?_withMove ho ht }

/-- No deletion is staged, and no directory move is recorded. -/
structure Plain (w : Workspace) : Prop where
  /-- Nothing is to be deleted. -/
  deletions : w.deletions = .empty
  /-- No directory was moved. -/
  dirMoves : w.dirMoves = []

namespace Plain

/-- Nothing is deleted. -/
theorem not_deleted (h : w.Plain) (key : String) :
    key ∉ w.deletions.keys ∧ w.isBelowDeletion key = false := by
  rw [isBelowDeletion, h.deletions]
  exact ⟨List.not_mem_nil, rfl⟩

/-- What is a file without being staged is one on disk. -/
theorem isFile_place (h : w.Plain) (hfile : w.fileExists d key = true)
    (hstaged : key ∉ w.stagedFiles) : d.isFile (w.place key) = true := by
  obtain ⟨-, hstaged' | ⟨-, -, hon⟩⟩ := fileExists_eq_true_iff.mp hfile
  · exact absurd hstaged' hstaged
  · obtain ⟨k, hk, hplace⟩ := exists_place_of_onDisk hstaged hon
    rw [h.dirMoves] at hk
    obtain rfl := Option.some.inj hk
    exact hplace

/-- What is no file stands in its own place. -/
theorem diskKey?_eq_self (h : w.Plain) (hfile : w.fileExists d key = false) :
    w.diskKey? key = some key := by
  have hnone : w.isMoveTarget key = false := by
    refine Bool.eq_false_iff.mpr fun htarget => ?_
    have hstaged : key ∈ w.stagedFiles :=
      List.mem_append_right _ (List.mem_map.mpr ((isMoveTarget_iff key).mp htarget))
    exact absurd (hfile.symm.trans (fileExists_eq_true_iff.mpr
      ⟨(h.not_deleted key).1, .inl hstaged⟩)) (by decide)
  rw [diskKey?_eq_originOf h.dirMoves, originOf_eq_self ((isMoveTarget_eq_false_iff key).mp hnone)]

/-- The directories of the view. -/
theorem dirExists_iff (h : w.Plain) : w.dirExists d key = true ↔ key = "" ∨ key ∈ w.stagedDirs ∨
    (∃ file ∈ w.stagedFiles, file ≠ key ∧ isUnder file key = true)
      ∨ w.onDisk key d.isDir = true := by
  rw [dirExists_eq_true_iff]
  simp [h.not_deleted key]

/-- Above a file there are directories, except where there is a file. -/
theorem dirExists_of_file (h : w.Plain) (hd : d.IsTree) {file : String} (hinside : Inside file)
    (hfile : w.fileExists d file = true) (hne : file ≠ key) (hunder : isUnder file key = true)
    (hkey : w.fileExists d key = false) : w.dirExists d key = true := by
  by_cases hstaged : file ∈ w.stagedFiles
  · exact dirExists_of_stagedFile hstaged hne hunder (h.not_deleted key).1
  · obtain ⟨bytes, hbytes⟩ := Option.isSome_iff_exists.mp (h.isFile_place hfile hstaged)
    have hwithin := hinside.within.of_isUnder hunder
    have hprefix := (prefix_place_iff w hinside.within hwithin).mpr hunder
    have hplace : w.place key ≠ w.place file := fun heq =>
      hne ((w.place_inj hwithin hinside.within).mp heq).symm
    refine h.dirExists_iff.mpr (.inr (.inr (.inr ?_)))
    rw [onDisk, h.diskKey?_eq_self hkey]
    exact hd.isDir_of_prefix hprefix hplace (Disk.occupied_of_bytes? hbytes)

end Plain

/-- Where neither of the two keys lies below, the same directories are
shown. -/
theorem AgreesBeside.dirExists (h : AgreesBeside w v d o t) (hw : w.Plain) (hv : v.Plain)
    (ho : isUnder o key = false) (ht : isUnder t key = false) :
    v.dirExists d key = w.dirExists d key := by
  have hother : ∀ k, isUnder k key = true → k ≠ o ∧ k ≠ t := by
    refine fun k hk => ⟨?_, ?_⟩
    · rintro rfl
      exact absurd (hk.symm.trans ho) (by decide)
    · rintro rfl
      exact absurd (hk.symm.trans ht) (by decide)
  have hself := hother key (isUnder_self key)
  have hdisk : v.onDisk key d.isDir = w.onDisk key d.isDir := by
    rw [onDisk, onDisk, h.disk key hself.1 hself.2, place_congr h.root]
  have hfiles : (∃ file ∈ v.stagedFiles, file ≠ key ∧ isUnder file key = true) ↔
      ∃ file ∈ w.stagedFiles, file ≠ key ∧ isUnder file key = true := by
    refine exists_congr fun file => and_congr_left fun hfile => ?_
    exact h.files file (hother file hfile.2).1 (hother file hfile.2).2
  rw [Bool.eq_iff_iff, hv.dirExists_iff, hw.dirExists_iff, h.dirs, hfiles, hdisk]

end ScriptRefactor.Workspace
