import ScriptRefactor.Proofs.Table
import ScriptRefactor.Proofs.Workspace.FlushFiles
import ScriptRefactor.Proofs.Workspace.RecordedMoves

/-!
# `ScriptRefactor.Proofs.Workspace.FileMoves`: files moved and saved

What a run of `content`, `save` and `moveFile` keeps (`HasFiles`). Its
moves tie each origin, a file on disk, to one target, so that the view
finds the content of every file at the origin of its key. What is to
be written has a text, and every other text was read from there.

Every call is a lemma of its own. Only a file move changes where the
view reads from: the file at its target is now the one that was at its
origin (`HasFiles.readsFrom_target`), and the others are where they
were (`HasFiles.readsFrom_of_ne`).
-/

set_option autoImplicit false

namespace ScriptRefactor.Workspace

open Text

/-! ### What such runs keep -/

/-- The text of a file that was read. -/
theorem decodeText?_of_readAt {d : Disk} {p : Place} {path text : String} {limit : Nat}
    (h : readAt d p path limit = .ok text) :
    (d.bytes? p).bind Utf8.decodeText? = some text := by
  unfold readAt at h
  split at h
  · cases h
  · rename_i bytes hbytes
    split at h
    · cases h
    · split at h
      · rename_i read hread
        cases h
        rw [hbytes, Option.bind_some, hread]
      · cases h

/-- The view takes a text from a file on disk: the one at the origin of
the move to the key, or the one at the key if it was not moved away. -/
def ReadsFrom (w : Workspace) (d : Disk) (key text : String) : Prop :=
  ((∃ m ∈ w.moves, m.2 = key) ∨ ∀ m ∈ w.moves, m.1 ≠ key) ∧
    (d.bytes? (w.place (originOf w.moves key))).bind Utf8.decodeText? = some text

/-- A workspace in which files were read, saved and moved, under some
keys. -/
structure HasFiles (d : Disk) (keys : List String) (w : Workspace) : Prop where
  /-- Nothing was deleted. -/
  deletions : w.deletions = .empty
  /-- No directory was created. -/
  dirs : w.dirs = .empty
  /-- No directory was moved. -/
  dirMoves : w.dirMoves = []
  /-- Each file is moved once, and to a key of its own. -/
  injection : PartialInjection w.moves
  /-- A move is recorded for a file on disk. -/
  files : ∀ m ∈ w.moves, (d.bytes? (w.place m.1)).isSome = true
  /-- What is to be written has a text. -/
  saved : ∀ k ∈ w.saves.toList, (w.texts.find? k).isSome = true
  /-- What is not to be written was read. -/
  read : ∀ k text, w.texts.find? k = some text → k ∉ w.saves.toList → w.ReadsFrom d k text
  /-- The keys of the moves. -/
  moveKeys : ∀ m ∈ w.moves, m.1 ∈ keys ∧ m.2 ∈ keys
  /-- The keys to be written. -/
  saveKeys : ∀ k ∈ w.saves.toList, k ∈ keys

variable {d : Disk} {keys : List String} {w : Workspace}

/-- A new workspace has no files. -/
theorem hasFiles_ofFilter (d : Disk) (keys : List String) (root : String) (settings : Settings)
    (filter : PathFilter) : HasFiles d keys (ofFilter root settings filter) where
  deletions := rfl
  dirs := rfl
  dirMoves := rfl
  injection := ⟨List.nodup_nil, List.nodup_nil, fun m hm => by cases hm⟩
  files := fun m hm => by cases hm
  saved := fun k hk => by cases hk
  read := fun k text htext => by cases htext
  moveKeys := fun m hm => by cases hm
  saveKeys := fun k hk => by cases hk

namespace HasFiles

variable (h : HasFiles d keys w)
include h

/-- A file exists if there is a text for it, if it was moved to its
key, or if it is on disk and was not moved away. -/
theorem fileExists_iff (key : String) :
    w.fileExists d key = true ↔ w.texts.contains key = true ∨ (∃ m ∈ w.moves, m.2 = key) ∨
      ((∀ m ∈ w.moves, m.1 ≠ key) ∧ (d.bytes? (w.place key)).isSome = true) := by
  have hbelow : w.isBelowDeletion key = false := by
    rw [isBelowDeletion, h.deletions]
    rfl
  unfold fileExists
  rw [h.deletions, Table.contains_empty, hbelow, onDisk_eq_originOf h.dirMoves, Bool.false_or,
    if_neg (by simp), ← isMoveTarget_iff, ← isMoveOrigin_eq_false_iff]
  cases hkept : w.texts.contains key || w.isMoveTarget key with
  | true =>
      rw [Bool.or_eq_true] at hkept
      exact iff_of_true (by simp) (hkept.imp_right Or.inl)
  | false =>
      obtain ⟨htext, htarget⟩ := Bool.or_eq_false_iff.mp hkept
      rw [htext, htarget, originOf_eq_self ((isMoveTarget_eq_false_iff key).mp htarget)]
      cases w.isMoveOrigin key <;> simp [Disk.isFile]

/-- A text of the view is kept already, or is read from disk. -/
theorem textOf_eq_ok {key text : String} (htext : w.textOf d key = .ok text) :
    w.texts.find? key = some text ∨ w.texts.find? key = none ∧ w.ReadsFrom d key text := by
  unfold textOf at htext
  split at htext
  · cases htext
  · rename_i hexists
    rw [Bool.not_eq_true', Bool.not_eq_false, h.fileExists_iff] at hexists
    split at htext
    · rename_i kept hkept
      cases htext
      exact .inl hkept
    · -- The file exists without a text, so it is on disk at the origin of its key.
      rename_i hnone
      refine .inr ⟨hnone, ?_, ?_⟩
      · rw [Table.contains_eq_isSome, hnone] at hexists
        rcases hexists with hfalse | htarget | horigin
        · cases hfalse
        · exact .inl htarget
        · exact .inr horigin.1
      · rw [diskKey?, h.dirMoves] at htext
        exact decodeText?_of_readAt htext

/-! ### Step by step -/

/-- Reading a file keeps its text. -/
theorem content (path : String) : HasFiles d keys (w.apply d (.content path)) := by
  rcases apply_content_cases d w path with ⟨text, htext, happly⟩ | happly
  · rw [happly]
    refine { h with saved := ?_, read := ?_ }
    · intro k hk
      rw [Table.find?_insert]
      split
      · rfl
      · exact h.saved k hk
    · -- The text may have been kept already, and was read then.
      intro k other hfind hk
      rw [Table.find?_insert] at hfind
      split at hfind
      · rename_i heq
        subst heq
        cases hfind
        rcases h.textOf_eq_ok htext with hkept | ⟨-, hread⟩
        · exact h.read _ _ hkept hk
        · exact hread
      · exact h.read k other hfind hk
  · rw [happly]
    exact h

/-- Saving a file stages a text to be written. -/
theorem save (path text : String) (hstable : w.key (w.key path) = w.key path)
    (hkey : w.key path ∈ keys) : HasFiles d keys (w.apply d (.save path text)) := by
  have hsaves := KeySet.mem_insert w.saves (w.key path)
  rw [apply_save hstable]
  refine { h with deletions := ?_, saved := ?_, read := ?_, saveKeys := ?_ }
  · rw [h.deletions]
    rfl
  · intro k hk
    rw [Table.find?_insert]
    split
    · rfl
    · rename_i hne
      exact h.saved k (((hsaves k).mp hk).resolve_left hne)
  · -- The saved text is to be written, and the other ones are kept as they were.
    intro k other hfind hk
    rw [hsaves, not_or] at hk
    rw [Table.find?_insert_of_ne w.texts hk.1] at hfind
    exact h.read k other hfind hk.2
  · intro k hk
    rcases (hsaves k).mp hk with rfl | hk
    · exact hkey
    · exact h.saveKeys k hk

/-- A free key has no text, is the target of no move, and is not to be
written. -/
theorem free_of_not_fileExists {key : String} (hfree : w.fileExists d key = false) :
    w.texts.find? key = none ∧ (∀ m ∈ w.moves, m.2 ≠ key) ∧ key ∉ w.saves.toList := by
  rw [← Bool.not_eq_true, h.fileExists_iff, not_or, not_or] at hfree
  obtain ⟨hnotext, hnotarget, -⟩ := hfree
  rw [Table.contains_eq_isSome, Option.not_isSome_iff_eq_none] at hnotext
  refine ⟨hnotext, fun m hm heq => hnotarget ⟨m, hm, heq⟩, fun hmem => ?_⟩
  have := h.saved key hmem
  rw [hnotext] at this
  cases this

/-- A move that is recorded behind a file move is one of a file on
disk, from and to some of the keys. -/
theorem of_mem_movedMoves {origin target : String} (horigin : origin ∈ keys)
    (htarget : target ∈ keys) {n : String × String} (hn : n ∈ w.movedMoves d origin target) :
    (d.bytes? (w.place n.1)).isSome = true ∧ n.1 ∈ keys ∧ n.2 ∈ keys := by
  rcases mem_movedMoves hn with hn | ⟨hsnd, ⟨m, hm, hfst⟩ | ⟨hfst, hnone, hreal⟩⟩
  · exact ⟨h.files n hn, h.moveKeys n hn⟩
  · rw [← hfst, hsnd]
    exact ⟨h.files m hm, (h.moveKeys m hm).1, htarget⟩
  · rw [hfst, hsnd]
    exact ⟨((isReal_iff h.dirMoves hnone).mp hreal).2, horigin, htarget⟩

/-- The file that the view shows at the target of an accepted move is
the one that it showed at the origin. -/
theorem readsFrom_target {origin target text : String} (hne : origin ≠ target)
    (htarget : ∀ m ∈ w.moves, m.2 ≠ target) (hread : w.ReadsFrom d origin text) :
    (w.withMove d origin target).ReadsFrom d target text := by
  obtain ⟨hstands, hdecode⟩ := hread
  obtain ⟨hholds, heq⟩ := originOf_movedMoves_target (d := d) h.injection hne htarget fun hnone => by
    have horigin := hstands.resolve_left fun ⟨m, hm, heq⟩ => hnone m hm heq
    obtain ⟨bytes, hbytes, -⟩ := Option.bind_eq_some_iff.mp hdecode
    rw [originOf_eq_self hnone] at hbytes
    refine (isReal_iff h.dirMoves hnone).mpr ⟨horigin, ?_⟩
    rw [Disk.isFile, hbytes]
    rfl
  refine ⟨hholds, ?_⟩
  rw [show (w.withMove d origin target).moves = w.movedMoves d origin target from rfl, heq]
  exact hdecode

/-- The other files are shown as before an accepted move. -/
theorem readsFrom_of_ne {origin target key text : String} (hne : origin ≠ target)
    (htarget : ∀ m ∈ w.moves, m.2 ≠ target) (hread : w.ReadsFrom d key text)
    (horigin : key ≠ origin) (hkey : key ≠ target) :
    (w.withMove d origin target).ReadsFrom d key text := by
  obtain ⟨hholds, heq⟩ :=
    originOf_movedMoves_of_ne (d := d) h.injection hne htarget hread.1 horigin hkey
  refine ⟨hholds, ?_⟩
  rw [show (w.withMove d origin target).moves = w.movedMoves d origin target from rfl, heq]
  exact hread.2

/-- Moving a file carries its text along. -/
theorem withMove {origin target : String} (hexists : w.fileExists d origin = true)
    (hfree : w.fileExists d target = false) (horigin : origin ∈ keys) (htarget : target ∈ keys) :
    HasFiles d keys (w.withMove d origin target) := by
  obtain ⟨hnotext, hnomove, hnosave⟩ := h.free_of_not_fileExists hfree
  have hne := ne_of_free hexists hfree
  have htexts := find?_texts_withMove d origin hnotext
  have hsaves := mem_saves_withMove d hne hnosave
  refine { h with
    injection := h.injection.movedMoves hnomove hne
    files := fun n hn => (h.of_mem_movedMoves horigin htarget hn).1
    moveKeys := fun n hn => (h.of_mem_movedMoves horigin htarget hn).2
    saved := ?_, read := ?_, saveKeys := ?_ }
  · intro k hk
    rw [htexts]
    by_cases hkt : k = target
    · rw [hsaves, if_pos hkt] at hk
      rw [if_pos hkt]
      exact h.saved origin hk
    · rw [hsaves, if_neg hkt] at hk
      rw [if_neg hkt, if_neg hk.1]
      exact h.saved k hk.2
  · -- A text that is kept but not to be written was read from the file that is shown now.
    intro k text hfind hk
    rw [htexts] at hfind
    rw [hsaves] at hk
    by_cases hkt : k = target
    · rw [if_pos hkt] at hfind hk
      rw [hkt]
      exact h.readsFrom_target hne hnomove (h.read origin text hfind hk)
    · rw [if_neg hkt] at hfind hk
      by_cases hko : k = origin
      · rw [if_pos hko] at hfind
        cases hfind
      · rw [if_neg hko] at hfind
        have hread := h.read k text hfind fun hmem => hk ⟨hko, hmem⟩
        exact h.readsFrom_of_ne hne hnomove hread hko hkt
  · intro k hk
    rw [hsaves] at hk
    by_cases hkt : k = target
    · rw [hkt]
      exact htarget
    · rw [if_neg hkt] at hk
      exact h.saveKeys k hk.2

/-- A file move that is accepted carries the text along, and one that
is refused changes nothing. -/
theorem moveFile (originPath targetPath : String) (horigin : w.key originPath ∈ keys)
    (htarget : w.key targetPath ∈ keys) :
    HasFiles d keys (w.apply d (.moveFile originPath targetPath)) := by
  rcases apply_moveFile_cases d w originPath targetPath with ⟨hok, happly⟩ | ⟨-, happly⟩
  · obtain ⟨hexists, ⟨hfree, -⟩, -⟩ := moveFile_eq_ok hok
    rw [happly]
    exact h.withMove hexists hfree horigin htarget
  · rw [happly]
    exact h

/-- What a file call keeps. -/
theorem apply {c : Call} (hc : c.isOfFiles = true)
    (hpaths : ∀ path ∈ c.paths, w.key (w.key path) = w.key path ∧ w.key path ∈ keys) :
    HasFiles d keys (w.apply d c) := by
  cases c with
  | content path => exact h.content path
  | save path text =>
      obtain ⟨hstable, hkey⟩ := hpaths path (by simp [Call.paths])
      exact h.save path text hstable hkey
  | moveFile origin target =>
      exact h.moveFile origin target (hpaths origin (by simp [Call.paths])).2
        (hpaths target (by simp [Call.paths])).2
  | _ => cases hc

end HasFiles

/-- Every path is the only name of its file: if it leads out of the
project, it keeps its key, and no other path leads to its place. -/
def OneNameEach (w : Workspace) (paths : List String) : Prop :=
  ∀ a ∈ paths, Path.leaves (w.key a) = true → w.key (w.key a) = w.key a ∧
    ∀ b ∈ paths, w.place (w.key a) = w.place (w.key b) → w.key a = w.key b

instance (w : Workspace) (paths : List String) : Decidable (w.OneNameEach paths) :=
  inferInstanceAs (Decidable (∀ a ∈ paths, Path.leaves (w.key a) = true →
    w.key (w.key a) = w.key a ∧ ∀ b ∈ paths, w.place (w.key a) = w.place (w.key b) →
      w.key a = w.key b))

/-- What a run of file calls keeps. -/
theorem hasFiles_run {d : Disk} {w : Workspace} {paths : List String} {calls : List Call}
    (hw : HasFiles d (paths.map w.key) w) (hnames : w.OneNameEach paths)
    (hcalls : ∀ c ∈ calls, c.isOfFiles = true) (hpaths : ∀ c ∈ calls, ∀ p ∈ c.paths, p ∈ paths) :
    HasFiles d (paths.map w.key) (w.run d calls) := by
  have hrun : (w.run d calls).root = w.root ∧ HasFiles d (paths.map w.key) (w.run d calls) := by
    refine run_induction (P := fun v => v.root = w.root ∧ HasFiles d (paths.map w.key) v) ?_
      ⟨rfl, hw⟩
    rintro v ⟨hroot, hv⟩ c hc
    refine ⟨(root_apply d v c).trans hroot, hv.apply (hcalls c hc) fun path hpath => ?_⟩
    have hmem := hpaths c hc path hpath
    rw [key_congr hroot]
    refine ⟨?_, List.mem_map_of_mem hmem⟩
    by_cases hleaves : Path.leaves (w.key path) = true
    · exact (hnames path hmem hleaves).1
    · exact w.key_key (by simpa using hleaves)
  exact hrun.2

end ScriptRefactor.Workspace
