import ScriptRefactor.Proofs.Workspace.FlushDeletions
import ScriptRefactor.Proofs.Workspace.ReadRuns

/-!
# `ScriptRefactor.Proofs.Workspace.DiskReads`: reads that change no answer

As long as no directory is moved, and no file to where something is
deleted, each text that was read is that of a file on disk, which the view
shows at its key (`FromDisk`). Then the reads change no answer
(`FromDisk.transparent`). A call that moves something elsewhere
(`Displaces`) may take a read text to where the view shows no file, or
where no directory is above it.

`sameAnswers_iff_transparent` says of all runs when their reads change no
answer and no flush.
-/

set_option autoImplicit false

namespace ScriptRefactor.Workspace

open ScriptRefactor.Path

/-! ### Calls that move files only -/

/-- The call moves a directory, or a file to where something is
deleted. -/
def Displaces (w : Workspace) (d : Disk) : Call → Prop
  | .moveFile origin target =>
    (w.moveFile d origin target).toOption.isSome = true ∧ w.isGone (w.key target) = true
  | .moveDir origin target => (w.moveDir d origin target).toOption.isSome = true
  | _ => False

instance (w : Workspace) (d : Disk) (c : Call) : Decidable (w.Displaces d c) :=
  match c with
  | .moveFile .. => inferInstanceAs (Decidable (_ ∧ _))
  | .moveDir .. => inferInstanceAs (Decidable (_ = true))
  | .put .. | .save .. | .mkdir .. | .delete .. | .content .. | .invalidate .. =>
      inferInstanceAs (Decidable False)

/-- Only files are moved, and to where no directory stands on disk. -/
structure MovesFiles (d : Disk) (w : Workspace) : Prop where
  /-- No directory is moved. -/
  dirMoves : w.dirMoves = []
  /-- Each file is moved once, and to a key of its own. -/
  injection : PartialInjection w.moves
  /-- A move is recorded for a file on disk. -/
  files : ∀ m ∈ w.moves, d.isFile (w.place m.1) = true
  /-- No directory stands where a file goes. -/
  clear : ∀ m ∈ w.moves, d.isDir (w.place m.2) = false

variable {d : Disk} {w v : Workspace} {key text : String}

/-- An accepted file move that displaces nothing has a target that is not
gone. -/
theorem not_gone_of_not_displaces {origin target : String}
    (hok : w.moveFile d origin target = .ok v) (hc : ¬ w.Displaces d (.moveFile origin target)) :
    w.isGone (w.key target) = false := by
  rw [← Bool.not_eq_true]
  exact fun hgone => hc ⟨by rw [hok]; rfl, hgone⟩

/-- A new workspace moves nothing. -/
theorem movesFiles_ofFilter (d : Disk) (root : String) (settings : Settings)
    (filter : PathFilter) : MovesFiles d (ofFilter root settings filter) where
  dirMoves := rfl
  injection := ⟨List.nodup_nil, List.nodup_nil, fun m hm => by cases hm⟩
  files := fun m hm => by cases hm
  clear := fun m hm => by cases hm

/-- Some of the moves. -/
theorem MovesFiles.of_sublist (h : MovesFiles d w) (hroot : v.root = w.root)
    (hmoves : v.moves.Sublist w.moves) (hdirMoves : v.dirMoves = w.dirMoves) :
    MovesFiles d v where
  dirMoves := hdirMoves.trans h.dirMoves
  injection := h.injection.sublist hmoves
  files := fun m hm => by
    rw [place_congr hroot]
    exact h.files m (hmoves.subset hm)
  clear := fun m hm => by
    rw [place_congr hroot]
    exact h.clear m (hmoves.subset hm)

/-- A free key that is not gone is the target of no move, has no text, and
no directory stands there. -/
theorem MovesFiles.free_of_not_gone (h : MovesFiles d w) (hkept : w.isGone key = false)
    (hfile : w.fileExists d key = false) (hdir : w.dirExists d key = false) :
    (∀ m ∈ w.moves, m.2 ≠ key) ∧ key ∉ w.texts.keys ∧ d.isDir (w.place key) = false := by
  obtain ⟨hnot, hbelow⟩ := isGone_eq_false_iff.mp hkept
  rw [← Bool.not_eq_true, fileExists_eq_true_iff, not_and, not_or] at hfile
  have hstaged := (hfile hnot).1
  have htarget : ∀ m ∈ w.moves, m.2 ≠ key := by
    rintro m hm rfl
    exact hstaged (List.mem_append_right _ (List.mem_map_of_mem hm))
  refine ⟨htarget, fun htext => hstaged (List.mem_append_left _ htext), ?_⟩
  -- A directory there would be shown.
  rw [← Bool.not_eq_true, dirExists_eq_true_iff] at hdir
  rw [← Bool.not_eq_true]
  intro hthere
  refine hdir (.inr ⟨hnot, .inr (.inr ⟨hbelow, ?_⟩)⟩)
  rw [onDisk_eq_originOf h.dirMoves, originOf_eq_self htarget]
  exact hthere

/-- A file moved to a free key. -/
theorem MovesFiles.withMove (h : MovesFiles d w) {origin target : String}
    (hexists : w.fileExists d origin = true) (hkept : w.isGone target = false)
    (hfile : w.fileExists d target = false) (hdir : w.dirExists d target = false) :
    MovesFiles d (w.withMove d origin target) := by
  obtain ⟨htarget, -, hclear⟩ := h.free_of_not_gone hkept hfile hdir
  have hne := ne_of_free hexists hfile
  refine ⟨h.dirMoves, h.injection.movedMoves htarget hne, fun n hn => ?_, fun n hn => ?_⟩
  · rcases mem_movedMoves hn with hn | ⟨-, ⟨m, hm, heq⟩ | ⟨heq, hnone, hreal⟩⟩
    · exact h.files n hn
    · rw [← heq]
      exact h.files m hm
    · rw [heq]
      exact ((isReal_iff h.dirMoves hnone).mp hreal).2
  · rcases mem_movedMoves hn with hn | ⟨heq, -⟩
    · exact h.clear n hn
    · rw [heq]
      exact hclear

/-- What a call that displaces nothing keeps. -/
theorem MovesFiles.apply (h : MovesFiles d w) {c : Call} (hc : ¬ w.Displaces d c) :
    MovesFiles d (w.apply d c) := by
  have hothers := moves_apply (w := w) (d := d) (c := c)
  cases c with
  | delete path mode =>
      obtain ⟨deletions, happly, -⟩ := w.delete_eq d path mode
      rw [Workspace.apply, happly]
      exact h.of_sublist rfl List.filter_sublist rfl
  | moveFile origin target =>
      rcases apply_moveFile_cases d w origin target with ⟨hok, happly⟩ | ⟨-, happly⟩
      · obtain ⟨hexists, ⟨hfile, hdir⟩, -⟩ := moveFile_eq_ok hok
        rw [happly]
        exact h.withMove hexists (not_gone_of_not_displaces hok hc) hfile hdir
      · rw [happly]
        exact h
  | moveDir origin target =>
      rcases apply_moveDir_cases d w origin target with ⟨hok, -⟩ | ⟨-, happly⟩
      · exact absurd (by rw [Displaces, hok]; rfl) hc
      · rw [happly]
        exact h
  | _ =>
      obtain ⟨hmoves, hdirMoves, -⟩ := hothers rfl rfl
      exact h.of_sublist (root_apply d w _) (hmoves ▸ List.Sublist.refl _) hdirMoves

/-! ### Texts of files on disk -/

/-- The text is that of a file on disk: one that was moved to the key, or
the own one of the key, which is neither moved away nor gone. -/
structure FromDisk (w : Workspace) (d : Disk) (key text : String) : Prop where
  /-- There is a file. -/
  holds : HoldsFile w.moves key
  /-- The own file is not gone. -/
  kept : (∃ m ∈ w.moves, m.2 = key) ∨ w.isGone key = false
  /-- The file says the text. -/
  read : readAt d (w.place (originOf w.moves key)) (w.fullPath (originOf w.moves key))
    w.settings.maxFileSize = .ok text

/-- A file that is read stands on disk. -/
theorem bytes?_of_readAt {p : Place} {path : String} {limit : Nat}
    (h : readAt d p path limit = .ok text) : ∃ bytes, d.bytes? p = some bytes := by
  unfold readAt at h
  split at h
  · cases h
  · rename_i bytes hbytes
    exact ⟨bytes, hbytes⟩

/-- What the view shows for a text that is not kept is read from disk. -/
theorem fromDisk_of_textOf (hdirMoves : w.dirMoves = []) (hnone : w.texts.find? key = none)
    (h : w.textOf d key = .ok text) : w.FromDisk d key text := by
  unfold textOf at h
  rw [hnone, diskKey?_eq_originOf hdirMoves] at h
  split at h
  · cases h
  · rename_i hexists
    rw [Bool.not_eq_true, Bool.not_eq_false'] at hexists
    obtain ⟨hnot, hstaged | ⟨hbelow, horigin, -⟩⟩ := fileExists_eq_true_iff.mp hexists
    · rcases List.mem_append.mp hstaged with htext | htarget
      · exact absurd htext ((Table.find?_eq_none_iff _ _).mp hnone)
      · obtain ⟨m, hm, heq⟩ := List.mem_map.mp htarget
        exact ⟨.inl ⟨m, hm, heq⟩, .inl ⟨m, hm, heq⟩, h⟩
    · exact ⟨.inr ((isMoveOrigin_eq_false_iff key).mp horigin),
        .inr (isGone_eq_false_iff.mpr ⟨hnot, hbelow⟩), h⟩

namespace FromDisk

/-- Where no file was moved to the key, its own one is on disk. -/
theorem own (h : w.FromDisk d key text) (hnone : ∀ m ∈ w.moves, m.2 ≠ key) :
    w.isGone key = false ∧ (∀ m ∈ w.moves, m.1 ≠ key) ∧
      ∃ bytes, d.bytes? (w.place key) = some bytes := by
  have hno : ¬ ∃ m ∈ w.moves, m.2 = key := fun ⟨m, hm, heq⟩ => hnone m hm heq
  have hread := h.read
  rw [originOf_eq_self hnone] at hread
  exact ⟨h.kept.resolve_left hno, h.holds.resolve_left hno, bytes?_of_readAt hread⟩

/-- The view shows the text, unless its key is deleted. -/
theorem textOf_eq (h : w.FromDisk d key text) (hdirMoves : w.dirMoves = [])
    (hnone : w.texts.find? key = none) (hkept : key ∉ w.deletions.keys) :
    w.textOf d key = .ok text := by
  have hexists : w.fileExists d key = true := by
    refine fileExists_eq_true_iff.mpr ⟨hkept, ?_⟩
    by_cases htarget : ∃ m ∈ w.moves, m.2 = key
    · obtain ⟨m, hm, rfl⟩ := htarget
      exact .inl (List.mem_append_right _ (List.mem_map_of_mem hm))
    · have hno : ∀ m ∈ w.moves, m.2 ≠ key := fun m hm heq => htarget ⟨m, hm, heq⟩
      obtain ⟨hkept, hstays, bytes, hbytes⟩ := h.own hno
      refine .inr ⟨(isGone_eq_false_iff.mp hkept).2, (isMoveOrigin_eq_false_iff key).mpr hstays, ?_⟩
      rw [onDisk_eq_originOf hdirMoves, originOf_eq_self hno]
      exact Option.isSome_iff_exists.mpr ⟨bytes, hbytes⟩
  rw [textOf, hexists, hnone, diskKey?_eq_originOf hdirMoves]
  exact h.read

/-- Above a file of its own, a key has directories on disk, which are not
gone, and to which no file was moved. -/
theorem above (h : w.FromDisk d key text) (hmoves : MovesFiles d w) (hd : d.IsTree)
    (hkey : Inside key) (hnone : ∀ m ∈ w.moves, m.2 ≠ key) {k : String}
    (hunder : isUnder key k = true) (hne : k ≠ key) :
    w.isGone k = false ∧ originOf w.moves k = k ∧ d.isDir (w.place k) = true := by
  obtain ⟨hkept, -, bytes, hbytes⟩ := h.own hnone
  have hwithin := hkey.within.of_isUnder hunder
  have hdir : d.isDir (w.place k) = true :=
    hd.isDir_of_prefix ((w.prefix_place_iff hkey.within hwithin).mpr hunder)
      (fun heq => hne ((w.place_inj hwithin hkey.within).mp heq)) (Disk.occupied_of_bytes? hbytes)
  refine ⟨isGone_of_isUnder hkept hunder, originOf_eq_self ?_, hdir⟩
  -- No file goes to where a directory stands.
  rintro m hm rfl
  rw [hmoves.clear m hm] at hdir
  cases hdir

/-- A text that was read from disk is transparent. -/
theorem transparent (h : w.FromDisk d key text) (hmoves : MovesFiles d w) (hd : d.IsTree)
    (hkey : Inside key) (hnone : w.texts.find? key = none) : w.Transparent d key text := by
  -- The file was moved to the key, or is its own one.
  have hfile : key ∈ w.stagedFiles ∨ ∀ m ∈ w.moves, m.2 ≠ key := by
    by_cases htarget : ∃ m ∈ w.moves, m.2 = key
    · obtain ⟨m, hm, rfl⟩ := htarget
      exact .inl (List.mem_append_right _ (List.mem_map_of_mem hm))
    · exact .inr fun m hm heq => htarget ⟨m, hm, heq⟩
  refine ⟨?_, fun k hk hne => ?_, fun k hk hne hlisted => ?_⟩
  · by_cases hgone : key ∈ w.deletions.keys
    · exact .inl hgone
    · exact .inr (h.textOf_eq hmoves.dirMoves hnone hgone)
  · have hunder := mem_upwards.mp hk
    by_cases hgone : k ∈ w.deletions.keys
    · exact .inl hgone
    · rcases hfile with hstaged | hown
      · exact .inr (dirExists_of_stagedFile hstaged hne.symm hunder hgone)
      · obtain ⟨hkept, hself, hdir⟩ := h.above hmoves hd hkey hown hunder hne
        refine .inr (dirExists_eq_true_iff.mpr (.inr ⟨hgone, .inr (.inr
          ⟨(isGone_eq_false_iff.mp hkept).2, ?_⟩)⟩))
        rw [onDisk_eq_originOf hmoves.dirMoves, hself]
        exact hdir
  · have hunder := mem_upwards.mp hk
    have hinside := (hkey.within.of_isUnder hunder).inside hne
    rw [list, w.key_within hinside.within_parent]
    refine List.mem_filter.mpr ⟨?_, hlisted⟩
    rcases hfile with hstaged | hown
    · exact mem_members_of_upwards (mem_stagedKeys_of_staged (.inl hstaged)) hkey hk hne
    · obtain ⟨-, -, bytes, hbytes⟩ := h.own hown
      obtain ⟨habove, hnot⟩ := hinside.isUnder_parent
      have hparent : parent k ≠ key := by
        intro heq
        rw [heq, hunder] at hnot
        cases hnot
      obtain ⟨-, hself, -⟩ := h.above hmoves hd hkey hown (isUnder_trans hunder habove) hparent
      refine mem_members_of_occupied hinside hd ?_ ?_
      · rw [diskKey?_eq_originOf hmoves.dirMoves, hself]
      · exact hd.occupied_of_prefix ((w.prefix_place_iff hkey.within hinside.within).mpr hunder)
          (Disk.occupied_of_bytes? hbytes)

/-- The same file is shown at a key behind a call. -/
theorem of_origin (h : w.FromDisk d key text) (hroot : v.root = w.root)
    (hsettings : v.settings = w.settings) {k : String} (hholds : HoldsFile v.moves k)
    (hkept : (∃ m ∈ v.moves, m.2 = k) ∨ v.isGone k = false)
    (horigin : originOf v.moves k = originOf w.moves key) : v.FromDisk d k text := by
  refine ⟨hholds, hkept, ?_⟩
  rw [horigin, place_congr hroot, fullPath, hroot, hsettings]
  exact h.read

/-- A call that neither moves nor deletes leaves the file. -/
theorem apply (h : w.FromDisk d key text) {c : Call} (hmove : c.isMove = false)
    (hdelete : c.isDelete = false) : (w.apply d c).FromDisk d key text := by
  obtain ⟨hmoves, -, hdeletions⟩ := moves_apply (w := w) (d := d) hmove hdelete
  refine h.of_origin (root_apply d w c) (settings_apply d w c) ?_ ?_ ?_
  · rw [hmoves]
    exact h.holds
  · rw [hmoves]
    refine h.kept.imp_right fun hkept => ?_
    exact List.any_eq_false.mpr fun k hk => List.any_eq_false.mp hkept k (hdeletions k hk)
  · rw [hmoves]

/-- A deletion of another file or directory leaves the file. -/
theorem delete (h : w.FromDisk d key text) (hmoves : MovesFiles d w) (hd : d.IsTree)
    (hkey : Inside key) {path : String} (hout : isUnder key (w.key path) = false)
    (mode : DeleteMode) : (w.apply d (.delete path mode)).FromDisk d key text := by
  have hstays := hmoves.apply (c := .delete path mode) id
  obtain ⟨deletions, hdelete, hkeys⟩ := w.delete_eq d path mode
  rw [Workspace.apply, hdelete] at hstays ⊢
  by_cases htarget : ∃ m ∈ w.moves, m.2 = key
  · -- The move to the key is not dropped.
    obtain ⟨m, hm, rfl⟩ := htarget
    have hm' : m ∈ (w.dropped (w.key path)).moves := List.mem_filter.mpr ⟨hm, by simpa using hout⟩
    refine h.of_origin (v := { w.dropped (w.key path) with deletions := deletions }) rfl rfl
      (.inl ⟨m, hm', rfl⟩) (.inl ⟨m, hm', rfl⟩) ?_
    rw [originOf_eq_fst hstays.injection hm', originOf_eq_fst hmoves.injection hm]
  · have hnone : ∀ m ∈ w.moves, m.2 ≠ key := fun m hm heq => htarget ⟨m, hm, heq⟩
    have hsub : ∀ m ∈ (w.dropped (w.key path)).moves, m ∈ w.moves :=
      fun m hm => (List.mem_filter.mp hm).1
    obtain ⟨hkept, hown, -⟩ := h.own hnone
    refine h.of_origin (v := { w.dropped (w.key path) with deletions := deletions }) rfl rfl
      (.inr fun m hm => hown m (hsub m hm)) (.inr ?_) ?_
    · refine List.any_eq_false.mpr fun k hk => ?_
      rcases (hkeys k).mp hk with hk | ⟨m, hm, rfl⟩ | ⟨rfl, -⟩
      · exact List.any_eq_false.mp hkept k hk
      · -- The origin of a dropped move is a file, and not this one.
        have hm := (List.mem_filter.mp hm).1
        intro hunder
        obtain ⟨-, -, hdir⟩ := h.above hmoves hd hkey hnone hunder (hown m hm)
        obtain ⟨bytes, hbytes⟩ := Option.isSome_iff_exists.mp (hmoves.files m hm)
        rw [Disk.isDir_eq_false_of_bytes? hbytes] at hdir
        cases hdir
      · simp [hout]
    · rw [originOf_eq_self fun m hm => hnone m (hsub m hm), originOf_eq_self hnone]

/-- A file that is moved to a free key is shown there. -/
theorem withMove_target {origin target : String} (h : w.FromDisk d origin text)
    (hmoves : MovesFiles d w) (hne : origin ≠ target) (htarget : ∀ m ∈ w.moves, m.2 ≠ target)
    (hkept : w.isGone target = false) : (w.withMove d origin target).FromDisk d target text := by
  obtain ⟨hholds, horigin⟩ :=
    originOf_movedMoves_target (d := d) hmoves.injection hne htarget fun hnone => by
      obtain ⟨-, hown, bytes, hbytes⟩ := h.own hnone
      exact (isReal_iff hmoves.dirMoves hnone).mpr ⟨hown, by rw [Disk.isFile, hbytes]; rfl⟩
  exact h.of_origin (v := w.withMove d origin target) rfl rfl hholds (.inr hkept) horigin

/-- The other files are left by a file move. -/
theorem withMove_of_ne {origin target : String} (h : w.FromDisk d key text)
    (hmoves : MovesFiles d w) (hne : origin ≠ target) (htarget : ∀ m ∈ w.moves, m.2 ≠ target)
    (horigin : key ≠ origin) (hkey : key ≠ target) :
    (w.withMove d origin target).FromDisk d key text := by
  obtain ⟨hholds, hsame⟩ :=
    originOf_movedMoves_of_ne (d := d) hmoves.injection hne htarget h.holds horigin hkey
  refine h.of_origin (v := w.withMove d origin target) rfl rfl hholds
    (h.kept.imp_left fun ⟨m, hm, heq⟩ => ?_) hsame
  exact ⟨m, (mem_movedMoves_iff hmoves.injection m).mpr (.inl ⟨hm, heq ▸ horigin⟩), heq⟩

end FromDisk

/-! ### Two runs -/

/-- The same changes are staged, and the texts that one of them has kept
besides are those of files on disk. -/
structure ReadsDisk (d : Disk) (w v : Workspace) : Prop where
  /-- More texts are kept. -/
  accords : Accords w v
  /-- Only files are moved. -/
  moves : MovesFiles d w
  /-- What is extra was read from disk. -/
  extra : ∀ key text, w.IsExtra v.texts key text → w.FromDisk d key text

/-- Under the key of an extra text, no other one is kept. -/
theorem Accords.find?_of_isExtra (h : Accords w v) (hextra : w.IsExtra v.texts key text) :
    w.texts.find? key = none := by
  cases htext : w.texts.find? key with
  | none => rfl
  | some other =>
      have hsame := (h.texts key other htext).symm.trans hextra.1
      exact absurd (htext.trans hsame) hextra.2

namespace ReadsDisk

/-- The answers are the same. -/
theorem sameAnswers (h : ReadsDisk d w v) (hd : d.IsTree) (hin : ∀ k ∈ v.texts.keys, Inside k) :
    SameAnswers w v d := by
  rw [h.accords.frame]
  refine sameAnswers_of_transparent h.accords.extends.keys hin fun key text hextra => ?_
  exact (h.extra key text hextra).transparent h.moves hd (hin key hextra.mem_keys)
    (h.accords.find?_of_isExtra hextra)

/-- A read in the one run. -/
theorem read (h : ReadsDisk d w v) (r : Read) : ReadsDisk d w (v.react d (.read r)) := by
  refine ⟨h.accords.read r, h.moves, ?_⟩
  rcases react_read_cases d v r with ⟨path, text, htext, -, hreact⟩ | hreact
  · rw [hreact]
    intro key other ⟨hv, hw⟩
    rw [show (v.withTexts (v.texts.insert (v.key path) text)).texts =
      v.texts.insert (v.key path) text from rfl, Table.find?_insert] at hv
    split at hv
    · rename_i heq
      cases hv
      rw [← heq] at htext
      cases hfind : v.texts.find? key with
      | some kept =>
          -- The text was kept already.
          rw [textOf_of_find? hfind htext] at hw ⊢
          exact h.extra key kept ⟨hfind, hw⟩
      | none =>
          rw [h.accords.frame] at hfind htext
          have hread := fromDisk_of_textOf (w := w.withTexts v.texts) h.moves.dirMoves hfind htext
          exact ⟨hread.holds, hread.kept, hread.read⟩
    · exact h.extra key other ⟨hv, hw⟩
  · rw [hreact]
    exact h.extra

/-- An accepted file move that displaces nothing has a target without a
text. -/
theorem target_free (h : ReadsDisk d w v) (hsame : SameAnswers w v d) {target : String}
    (hfree : w.fileExists d (w.key target) = false) (hkept : w.isGone (w.key target) = false) :
    w.key target ∉ v.texts.keys := by
  intro hmem
  have hfile := hsame.file target
  rw [h.accords.frame] at hfile
  have hexists : (w.withTexts v.texts).fileExists d (w.key target) = true :=
    (fileExists_withTexts_iff h.accords.extends.keys).mpr
      (.inr ⟨(isGone_eq_false_iff.mp hkept).1, hmem⟩)
  rw [show (w.withTexts v.texts).key = w.key from rfl, hexists, hfree] at hfile
  cases hfile

/-- A call that displaces nothing buries no text. -/
theorem not_buries (h : ReadsDisk d w v) (hsame : SameAnswers w v d) {c : Call}
    (hc : ¬ w.Displaces d c) : ¬ (w.textEdit d c).Buries v.texts := by
  intro hburies
  have hothers := textEdit_of_not_move (w := w) (d := d) (c := c)
  cases c with
  | moveFile origin target =>
      rcases apply_moveFile_cases d w origin target with ⟨hok, -⟩ | ⟨hrefused, -⟩
      · rw [textEdit, hok] at hburies
        exact h.target_free hsame (moveFile_eq_ok hok).2.1.1 (not_gone_of_not_displaces hok hc)
          hburies.2
      · rw [textEdit, hrefused] at hburies
        exact hburies
  | moveDir origin target =>
      rw [Displaces, Bool.not_eq_true] at hc
      rw [textEdit, hc] at hburies
      exact hburies
  | _ =>
      obtain ⟨hmove, hcarry⟩ := hothers rfl
      rcases TextEdit.moves_of_buries hburies with ⟨o, t, hedit, -⟩ | ⟨o, t, hedit⟩
      · exact hmove o t hedit
      · exact hcarry o t hedit

/-- A file that is moved to a key that is not gone takes its text along. -/
theorem extra_withMove (h : ReadsDisk d w v) (hsame : SameAnswers w v d) {o t : String}
    (hok : w.moveFile d o t = .ok (w.withMove d (w.key o) (w.key t)))
    (hkept : w.isGone (w.key t) = false)
    (hv : ((TextEdit.move (w.key o) (w.key t)).apply v.texts).find? key = some text)
    (hw : ((TextEdit.move (w.key o) (w.key t)).apply w.texts).find? key ≠ some text) :
    (w.withMove d (w.key o) (w.key t)).FromDisk d key text := by
  obtain ⟨hexists, ⟨hfile, hdir⟩, -⟩ := moveFile_eq_ok hok
  have hne := ne_of_free hexists hfile
  obtain ⟨htarget, -, -⟩ := h.moves.free_of_not_gone hkept hfile hdir
  have hfree := h.target_free hsame hfile hkept
  rcases TextEdit.extra_of_move h.accords.texts hfree hv hw with ⟨rfl, hextra⟩ | ⟨hkt, hko, hextra⟩
  · exact (h.extra _ _ hextra).withMove_target h.moves hne htarget hkept
  · exact (h.extra _ _ hextra).withMove_of_ne h.moves hne htarget hko hkt

/-- A call that displaces nothing keeps the extra texts those of files on
disk. -/
theorem extra_apply (h : ReadsDisk d w v) (hsame : SameAnswers w v d) (hd : d.IsTree)
    (hin : ∀ k ∈ v.texts.keys, Inside k) {c : Call} (hc : ¬ w.Displaces d c)
    (hextra : (w.apply d c).IsExtra (v.apply d c).texts key text) :
    (w.apply d c).FromDisk d key text := by
  obtain ⟨hv, hw⟩ := hextra
  rw [(h.accords.extends.apply_eq hsame c).1] at hv
  rw [texts_apply] at hw
  -- A text that did not move was extra before.
  have hothers := fun hmove hcarry =>
    TextEdit.extra_of_apply (e := w.textEdit d c) hmove hcarry hv hw
  have hstill := textEdit_of_not_move (w := w) (d := d) (c := c)
  cases c with
  | moveFile origin target =>
      rcases apply_moveFile_cases d w origin target with ⟨hok, happly⟩ | ⟨hrefused, happly⟩
      · rw [textEdit, hok] at hv hw
        rw [happly]
        exact h.extra_withMove hsame hok (not_gone_of_not_displaces hok hc) hv hw
      · rw [textEdit, hrefused] at hv hw
        rw [happly]
        exact h.extra key text ⟨hv, hw⟩
  | moveDir origin target =>
      rcases apply_moveDir_cases d w origin target with ⟨hok, -⟩ | ⟨hrefused, happly⟩
      · exact absurd (by rw [Displaces, hok]; rfl) hc
      · rw [textEdit, hrefused] at hv hw
        rw [happly]
        exact h.extra key text ⟨hv, hw⟩
  | delete path mode =>
      obtain ⟨hextra, hfilter⟩ := hothers (by rintro _ _ ⟨⟩) (by rintro _ _ ⟨⟩)
      have hout := hfilter _ rfl
      rw [Bool.not_eq_true'] at hout
      have hkey := (Table.mem_keys_iff_find? _ _).mpr ⟨text, hextra.1⟩
      exact (h.extra key text hextra).delete h.moves hd (hin key hkey) hout mode
  | _ =>
      -- The other calls leave all files where they are.
      obtain ⟨hmove, hcarry⟩ := hstill rfl
      exact (h.extra key text (hothers hmove hcarry).1).apply rfl rfl

/-- A call that displaces nothing, in both runs. -/
theorem apply (h : ReadsDisk d w v) (hsame : SameAnswers w v d) (hd : d.IsTree)
    (hin : ∀ k ∈ v.texts.keys, Inside k) {c : Call} (hc : ¬ w.Displaces d c) :
    ReadsDisk d (w.apply d c) (v.apply d c) where
  accords := h.accords.apply hsame (by
    rw [(h.accords.extends.apply_eq hsame c).2]
    exact h.not_buries hsame hc)
  moves := h.moves.apply hc
  extra := fun _ _ hextra => h.extra_apply hsame hd hin hc hextra

end ReadsDisk

/-! ### Runs -/

/-- In a run that displaces nothing, what is extra was read from disk all
the way. -/
theorem readsDisk_runs {events : List Event} (hw : ReadsDisk d w w) (hd : d.IsTree)
    (hin : ∀ before, before <+: events → ∀ k ∈ (w.runEvents d before).texts.keys, Inside k)
    (hstays : ∀ before c, before ++ [.call c] <+: events → ¬ (w.runCalls d before).Displaces d c) :
    ∀ before, before <+: events → ReadsDisk d (w.runCalls d before) (w.runEvents d before) := by
  refine runs_induction hw (fun before c hpre hreads => ?_) fun before r _ hreads => hreads.read r
  have hbefore := hin before ((List.prefix_append before [_]).trans hpre)
  exact hreads.apply (hreads.sameAnswers hd hbefore) hd hbefore (hstays before c hpre)

/-- **Reads change no answer exactly as long as the read texts are
transparent.** Take a run of calls and reads of paths inside the project,
and the same run without its reads.

In all states both give the same answers if and only if each text that
only the reads have kept is transparent. If they do, and no call puts two
of the texts under one key, then the flushes write the same, report the
same, and leave the same workspace.

This is so if no directory is moved, and no file to where something is
deleted. -/
theorem sameAnswers_iff_transparent {d : Disk} (hd : d.IsTree) (root : String)
    (settings : Settings) (filter : PathFilter) (events : List Event) :
    let new := ofFilter root settings filter
    let bare := new.runCalls d
    let full := new.runEvents d
    (∀ e ∈ events, ∀ c ∈ e.asCalls, ∀ p ∈ c.paths,
        new.key p ≠ "" ∧ leaves (new.key p) = false) →
      ((∀ before, before <+: events → SameAnswers (bare before) (full before) d) ↔
        ∀ before, before <+: events → (bare before).AllTransparent d (full before).texts) ∧
      ((∀ before, before <+: events → SameAnswers (bare before) (full before) d) →
        (∀ before c, before ++ [.call c] <+: events →
          ¬ ((full before).textEdit d c).Buries (full before).texts) →
        SameFlush (bare events) (full events) d ∧
          (((full events).flush d).report?.isSome = true →
            ((full events).flush d).workspace = ((bare events).flush d).workspace)) ∧
      ((∀ before c, before ++ [.call c] <+: events → ¬ (bare before).Displaces d c) →
        (∀ before, before <+: events → SameAnswers (bare before) (full before) d) ∧
        ∀ before c, before ++ [.call c] <+: events →
          ¬ ((full before).textEdit d c).Buries (full before).texts) := by
  intro new bare full hpaths
  have hinside : ∀ before, before <+: events → ∀ c ∈ before.flatMap Event.asCalls,
      ∀ p ∈ c.paths, Inside (new.key p) := by
    intro before hpre c hc p hp
    obtain ⟨e, he, hc⟩ := List.mem_flatMap.mp hc
    exact inside_key (hpaths e (hpre.subset he) c hc p hp).1 (hpaths e (hpre.subset he) c hc p hp).2
  have hin : ∀ before, before <+: events → ∀ k ∈ (full before).texts.keys, Inside k := by
    intro before hpre
    have hst := stagedInside_run (d := d) (stagedInside_ofFilter root settings filter)
      (hinside before hpre)
    rw [← runEvents_eq_run] at hst
    exact hst.texts
  refine ⟨sameAnswers_runs_iff hin, fun hsame hburies => ?_, fun hstays => ?_⟩
  · have hacc := accords_runs Table.isAscending_empty hsame hburies events List.prefix_rfl
    -- A key inside is its own key, so that no text is saved under another one.
    have hkept : (bare events).SavesKept := by
      refine savesKept_run (fun k hk => by cases hk) fun c hc p hp => ?_
      obtain ⟨e, he, hcall⟩ := List.mem_filterMap.mp hc
      cases e with
      | call c' =>
          cases hcall
          have hmem : c ∈ events.flatMap Event.asCalls :=
            List.mem_flatMap.mpr ⟨.call c, he, List.mem_singleton_self c⟩
          exact new.key_within (hinside events List.prefix_rfl c hmem p hp).within
      | read r => cases hcall
    have hflush : SameFlush (bare events) (full events) d := hacc.sameFlush hkept
    exact ⟨hflush, hacc.workspace_flush_eq hflush⟩
  · have hnew : ReadsDisk d new new :=
      ⟨⟨rfl, fun k text htext => htext, Table.isAscending_empty, Table.isAscending_empty⟩,
        movesFiles_ofFilter d root settings filter, fun key text hextra => absurd hextra.1 hextra.2⟩
    have hreads := readsDisk_runs hnew hd hin hstays
    have hsame := fun before hpre => (hreads before hpre).sameAnswers hd (hin before hpre)
    refine ⟨hsame, fun before c hpre => ?_⟩
    have hbefore := (List.prefix_append before [_]).trans hpre
    rw [((hreads before hbefore).accords.extends.apply_eq (hsame before hbefore) c).2]
    exact (hreads before hbefore).not_buries (hsame before hbefore) (hstays before c hpre)

/-- A file that is read, moved, and read again. -/
def readAndMoved : List Event :=
  [.read (.content "a/x.js"), .call (.mkdir "n"), .call (.moveFile "a/x.js" "n/y.js"),
    .read (.lines "n/y.js"), .read (.list "n"), .call (.save "a/z.js" "z\n"),
    .call (.delete "n" .quiet), .read (.dirExists "a")]

/-- A directory that is moved, with a file in it that is read. -/
def readAndCarried : List Event :=
  [.call (.moveDir "a" "b"), .read (.content "b/x.js"), .call (.moveDir "b" "c")]

/-- The reads of the first run change no answer, since no directory is
moved; those of the second one change none, since what was read is shown
where it is carried. -/
theorem sameAnswers_iff_transparent_moved :
    let new := ofFilter "/root" Settings.default PathFilter.showAll
    oneFile.IsTree ∧
      (new.runEvents oneFile (readAndMoved.take 4)).texts.keys = ["n/y.js"] ∧
      SameFlush (new.runCalls oneFile readAndMoved) (new.runEvents oneFile readAndMoved) oneFile ∧
      ((new.runEvents oneFile readAndMoved).flush oneFile).workspace =
        ((new.runCalls oneFile readAndMoved).flush oneFile).workspace ∧
      (new.runEvents oneFile readAndCarried).texts.keys = ["c/x.js"] ∧
      SameAnswers (new.runCalls oneFile readAndCarried) (new.runEvents oneFile readAndCarried)
        oneFile := by
  intro new
  have htree : oneFile.IsTree := by decide
  obtain ⟨-, hflush, hstays⟩ := sameAnswers_iff_transparent htree "/root" Settings.default
    PathFilter.showAll readAndMoved (by decide +kernel)
  have hcalls := (forall_concat_prefix_iff readAndMoved (P := fun before e =>
    ∀ c ∈ e.call?, ¬ (new.runCalls oneFile before).Displaces oneFile c)).mpr (by decide +kernel)
  obtain ⟨hsame, hburies⟩ := hstays fun before c hpre => hcalls before (.call c) hpre c rfl
  obtain ⟨hwrites, hleaves⟩ := hflush hsame hburies
  obtain ⟨hcarried, -⟩ := sameAnswers_iff_transparent htree "/root" Settings.default
    PathFilter.showAll readAndCarried (by decide +kernel)
  have hclear : ∀ before ∈ readAndCarried.inits, (new.runCalls oneFile before).AllTransparent oneFile
      (new.runEvents oneFile before).texts := by decide +kernel
  exact ⟨htree, by decide +kernel, hwrites, hleaves (by decide +kernel), by decide +kernel,
    hcarried.mpr (fun before hpre => hclear before ((List.mem_inits _ _).mpr hpre)) _
      List.prefix_rfl⟩

/-- A file that is read where its directory was moved to. -/
def readWhereMoved : List Event := [.call (.moveDir "a" "n/b"), .read (.content "n/b/x.js")]

/-- The directory was moved to where the view shows none above. With the
text of the file kept there is one: other directories exist, other members
are listed, and another move is refused. -/
theorem content_readWhereMoved_changes_answers :
    let new := ofFilter "/root" Settings.default PathFilter.showAll
    let bare := new.runCalls oneFile readWhereMoved
    let full := new.runEvents oneFile readWhereMoved
    oneFile.IsTree ∧ full.pending = bare.pending ∧
      (bare.content oneFile "n/b/x.js").1 = .ok "x\n" ∧
      ¬ bare.AllTransparent oneFile full.texts ∧
      (bare.dirExists oneFile "n" = false ∧ full.dirExists oneFile "n" = true) ∧
      (bare.list oneFile "" = [] ∧ full.list oneFile "" = ["n"]) ∧
      outcome (bare.moveDir oneFile "n/b" "n") = .ok () ∧
      outcome (full.moveDir oneFile "n/b" "n") = .error (.targetDirExists "n") :=
  ⟨by decide, rfl, by decide +kernel⟩

end ScriptRefactor.Workspace
