import ScriptRefactor.Proofs.Workspace.FlushDeletions
import ScriptRefactor.Proofs.Workspace.ViewTree

/-!
# `ScriptRefactor.Proofs.Workspace.FlushStaged`: what is staged at and below deletions

A run that only stages directories and deletions and saves texts has a
view that adds what is staged to what is left on disk, key by key
(`OnlyStaged.fileExists_iff`, `OnlyStaged.dirExists_iff`). A flush makes
the staged directories first, deletes with all that is below, and writes
the texts last. So it leaves the files that the view shows
(`OnlyStaged.isFile_flush`), but not the directories:

* a directory that is staged below a deletion is made and deleted again,
  and one in place of a file is not made at all;
* a text that is staged below a deletion brings back the directories that
  the view shows as deleted;
* with a staged directory the ones above it are made, which the view does
  not show.

A flush that goes through leaves what the view shows exactly if none of
these is so (`Upheld`). None is if each call stages where there is a
directory, and no directory in place of a file (`Founds`).
-/

set_option autoImplicit false

namespace ScriptRefactor.Workspace

open ScriptRefactor.Path

variable {w : Workspace} {d : Disk} {key : String}

/-! ### Runs that stage -/

/-- Nothing is moved, all texts are to be written, and what is staged is
not deleted. -/
structure OnlyStaged (w : Workspace) : Prop where
  /-- No file is moved. -/
  moves : w.moves = []
  /-- No directory is moved. -/
  dirMoves : w.dirMoves = []
  /-- The texts are those to be written. -/
  saved : ∀ k, k ∈ w.saves.toList ↔ k ∈ w.texts.keys
  /-- A deletion of what is staged is taken back. -/
  kept : ∀ k, k ∈ w.texts.keys ∨ k ∈ w.dirs.toList → k ∉ w.deletions.keys

/-- A new workspace stages nothing. -/
theorem onlyStaged_ofFilter (root : String) (settings : Settings) (filter : PathFilter) :
    OnlyStaged (ofFilter root settings filter) where
  moves := rfl
  dirMoves := rfl
  saved := fun k => Iff.rfl
  kept := fun k hk => by rcases hk with hk | hk <;> cases hk

/-- A call that stages or deletes inside moves nothing. -/
theorem OnlyStaged.apply (h : OnlyStaged w) {c : Call} (hc : c.isOfStaging = true)
    (hpaths : ∀ p ∈ c.paths, Inside (w.key p)) : OnlyStaged (w.apply d c) := by
  -- What is staged now is no longer deleted.
  have herase : ∀ {k key}, (k = key ∨ k ∈ w.texts.keys ∨ k ∈ w.dirs.toList) →
      k ∉ (w.deletions.erase key).keys := by
    intro k key hk hgone
    obtain ⟨hgone, hne⟩ := (Table.mem_keys_erase _ _ _).mp hgone
    exact h.kept k (hk.resolve_left hne) hgone
  cases c with
  | mkdir path =>
      refine { h with kept := fun k hk => herase ?_ }
      rcases hk with hk | hk
      · exact .inr (.inl hk)
      · exact ((KeySet.mem_insert _ _ _).mp hk).imp_right .inr
  | save path text =>
      rw [apply_save (w.key_within (hpaths path (by simp [Call.paths])).within)]
      have htexts := Table.mem_keys_insert w.texts (w.key path)
      refine { h with saved := fun k => ?_, kept := fun k hk => herase ?_ }
      · rw [KeySet.mem_insert, htexts, h.saved]
      · rcases hk with hk | hk
        · exact ((htexts k _).mp hk).imp_right .inl
        · exact .inr (.inr hk)
  | delete path mode =>
      have hmem := mem_delete_of_no_moves (d := d) h.moves path mode
      obtain ⟨deletions, hdelete, -⟩ := w.delete_eq d path mode
      refine ⟨?_, ?_, fun k => ?_, fun k hk hgone => ?_⟩
      · rw [Workspace.apply, hdelete, dropped, h.moves, List.filter_nil]
      · rw [Workspace.apply, hdelete]
        exact h.dirMoves
      · rw [(hmem k).1, Workspace.apply, hdelete, ← h.saved]
        simp [dropped, KeySet.mem_filter]
      · rw [(hmem k).1, (hmem k).2.1, ← or_and_right] at hk
        rcases (hmem k).2.2.mp hgone with hgone | rfl
        · exact h.kept k hk.1 hgone
        · rw [isUnder_self] at hk
          cases hk.2
  | _ => cases hc

/-! ### The view -/

/-- The view shows the staged files, and those on disk that are not
gone. -/
theorem OnlyStaged.fileExists_iff (h : OnlyStaged w) : w.fileExists d key = true ↔
    key ∈ w.texts.keys ∨ (w.isGone key = false ∧ d.isFile (w.place key) = true) := by
  have hkept := h.kept key
  rw [fileExists_eq_true_iff, onDisk_of_no_moves h.moves h.dirMoves, isGone_eq_false_iff,
    stagedFiles, isMoveOrigin, h.moves]
  simp only [List.map_nil, List.append_nil, List.any_nil, true_and]
  constructor
  · rintro ⟨hnot, htext | ⟨hbelow, hfile⟩⟩
    · exact .inl htext
    · exact .inr ⟨⟨hnot, hbelow⟩, hfile⟩
  · -- A staged text takes back the deletion of its key.
    rintro (htext | ⟨⟨hnot, hbelow⟩, hfile⟩)
    · exact ⟨hkept (.inl htext), .inl htext⟩
    · exact ⟨hnot, .inr ⟨hbelow, hfile⟩⟩

/-- The view shows the staged directories, those that hold staged texts,
and those on disk that are not gone. -/
theorem OnlyStaged.dirExists_iff (h : OnlyStaged w) : w.dirExists d key = true ↔
    key = "" ∨ (key ∉ w.deletions.keys ∧ (key ∈ w.dirs.toList ∨ w.HoldsText key)) ∨
      (w.isGone key = false ∧ d.isDir (w.place key) = true) := by
  rw [dirExists_eq_true_iff, onDisk_of_no_moves h.moves h.dirMoves, isGone_eq_false_iff,
    stagedFiles, stagedDirs, h.moves, h.dirMoves, HoldsText]
  simp only [List.map_nil, List.append_nil, and_or_left, and_assoc, or_assoc]

/-! ### The flush -/

/-- A directory is made at the key, or below it. -/
def Makes (w : Workspace) (d : Disk) (key : String) : Prop :=
  ∃ k ∈ w.dirs.toList, d.isFile (w.place k) = false ∧ isUnder k key = true

/-- Without moves, a flush makes directories, deletes, and writes
texts. -/
theorem OnlyStaged.exists_created (h : OnlyStaged w) (hok : (w.flush d).report?.isSome = true) :
    ∃ d₁, w.dirs.toList.foldlM w.createdOn d = some d₁ ∧
      w.saves.toList.foldlM w.savedOn (w.deletions.keys.foldl w.deletedOn d₁) =
        some (w.flush d).disk := by
  obtain ⟨d₁, d₂, d₃, hdirs, hdirMoves, hmoves, hsaves⟩ :=
    w.phases_eq_some (w.phases_of_report hok)
  rw [h.dirMoves] at hdirMoves
  rw [h.moves] at hmoves
  cases hdirMoves
  cases hmoves
  exact ⟨d₁, hdirs, hsaves⟩

/-- A flush leaves the files that it writes, and those on disk that are
not gone. -/
theorem OnlyStaged.isFile_flush (h : OnlyStaged w) (hin : KeysInside w) (hd : d.IsTree)
    (hok : (w.flush d).report?.isSome = true) (hkey : Within key) :
    (w.flush d).disk.isFile (w.place key) = true ↔
      key ∈ w.texts.keys ∨ (w.isGone key = false ∧ d.isFile (w.place key) = true) := by
  obtain ⟨d₁, hdirs, hsaves⟩ := h.exists_created hok
  obtain ⟨hd₁, hcreated⟩ := bytes?_foldlM_createdOn hd hdirs
  have hd₂ := (find?_foldl_deletedOn (w := w) hin.deletions hd₁).1
  have hapart : w.TellsApart (key :: w.saves.toList) := tellsApart_of_within
    (List.forall_mem_cons.mpr ⟨hkey, fun k hk => (hin.saves k hk).within⟩)
  rw [Disk.isFile, bytes?_foldlM_savedOn hapart (fun k hk => List.mem_cons_of_mem _ hk) hd₂ hsaves
    key (List.mem_cons_self ..)]
  by_cases htext : key ∈ w.texts.keys
  · -- The key has a text, and is to be written.
    rw [if_pos ((h.saved key).mpr htext)]
    obtain ⟨text, hfind⟩ := (Table.mem_keys_iff_find? _ _).mp htext
    rw [hfind]
    exact iff_of_true rfl (.inl htext)
  · rw [if_neg (mt (h.saved key).mp htext), bytes?_foldl_deletedOn hin.deletions hd₁ hkey, hcreated,
      isGone, Disk.isFile]
    cases w.deletions.keys.any (isUnder key) <;> simp [htext]

/-- The directories behind the first phase of a flush. -/
theorem isDir_created (hst : StagedInside w) (hd : d.IsTree) {d₁ : Disk}
    (hdirs : w.dirs.toList.foldlM w.createdOn d = some d₁) (hkey : Within key) :
    d₁.isDir (w.place key) = true ↔ d.isDir (w.place key) = true ∨ w.Makes d key := by
  rw [isDir_foldlM_createdOn hd hdirs]
  refine or_congr_right (exists_congr fun k => and_congr_right fun hk => and_congr_right fun _ => ?_)
  exact w.prefix_place_iff (hst.dirs k hk).within hkey

/-- A flush that goes through makes no directory in place of a file. -/
theorem OnlyStaged.isFile_of_makes (h : OnlyStaged w) (hst : StagedInside w) (hd : d.IsTree)
    (hok : (w.flush d).report?.isSome = true) (hkey : Within key) (hmakes : w.Makes d key) :
    d.isFile (w.place key) = false := by
  obtain ⟨d₁, hdirs, -⟩ := h.exists_created hok
  have hdir := (isDir_created hst hd hdirs hkey).mpr (.inr hmakes)
  rw [Disk.isFile, ← (bytes?_foldlM_createdOn hd hdirs).2, Disk.bytes?_eq_none_of_isDir hdir]
  rfl

/-- A flush leaves the directories above the texts that it writes, and of
those on disk and those made the ones that are not gone. -/
theorem OnlyStaged.isDir_flush (h : OnlyStaged w) (hin : KeysInside w) (hst : StagedInside w)
    (hd : d.IsTree) (hok : (w.flush d).report?.isSome = true) (hkey : Within key) :
    (w.flush d).disk.isDir (w.place key) = true ↔ w.HoldsText key ∨
      (w.isGone key = false ∧ (d.isDir (w.place key) = true ∨ w.Makes d key)) := by
  obtain ⟨d₁, hdirs, hsaves⟩ := h.exists_created hok
  have hd₁ := (bytes?_foldlM_createdOn hd hdirs).1
  obtain ⟨hd₂, hdeleted⟩ := find?_foldl_deletedOn (w := w) hin.deletions hd₁
  have habove : (∃ k ∈ w.saves.toList, k ∈ w.texts.keys ∧ w.place key <+: w.place k ∧
      w.place key ≠ w.place k) ↔ w.HoldsText key := by
    refine exists_congr fun k => ?_
    rw [h.saved]
    constructor
    · rintro ⟨hk, -, hpre, hne⟩
      have hwithin := (hst.texts k hk).within
      exact ⟨hk, fun heq => hne (heq ▸ rfl), (w.prefix_place_iff hwithin hkey).mp hpre⟩
    · rintro ⟨hk, hne, hunder⟩
      have hwithin := (hst.texts k hk).within
      exact ⟨hk, hk, (w.prefix_place_iff hwithin hkey).mpr hunder,
        fun heq => hne ((w.place_inj hkey hwithin).mp heq).symm⟩
  rw [isDir_foldlM_savedOn hd₂ hsaves, habove, ← isDir_created hst hd hdirs hkey, Disk.isDir_iff,
    hdeleted key hkey, isGone, Disk.isDir_iff, or_comm]
  cases w.deletions.keys.any (isUnder key) <;> simp

/-! ### Staged changes that hold -/

/-- What the view shows of the staged directories and texts is what a
flush leaves. -/
structure Upheld (w : Workspace) (d : Disk) : Prop where
  /-- No directory above a staged text is deleted. -/
  texts : ∀ t ∈ w.texts.keys, ∀ k ∈ upwards t, k ∉ w.deletions.keys
  /-- A text is staged below a staged directory, or the directory is not
  below a deletion and not in place of a file. -/
  dirs : ∀ k ∈ w.dirs.toList,
    w.HoldsText k ∨ (w.isBelowDeletion k = false ∧ d.isFile (w.place k) = false)
  /-- The directories made on the way to a staged one are shown, unless
  they are deleted again. -/
  shown : ∀ j ∈ w.dirs.toList, d.isFile (w.place j) = false →
    ∀ k ∈ upwards j, w.isGone k = false → w.dirExists d k = true

instance (w : Workspace) (d : Disk) : Decidable (w.Upheld d) :=
  decidable_of_iff ((∀ t ∈ w.texts.keys, ∀ k ∈ upwards t, k ∉ w.deletions.keys)
      ∧ (∀ k ∈ w.dirs.toList,
        w.HoldsText k ∨ (w.isBelowDeletion k = false ∧ d.isFile (w.place k) = false))
      ∧ ∀ j ∈ w.dirs.toList, d.isFile (w.place j) = false →
        ∀ k ∈ upwards j, w.isGone k = false → w.dirExists d k = true)
    ⟨fun ⟨h1, h2, h3⟩ => ⟨h1, h2, h3⟩, fun h => ⟨h.texts, h.dirs, h.shown⟩⟩

/-- If a flush leaves the directories that the view shows, then what is
staged is upheld. -/
theorem OnlyStaged.upheld_of_isDir_eq (h : OnlyStaged w) (hin : KeysInside w)
    (hst : StagedInside w) (hd : d.IsTree) (hok : (w.flush d).report?.isSome = true)
    (hshown : ∀ key, Within key → (w.flush d).disk.isDir (w.place key) = w.dirExists d key) :
    w.Upheld d := by
  have hleaves : ∀ key, Within key → (w.dirExists d key = true ↔ w.HoldsText key ∨
      (w.isGone key = false ∧ (d.isDir (w.place key) = true ∨ w.Makes d key))) := by
    intro key hkey
    rw [← hshown key hkey, h.isDir_flush hin hst hd hok hkey]
  refine ⟨fun t ht k hk hgone => ?_, fun k hk => ?_, fun j hj hfile k hk hkept => ?_⟩
  · -- The flush leaves the directories above a text, so the view shows them.
    have hne : t ≠ k := fun heq => h.kept t (.inl ht) (heq ▸ hgone)
    have hdir := (hleaves k (hin.deletions k hgone).within).mpr
      (.inl ⟨t, ht, hne, mem_upwards.mp hk⟩)
    exact hin.not_deleted hdir hgone
  · -- The view shows a staged directory, so the flush leaves it.
    have hkept := h.kept k (.inr hk)
    have hwithin := (hst.dirs k hk).within
    have hdir := (hleaves k hwithin).mp (h.dirExists_iff.mpr (.inr (.inl ⟨hkept, .inl hk⟩)))
    refine hdir.imp_right fun ⟨hgone, hthere⟩ => ⟨(isGone_eq_false_iff.mp hgone).2, ?_⟩
    rcases hthere with hdisk | hmakes
    · rw [Disk.isFile, Disk.bytes?_eq_none_of_isDir hdisk]
      rfl
    · exact h.isFile_of_makes hst hd hok hwithin hmakes
  · -- The flush makes the directories on the way, so the view shows them.
    have hunder := mem_upwards.mp hk
    exact (hleaves k ((hst.dirs j hj).within.of_isUnder hunder)).mpr
      (.inr ⟨hkept, .inr ⟨j, hj, hfile, hunder⟩⟩)

/-- If what is staged is upheld, then a flush leaves the directories that
the view shows. -/
theorem Upheld.isDir_eq (hup : w.Upheld d) (h : OnlyStaged w) (hin : KeysInside w)
    (hst : StagedInside w) (hd : d.IsTree) (hroot : d.isDir (w.place "") = true)
    (hok : (w.flush d).report?.isSome = true) (hkey : Within key) :
    (w.flush d).disk.isDir (w.place key) = w.dirExists d key := by
  rw [Bool.eq_iff_iff, h.isDir_flush hin hst hd hok hkey]
  constructor
  · rintro (⟨t, ht, hne, hunder⟩ | ⟨hgone, hdisk | ⟨j, hj, hfile, hunder⟩⟩)
    · have hkept := hup.texts t ht key (mem_upwards.mpr hunder)
      exact h.dirExists_iff.mpr (.inr (.inl ⟨hkept, .inr ⟨t, ht, hne, hunder⟩⟩))
    · exact h.dirExists_iff.mpr (.inr (.inr ⟨hgone, hdisk⟩))
    · exact hup.shown j hj hfile key (mem_upwards.mpr hunder) hgone
  · intro hdir
    rcases h.dirExists_iff.mp hdir with rfl | ⟨hkept, hstaged | htext⟩ | ⟨hgone, hdisk⟩
    · exact .inr ⟨hin.root_not_gone, .inl hroot⟩
    · -- A staged directory is made, unless a text brings it back.
      refine (hup.dirs key hstaged).imp_right fun ⟨hbelow, hfile⟩ => ?_
      exact ⟨isGone_eq_false_iff.mpr ⟨hkept, hbelow⟩, .inr ⟨key, hstaged, hfile, isUnder_self key⟩⟩
    · exact .inl htext
    · exact .inr ⟨hgone, .inl hdisk⟩

/-! ### Calls that found -/

/-- The call stages where there is a directory, and no directory in place
of a file on disk. -/
def Founds (w : Workspace) (d : Disk) : Call → Prop
  | .mkdir path =>
    w.dirExists d (parent (w.key path)) = true ∧ d.isFile (w.place (w.key path)) = false
  | .save path _ => w.dirExists d (parent (w.key path)) = true
  | _ => True

instance (w : Workspace) (d : Disk) (c : Call) : Decidable (w.Founds d c) :=
  match c with
  | .mkdir .. => inferInstanceAs (Decidable (_ ∧ _))
  | .save .. => inferInstanceAs (Decidable (_ = true))
  | .put .. | .delete .. | .moveFile .. | .moveDir .. | .content .. | .invalidate .. =>
      inferInstanceAs (Decidable True)

/-- The key is a directory without any text below it: the project, a
staged directory, or one on disk that is not gone. -/
def IsFirm (w : Workspace) (d : Disk) (key : String) : Prop :=
  key = "" ∨ key ∈ w.dirs.toList ∨ (w.isGone key = false ∧ d.isDir (w.place key) = true)

/-- What is staged stands in firm directories, and the staged directories
are made. -/
structure Grounded (w : Workspace) (d : Disk) : Prop where
  /-- Above what is staged there are firm directories. -/
  above : ∀ k, k ∈ w.texts.keys ∨ k ∈ w.dirs.toList → ∀ dir, dir ≠ k → isUnder k dir = true →
    w.IsFirm d dir
  /-- A staged directory is not gone, and not in place of a file. -/
  dirs : ∀ k ∈ w.dirs.toList, w.isGone k = false ∧ d.isFile (w.place k) = false

/-- A new workspace stages nothing. -/
theorem grounded_ofFilter (d : Disk) (root : String) (settings : Settings) (filter : PathFilter) :
    Grounded (ofFilter root settings filter) d where
  above := fun k hk => by rcases hk with hk | hk <;> cases hk
  dirs := fun k hk => by cases hk

/-- A firm directory stays firm where no less is staged and no more is
gone. -/
theorem IsFirm.mono {v : Workspace} (h : w.IsFirm d key) (hroot : v.root = w.root)
    (hdirs : key ∈ w.dirs.toList → key ∈ v.dirs.toList)
    (hgone : w.isGone key = false → v.isGone key = false) : v.IsFirm d key := by
  refine h.imp_right (Or.imp hdirs fun ⟨hkept, hdisk⟩ => ⟨hgone hkept, ?_⟩)
  rwa [place_congr hroot]

/-- A firm directory is not gone. -/
theorem Grounded.isGone_of_firm (hg : w.Grounded d) (hin : KeysInside w) (h : w.IsFirm d key) :
    w.isGone key = false := by
  rcases h with rfl | hstaged | ⟨hkept, -⟩
  · exact hin.root_not_gone
  · exact (hg.dirs key hstaged).1
  · exact hkept

/-- A directory that the view shows is firm, and so are those above it. -/
theorem Grounded.firm_of_dirExists (hg : w.Grounded d) (h : OnlyStaged w) (hd : d.IsTree)
    (hkey : Within key) (hdir : w.dirExists d key = true) {top : String}
    (hunder : isUnder key top = true) : w.IsFirm d top := by
  obtain ⟨names, hnames, rfl⟩ := hkey
  obtain ⟨b, hpre, rfl⟩ := exists_prefix_of_isUnder hnames hunder
  rcases h.dirExists_iff.mp hdir with hroot | ⟨-, hstaged | ⟨t, ht, hne, htop⟩⟩ | ⟨hkept, hdisk⟩
  · -- Above the project there is nothing else.
    have hnil : names = [] := (ofNames_inj hnames (by simp)).mp hroot
    rw [hnil, List.prefix_nil] at hpre
    exact .inl (by rw [hpre]; rfl)
  · by_cases heq : ofNames b = ofNames names
    · exact .inr (.inl (heq ▸ hstaged))
    · exact hg.above _ (.inr hstaged) _ heq hunder
  · -- A text stands below, and so below what is above.
    refine hg.above t (.inl ht) _ ?_ (isUnder_trans htop hunder)
    rintro rfl
    have hback := (isUnder_ofNames (fun n hn => hnames n (hpre.subset hn)) hnames).mp htop
    exact hne (by rw [hpre.eq_of_length_le hback.length_le])
  · refine .inr (.inr ⟨isGone_of_isUnder hkept hunder, ?_⟩)
    by_cases heq : w.place (ofNames b) = w.place (ofNames names)
    · rw [heq]
      exact hdisk
    · refine hd.isDir_of_prefix ((w.prefix_place_ofNames hnames fun n hn =>
        hnames n (hpre.subset hn)).mpr hpre) heq ?_
      rw [Disk.occupied, Disk.isDir_iff.mp hdisk, Option.isSome_some]

/-- What is above a key in a directory that is there is firm. -/
theorem Grounded.firm_above (hg : w.Grounded d) (h : OnlyStaged w) (hd : d.IsTree)
    (hkey : Inside key) (hdir : w.dirExists d (parent key) = true) {top : String} (hne : top ≠ key)
    (hunder : isUnder key top = true) : w.IsFirm d top :=
  hg.firm_of_dirExists h hd hkey.within_parent hdir (isUnder_parent hkey hne hunder)

/-- A key in a directory that is there is below no deletion. -/
theorem Grounded.isGone_erase (hg : w.Grounded d) (h : OnlyStaged w) (hin : KeysInside w)
    (hd : d.IsTree) (hkey : Inside key) (hdir : w.dirExists d (parent key) = true) :
    ((w.deletions.erase key).keys.any (isUnder key)) = false := by
  rw [List.any_eq_false]
  intro k hk hunder
  obtain ⟨hk, hne⟩ := (Table.mem_keys_erase _ _ _).mp hk
  have hkept := hg.isGone_of_firm hin (hg.firm_above h hd hkey hdir hne hunder)
  exact (isGone_eq_false_iff.mp hkept).1 hk

/-- Fewer deletions leave more. -/
theorem isGone_erase_of_not_gone (h : w.isGone key = false) (k : String) :
    ((w.deletions.erase k).keys.any (isUnder key)) = false := by
  rw [isGone, List.any_eq_false] at h
  exact List.any_eq_false.mpr fun j hj => h j ((Table.mem_keys_erase _ _ _).mp hj).1

/-- A directory that is staged in one that is there, and not in place of a
file. -/
theorem Grounded.mkdir (hg : w.Grounded d) (h : OnlyStaged w) (hin : KeysInside w) (hd : d.IsTree)
    {path : String} (hkey : Inside (w.key path)) (hfounds : w.Founds d (.mkdir path)) :
    (w.apply d (.mkdir path)).Grounded d := by
  obtain ⟨hdir, hfile⟩ := hfounds
  have hdirs := KeySet.mem_insert w.dirs (w.key path)
  have hfirm : ∀ {top}, w.IsFirm d top → (w.apply d (.mkdir path)).IsFirm d top :=
    fun htop => htop.mono rfl (fun hk => (hdirs _).mpr (.inr hk))
      fun hkept => isGone_erase_of_not_gone hkept _
  refine ⟨fun k hk top hne hunder => hfirm ?_, fun k hk => ?_⟩
  · rcases hk with hk | hk
    · exact hg.above k (.inl hk) top hne hunder
    · rcases (hdirs k).mp hk with rfl | hk
      · exact hg.firm_above h hd hkey hdir hne hunder
      · exact hg.above k (.inr hk) top hne hunder
  · rcases (hdirs k).mp hk with rfl | hk
    · exact ⟨hg.isGone_erase h hin hd hkey hdir, hfile⟩
    · exact ⟨isGone_erase_of_not_gone (hg.dirs k hk).1 _, (hg.dirs k hk).2⟩

/-- A text that is saved in a directory that is there. -/
theorem Grounded.save (hg : w.Grounded d) (h : OnlyStaged w) (hd : d.IsTree) {path : String}
    (text : String) (hkey : Inside (w.key path)) (hfounds : w.Founds d (.save path text)) :
    (w.apply d (.save path text)).Grounded d := by
  have htexts := Table.mem_keys_insert w.texts (w.key path)
  rw [apply_save (w.key_within hkey.within)]
  refine ⟨fun k hk top hne hunder => IsFirm.mono (w := w) ?_ rfl id
    fun hkept => isGone_erase_of_not_gone hkept _, fun k hk =>
      ⟨isGone_erase_of_not_gone (hg.dirs k hk).1 _, (hg.dirs k hk).2⟩⟩
  rcases hk with hk | hk
  · rcases (htexts k _).mp hk with rfl | hk
    · exact hg.firm_above h hd hkey hfounds hne hunder
    · exact hg.above k (.inl hk) top hne hunder
  · exact hg.above k (.inr hk) top hne hunder

/-- A deletion leaves what is not under it. -/
theorem Grounded.delete (hg : w.Grounded d) (h : OnlyStaged w) (path : String)
    (mode : DeleteMode) : (w.apply d (.delete path mode)).Grounded d := by
  have hmem := mem_delete_of_no_moves (d := d) h.moves path mode
  have hroot := root_apply d w (.delete path mode)
  -- What is not under the deleted key is not gone now.
  have hgone : ∀ {k}, isUnder k (w.key path) = false → w.isGone k = false →
      (w.apply d (.delete path mode)).isGone k = false := by
    intro k hout hkept
    rw [isGone, List.any_eq_false] at hkept ⊢
    intro j hj hunder
    rcases (hmem j).2.2.mp hj with hj | rfl
    · exact hkept j hj hunder
    · rw [hout] at hunder
      cases hunder
  refine ⟨fun k hk top hne hunder => ?_, fun k hk => ?_⟩
  · rw [(hmem k).1, (hmem k).2.1, ← or_and_right] at hk
    have hout : isUnder top (w.key path) = false := by
      rw [← Bool.not_eq_true]
      intro hgone
      rw [isUnder_trans hunder hgone] at hk
      cases hk.2
    exact (hg.above k hk.1 top hne hunder).mono hroot
      (fun htop => (hmem top).2.1.mpr ⟨htop, hout⟩) (hgone hout)
  · obtain ⟨hk, hout⟩ := (hmem k).2.1.mp hk
    rw [place_congr hroot]
    exact ⟨hgone hout (hg.dirs k hk).1, (hg.dirs k hk).2⟩

/-- A call that founds what it stages keeps all grounded. -/
theorem Grounded.apply (hg : w.Grounded d) (h : OnlyStaged w) (hin : KeysInside w) (hd : d.IsTree)
    {c : Call} (hc : c.isOfStaging = true) (hpaths : ∀ p ∈ c.paths, Inside (w.key p))
    (hfounds : w.Founds d c) : (w.apply d c).Grounded d := by
  cases c with
  | mkdir path => exact hg.mkdir h hin hd (hpaths path (by simp [Call.paths])) hfounds
  | save path text => exact hg.save h hd text (hpaths path (by simp [Call.paths])) hfounds
  | delete path mode => exact hg.delete h path mode
  | _ => cases hc

/-- What is grounded is upheld. -/
theorem Grounded.upheld (hg : w.Grounded d) (h : OnlyStaged w) (hin : KeysInside w) :
    w.Upheld d := by
  have hkept : ∀ k, k ∈ w.texts.keys ∨ k ∈ w.dirs.toList → ∀ top ∈ upwards k,
      top ∉ w.deletions.keys := by
    intro k hk top htop
    by_cases heq : top = k
    · exact heq ▸ h.kept k hk
    · have hfirm := hg.above k hk top heq (mem_upwards.mp htop)
      exact (isGone_eq_false_iff.mp (hg.isGone_of_firm hin hfirm)).1
  refine ⟨fun t ht => hkept t (.inl ht), fun k hk => .inr ?_, fun j hj _ k hk _ => ?_⟩
  · exact ⟨(isGone_eq_false_iff.mp (hg.dirs k hk).1).2, (hg.dirs k hk).2⟩
  · have hnot := hkept j (.inr hj) k hk
    rw [h.dirExists_iff]
    by_cases heq : k = j
    · exact .inr (.inl ⟨hnot, .inl (heq ▸ hj)⟩)
    · rcases hg.above j (.inr hj) k heq (mem_upwards.mp hk) with hroot | hstaged | hdisk
      · exact .inl hroot
      · exact .inr (.inl ⟨hnot, .inl hstaged⟩)
      · exact .inr (.inr hdisk)

/-! ### Runs -/

/-- **A flush of staged, deleted and saved keys leaves the files that the
view shows, and the directories exactly if what is staged is upheld.**
Take a run that only stages directories and deletions and saves texts
inside the project, and a flush of it that goes through. For every key it
leaves a file exactly if the view showed one. For every key it leaves a
directory exactly if the view showed one, if and only if no text is
staged below a deletion, each staged directory is made and kept, and the
ones above it were shown.

This is so if each call stages where there is a directory, and stages no
directory in place of a file on disk. -/
theorem flush_leaves_shown_iff_upheld {d : Disk} (hd : d.IsTree) (root : String)
    (settings : Settings) (filter : PathFilter) (calls : List Call) :
    let new := ofFilter root settings filter
    let w := new.run d calls
    let after := (w.flush d).disk
    d.isDir (new.place "") = true →
      (∀ c ∈ calls, c.isOfStaging = true ∧
        ∀ p ∈ c.paths, new.key p ≠ "" ∧ leaves (new.key p) = false) →
      ((w.flush d).report?.isSome = true →
        (∀ key, Within key → after.isFile (w.place key) = w.fileExists d key) ∧
        ((∀ key, Within key → after.isDir (w.place key) = w.dirExists d key) ↔ w.Upheld d)) ∧
      ((∀ before c, before ++ [c] <+: calls → (new.run d before).Founds d c) → w.Upheld d) := by
  intro new w after hroot hcalls
  -- The key depends on the root only, which no call changes.
  have hpaths : ∀ c ∈ calls, ∀ p ∈ c.paths, Inside (new.key p) := fun c hc p hp =>
    inside_key ((hcalls c hc).2 p hp).1 ((hcalls c hc).2 p hp).2
  have hin : ∀ before, (∀ c ∈ before, c ∈ calls) → KeysInside (new.run d before) :=
    fun before hsub => keysInside_run (keysInside_ofFilter root settings filter)
      fun c hc => hpaths c (hsub c hc)
  have hst : StagedInside w := stagedInside_run (stagedInside_ofFilter root settings filter) hpaths
  have honly : ∀ before, (∀ c ∈ before, c ∈ calls) → OnlyStaged (new.run d before) := by
    refine fun before hsub => run_induction_root (fun v hv hstaged c hc => ?_)
      (onlyStaged_ofFilter root settings filter)
    refine hstaged.apply (hcalls c (hsub c hc)).1 fun p hp => ?_
    rw [key_congr hv]
    exact hpaths c (hsub c hc) p hp
  have hplace : w.place = new.place := place_congr (root_run d new calls)
  have h : OnlyStaged w := honly calls fun c hc => hc
  have hinside : KeysInside w := hin calls fun c hc => hc
  refine ⟨fun hok => ⟨fun key hkey => ?_, ?_⟩, fun hfounds => ?_⟩
  · rw [Bool.eq_iff_iff, h.isFile_flush hinside hd hok hkey, h.fileExists_iff]
  · exact ⟨h.upheld_of_isDir_eq hinside hst hd hok, fun hup key hkey =>
      hup.isDir_eq h hinside hst hd (hplace ▸ hroot) hok hkey⟩
  · -- Each call stages where there is a directory, so the state stays grounded call by call.
    have hgrounded : ∀ before, before <+: calls → Grounded (new.run d before) d := by
      intro before hpre
      induction before using List.reverseRecOn with
      | nil => exact grounded_ofFilter d root settings filter
      | append_singleton before c ih =>
          have hbefore := (List.prefix_append before [c]).trans hpre
          have hc := hpre.subset (show c ∈ before ++ [c] by simp)
          rw [run_concat]
          refine (ih hbefore).apply (honly before fun c hc => hbefore.subset hc)
            (hin before fun c hc => hbefore.subset hc) hd (hcalls c hc).1 (fun p hp => ?_)
            (hfounds before c hpre)
          rw [key_congr (root_run d new before)]
          exact hpaths c hc p hp
    exact (hgrounded calls List.prefix_rfl).upheld h hinside

/-- The directory of the file is deleted and staged again, and filled. -/
def refilled : List Call :=
  [.delete "a" .warn, .mkdir "a", .delete "a/x.js" .warn, .mkdir "a/b", .save "a/b/y.js" "y\n"]

/-- Each call stages in a directory that is there, and the flush leaves
what was shown. -/
theorem flush_leaves_shown_iff_upheld_refilled :
    let w := (ofFilter "/root" Settings.default PathFilter.showAll).run oneFile refilled
    let after := (w.flush oneFile).disk
    oneFile.IsTree ∧ w.deletions.keys = ["a/x.js"] ∧ (w.flush oneFile).report?.isSome = true ∧
      w.Upheld oneFile ∧ ∀ key, Within key → after.isFile (w.place key) = w.fileExists oneFile key ∧
        after.isDir (w.place key) = w.dirExists oneFile key := by
  intro w after
  have htree : oneFile.IsTree := by decide
  obtain ⟨hflush, hcareful⟩ := flush_leaves_shown_iff_upheld htree "/root" Settings.default
    PathFilter.showAll refilled (by decide +kernel) (by decide +kernel)
  have hup := hcareful ((forall_concat_prefix_iff refilled (P := fun before c =>
    ((ofFilter "/root" Settings.default PathFilter.showAll).run oneFile before).Founds
      oneFile c)).mpr (by decide +kernel))
  have hok : (w.flush oneFile).report?.isSome = true := by decide +kernel
  obtain ⟨hfiles, hdirs⟩ := hflush hok
  exact ⟨htree, by decide +kernel, hok, hup, fun key hkey =>
    ⟨hfiles key hkey, hdirs.mpr hup key hkey⟩⟩

-- A text saved below a deletion brings back the directory, which the view does not show.
example :
    let w := (ofFilter "/root" Settings.default PathFilter.showAll).run oneFile
      [.delete "a" .warn, .save "a/y.js" "y\n"]
    ¬ w.Upheld oneFile ∧ w.dirExists oneFile "a" = false ∧
      (w.flush oneFile).disk.isDir (w.place "a") = true := by
  decide +kernel

/-- A directory is staged in a deleted one. -/
def stagedInDeleted : List Call := [.delete "a" .warn, .mkdir "a/b"]

/-- The view shows the staged directory, but the flush creates it before
it deletes the other one, and leaves none. -/
theorem flush_stagedInDeleted_loses_dir :
    let new := ofFilter "/root" Settings.default PathFilter.showAll
    let w := new.run oneFile stagedInDeleted
    let after := w.flush oneFile
    (oneFile.IsTree ∧ oneFile.isDir (new.place "") = true ∧ w.dirs.toList = ["a/b"] ∧
      w.deletions.keys = ["a"]) ∧ ¬ w.Upheld oneFile ∧
      after.report?.isSome = true ∧
      w.dirExists oneFile "a/b" = true ∧ after.disk.isDir (w.place "a/b") = false := by
  decide +kernel

end ScriptRefactor.Workspace
