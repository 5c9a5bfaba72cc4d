import ScriptRefactor.Proofs.Disk
import ScriptRefactor.Proofs.Workspace.Arrivals
import ScriptRefactor.Session.References

/-!
# `ScriptRefactor.Proofs.Workspace.ViewTree`: where the view is a tree

The view is *whole* if above all that it shows there are directories,
and each directory lists what it holds (`IsWhole`). It need not be: a
directory staged below none, or a text staged below a deleted directory,
has nothing above it.

Where this goes wrong can be told from what is staged (`Rooted`); other
keys stand on disk in the directory that the view shows above them. So a
view is whole exactly if it is rooted, and then the walk over its
listings finds all its modules (`isWhole_iff_rooted`).
-/

set_option autoImplicit false

namespace ScriptRefactor.Workspace

open ScriptRefactor.Path

/-! ### Whole views -/

/-- There is a file or a directory. -/
def shows (w : Workspace) (d : Disk) (key : String) : Bool :=
  w.fileExists d key || w.dirExists d key

/-- The key is listed in a directory that is there. -/
def hangs (w : Workspace) (d : Disk) (key : String) : Bool :=
  w.dirExists d (parent key) && (w.list d (parent key)).contains key

/-- Above what the view shows there are directories, and what it shows is
listed. -/
def IsWhole (w : Workspace) (d : Disk) : Prop :=
  ∀ key, Inside key → w.shows d key = true →
    (∀ dir, dir ≠ key → isUnder key dir = true → w.dirExists d dir = true)
      ∧ key ∈ w.list d (parent key)

/-- The files that staged changes bring in. -/
def stagedFiles (w : Workspace) : List String := w.texts.keys ++ w.moves.map Prod.snd

/-- The directories that staged changes bring in. -/
def stagedDirs (w : Workspace) : List String := w.dirs.toList ++ w.dirMoves.map Prod.snd

/-- The key and the directories above it. -/
def upwards (key : String) : List String :=
  (key.toList.inits.map String.ofList).filter (isUnder key)

/-- What stands on disk below the place of a key that a file was moved
to. -/
def covered (w : Workspace) (d : Disk) (key : String) : List String :=
  (beforeDirMoves w.dirMoves.reverse key).toList.flatMap fun k =>
    ((d.names (w.place k)).filter fun name => IsName name.toList).map (join key)

/-- What is staged has directories above it. -/
structure Rooted (w : Workspace) (d : Disk) : Prop where
  /-- On the way to a staged file, nothing stands in a deleted
  directory. -/
  files : ∀ file ∈ w.stagedFiles, ∀ key ∈ upwards file, w.shows d key = true →
    parent key ∉ w.deletions.keys
  /-- A staged directory stands in a directory. -/
  dirs : ∀ key ∈ w.stagedDirs, w.shows d key = true → w.dirExists d (parent key) = true
  /-- A moved directory is listed where it arrives. -/
  moved : ∀ key ∈ arrivals w.dirMoves, w.shows d key = true → w.hangs d key = true
  /-- A file was moved to no directory that still holds something. -/
  clear : ∀ m ∈ w.moves, ∀ key ∈ w.covered d m.2, w.shows d key = true → w.hangs d key = true

instance (w : Workspace) (d : Disk) : Decidable (w.Rooted d) :=
  decidable_of_iff ((∀ file ∈ w.stagedFiles, ∀ key ∈ upwards file, w.shows d key = true →
        parent key ∉ w.deletions.keys)
      ∧ (∀ key ∈ w.stagedDirs, w.shows d key = true → w.dirExists d (parent key) = true)
      ∧ (∀ key ∈ arrivals w.dirMoves, w.shows d key = true → w.hangs d key = true)
      ∧ ∀ m ∈ w.moves, ∀ key ∈ w.covered d m.2, w.shows d key = true → w.hangs d key = true)
    ⟨fun ⟨h1, h2, h3, h4⟩ => ⟨h1, h2, h3, h4⟩, fun h => ⟨h.files, h.dirs, h.moved, h.clear⟩⟩

/-- A key that the key is under is found on the way up. -/
theorem mem_upwards {key dir : String} : dir ∈ upwards key ↔ isUnder key dir = true := by
  rw [upwards, List.mem_filter]
  refine ⟨fun h => h.2, fun h => ⟨?_, h⟩⟩
  obtain ⟨rest, hrest⟩ := Option.isSome_iff_exists.mp h
  obtain ⟨htext, -⟩ := below?_eq_some_iff.mp hrest
  exact List.mem_map.mpr ⟨dir.toList, (List.mem_inits _ _).mpr ⟨rest, htext.symm⟩,
    String.ofList_toList⟩

variable {d : Disk} {w : Workspace} {key : String}

/-! ### What is staged and what is deleted -/

/-- A text is staged below the key. -/
def HoldsText (w : Workspace) (key : String) : Prop :=
  ∃ t ∈ w.texts.keys, t ≠ key ∧ isUnder t key = true

instance (w : Workspace) (key : String) : Decidable (w.HoldsText key) :=
  inferInstanceAs (Decidable (∃ t ∈ w.texts.keys, _))

/-- The key or a directory above it is to be deleted. -/
def isGone (w : Workspace) (key : String) : Bool := w.deletions.keys.any (isUnder key)

/-- What is not gone is not deleted, and not below a deletion. -/
theorem isGone_eq_false_iff :
    w.isGone key = false ↔ key ∉ w.deletions.keys ∧ w.isBelowDeletion key = false := by
  simp only [isGone, isBelowDeletion, List.any_eq_false, Bool.and_eq_true, decide_eq_true_eq,
    not_and, Bool.not_eq_true]
  constructor
  · intro hall
    refine ⟨fun hmem => ?_, fun k hk _ => hall k hk⟩
    have hself := hall key hmem
    rw [isUnder_self] at hself
    cases hself
  · rintro ⟨hnot, hbelow⟩ k hk
    refine hbelow k hk ?_
    rintro rfl
    exact hnot hk

/-- The project is not gone. -/
theorem KeysInside.root_not_gone (h : KeysInside w) : w.isGone "" = false :=
  List.any_eq_false.mpr fun k hk => by simp [(h.deletions k hk).not_above_root]

/-- What is above a key that is not gone is not gone. -/
theorem isGone_of_isUnder {dir : String} (h : w.isGone key = false)
    (hunder : isUnder key dir = true) : w.isGone dir = false := by
  rw [isGone, List.any_eq_false] at h ⊢
  exact fun k hk hdir => h k hk (isUnder_trans hunder hdir)

/-! ### What is there -/

/-- Where nothing was moved, what is on disk is what stands at the
place. -/
theorem onDisk_of_no_moves (hmoves : w.moves = []) (hdirMoves : w.dirMoves = []) (key : String)
    (p : Place → Bool) : w.onDisk key p = p (w.place key) := by
  rw [onDisk_eq_originOf hdirMoves, hmoves]
  rfl

/-- There is a file that is staged, or one on disk that was neither
deleted nor moved away. -/
theorem fileExists_eq_true_iff {key : String} :
    w.fileExists d key = true ↔ key ∉ w.deletions.keys ∧ (key ∈ w.stagedFiles ∨
      (w.isBelowDeletion key = false ∧ w.isMoveOrigin key = false
        ∧ w.onDisk key d.isFile = true)) := by
  have hstaged : key ∈ w.stagedFiles ↔ (w.texts.contains key || w.isMoveTarget key) = true := by
    simp [stagedFiles, isMoveTarget, ← Table.contains_iff_mem_keys]
  unfold fileExists
  rw [hstaged, ← Table.contains_iff_mem_keys]
  split
  · simp [*]
  · split
    · simp [*]
    · split
      · rename_i hgone
        simp only [Bool.or_eq_true] at hgone
        rcases hgone with h | h <;> simp [*]
      · simp_all

/-- There is a directory that is staged, that holds a staged file, or
that stands on disk and was not deleted. -/
theorem dirExists_eq_true_iff {key : String} :
    w.dirExists d key = true ↔ key = "" ∨ (key ∉ w.deletions.keys ∧ (key ∈ w.stagedDirs ∨
      (∃ file ∈ w.stagedFiles, file ≠ key ∧ isUnder file key = true) ∨
      (w.isBelowDeletion key = false ∧ w.onDisk key d.isDir = true))) := by
  have hdirs : (w.dirs.contains key || w.dirMoves.any (·.2 = key)) = true ↔ key ∈ w.stagedDirs := by
    simp [stagedDirs, ← KeySet.contains_iff]
  have hfiles : (w.texts.keys.any (fun k => k ≠ key && isUnder k key)
      || w.moves.any fun m => m.2 ≠ key && isUnder m.2 key) = true ↔
        ∃ file ∈ w.stagedFiles, file ≠ key ∧ isUnder file key = true := by
    simp only [stagedFiles, Bool.or_eq_true, List.any_eq_true, List.mem_append, List.mem_map,
      Bool.and_eq_true, decide_eq_true_eq, ne_eq]
    constructor
    · rintro (⟨file, hfile, h⟩ | ⟨m, hm, h⟩)
      · exact ⟨file, .inl hfile, h⟩
      · exact ⟨m.2, .inr ⟨m, hm, rfl⟩, h⟩
    · rintro ⟨file, hfile | ⟨m, hm, rfl⟩, h⟩
      · exact .inl ⟨file, hfile, h⟩
      · exact .inr ⟨m, hm, h⟩
  have hstaged : (w.dirs.contains key || w.dirMoves.any (·.2 = key)
      || w.texts.keys.any (fun k => k ≠ key && isUnder k key)
      || w.moves.any fun m => m.2 ≠ key && isUnder m.2 key) = true ↔
        key ∈ w.stagedDirs ∨ ∃ file ∈ w.stagedFiles, file ≠ key ∧ isUnder file key = true := by
    rw [Bool.or_assoc, Bool.or_eq_true, hdirs, hfiles]
  unfold dirExists
  dsimp only
  rw [← Table.contains_iff_mem_keys, ← or_assoc (a := key ∈ w.stagedDirs), ← hstaged]
  -- The tests of the program, one after the other.
  by_cases hroot : key = ""
  · simp [hroot]
  · rw [if_neg (by simpa [String.isEmpty_iff] using hroot)]
    simp only [hroot, false_or]
    split
    · simp [*]
    · rename_i hkept
      split
      · rename_i hnow
        exact iff_of_true rfl ⟨hkept, .inl hnow⟩
      · split <;> simp_all

/-- What is staged and not deleted is there with the directories above,
as long as none of these is deleted. -/
theorem dirExists_of_stagedFile {file key : String} (hfile : file ∈ w.stagedFiles)
    (hne : file ≠ key) (hunder : isUnder file key = true) (hkept : key ∉ w.deletions.keys) :
    w.dirExists d key = true :=
  dirExists_eq_true_iff.mpr (.inr ⟨hkept, .inr (.inl ⟨file, hfile, hne, hunder⟩)⟩)

/-- The root of the project is no deleted directory. -/
theorem KeysInside.root_not_deleted (h : KeysInside w) : "" ∉ w.deletions.keys := by
  intro hroot
  obtain ⟨names, hne, hnames, heq⟩ := h.deletions "" hroot
  exact joinWith_ne_nil hne hnames (String.ofList_injective heq.symm)

/-- A directory that is there is not deleted. -/
theorem KeysInside.not_deleted (h : KeysInside w) {key : String}
    (hdir : w.dirExists d key = true) : key ∉ w.deletions.keys := by
  rcases dirExists_eq_true_iff.mp hdir with rfl | ⟨hkept, -⟩
  · exact h.root_not_deleted
  · exact hkept

/-- What stands on disk for a key that no file was moved to stands where
the directory moves took it from. -/
theorem exists_place_of_onDisk {key : String} (hfile : key ∉ w.stagedFiles) {p : Place → Bool}
    (hon : w.onDisk key p = true) :
    ∃ k, beforeDirMoves w.dirMoves.reverse key = some k ∧ p (w.place k) = true := by
  have hfind : w.moves.find? (fun m => m.2 = key) = none := by
    refine List.find?_eq_none.mpr fun m hm => ?_
    rw [decide_eq_true_eq]
    rintro rfl
    exact hfile (List.mem_append_right _ (List.mem_map_of_mem hm))
  unfold onDisk diskKey? at hon
  rw [hfind] at hon
  dsimp only at hon
  split at hon
  · rename_i k hk
    exact ⟨k, hk, hon⟩
  · cases hon

/-- What is there without being staged stands on disk. -/
theorem exists_place_of_shows {key : String} (hshows : w.shows d key = true) (hne : key ≠ "")
    (hdirs : key ∉ w.stagedDirs) (hfiles : ∀ file ∈ w.stagedFiles, isUnder file key = false) :
    w.isBelowDeletion key = false ∧ key ∉ w.deletions.keys
      ∧ ∃ k, beforeDirMoves w.dirMoves.reverse key = some k ∧ d.occupied (w.place k) = true := by
  have hself := isUnder_self key
  have hfile : key ∉ w.stagedFiles := fun h => by
    rw [hfiles key h] at hself
    cases hself
  rcases Bool.or_eq_true_iff.mp hshows with h | h
  · obtain ⟨hkept, hstaged | ⟨hbelow, -, hon⟩⟩ := fileExists_eq_true_iff.mp h
    · exact absurd hstaged hfile
    · obtain ⟨k, hk, hisFile⟩ := exists_place_of_onDisk hfile hon
      obtain ⟨bytes, hbytes⟩ := Option.isSome_iff_exists.mp hisFile
      exact ⟨hbelow, hkept, k, hk, Disk.occupied_of_bytes? hbytes⟩
  · rcases dirExists_eq_true_iff.mp h with
      h | ⟨hkept, hstaged | ⟨file, hf, -, hunder⟩ | ⟨hbelow, hon⟩⟩
    · exact absurd h hne
    · exact absurd hstaged hdirs
    · exact absurd ((hfiles file hf).symm.trans hunder) (by decide)
    · obtain ⟨k, hk, hisDir⟩ := exists_place_of_onDisk hfile hon
      refine ⟨hbelow, hkept, k, hk, ?_⟩
      rw [Disk.occupied, Disk.isDir_iff.mp hisDir]
      rfl

/-! ### What is listed -/

/-- With a filter that shows all, a directory lists its members that are
there. -/
theorem mem_list_iff (hfilter : ∀ path, w.filter.shows path = true) {dir key : String}
    (hdir : w.key dir = dir) :
    key ∈ w.list d dir ↔ key ∈ (w.members d dir).toList ∧ w.shows d key = true := by
  have hlisted : w.isListed d key = w.shows d key := by
    have hshown := hfilter key
    have hhides : w.filter.hides key = false := by
      unfold PathFilter.shows at hshown
      simpa using (Bool.and_eq_true_iff.mp hshown).1
    unfold isListed shows
    rw [hshown, hhides]
    cases w.fileExists d key <;> cases w.dirExists d key <;> rfl
  rw [list, hdir, List.mem_filter, hlisted]

/-- What lies below a directory is reached through the next name. -/
theorem memberOf?_ofNames {b rest : List (List Char)} {n : List Char}
    (hall : ∀ m ∈ b ++ n :: rest, IsName m) :
    memberOf? (ofNames b) (ofNames (b ++ n :: rest)) = some (ofNames (b ++ [n])) := by
  obtain ⟨hb, hrest⟩ := List.forall_mem_append.mp hall
  have hn := hrest n (by simp)
  have hne : ofNames (b ++ n :: rest) ≠ ofNames b := by
    rw [Ne, ofNames_inj hall hb]
    simp
  -- The first name of the rest is the part up to the next slash.
  have hfirst : (Text.splitOn '/' (Text.joinWith ['/'] (n :: rest))).headD [] = n := by
    rw [splitOn_joinWith_names (by simp) hrest]
    rfl
  unfold memberOf?
  rw [if_neg hne]
  -- The root holds everything and has no slash behind it.
  cases b with
  | nil =>
      have hbelow : below? (ofNames (n :: rest)) (ofNames []) =
          some (ofNames (n :: rest)).toList :=
        below?_eq_some_iff.mpr ⟨rfl, .inl rfl⟩
      rw [List.nil_append, hbelow, Option.map_some, Option.some.injEq, ← join_ofNames hb hn]
      show join _ (String.ofList ((Text.splitOn '/' (ofNames (n :: rest)).toList).headD [])) = _
      have htext : (ofNames (n :: rest)).toList = Text.joinWith ['/'] (n :: rest) :=
        String.toList_ofList
      rw [htext, hfirst]
  | cons m b =>
      have hempty : (ofNames (m :: b)).isEmpty = false := by
        rw [String.isEmpty_eq_false_iff, ofNames]
        exact fun h => joinWith_ne_nil (by simp) hb (String.ofList_injective h)
      rw [below?_ofNames hall hb (by simp), if_pos (List.prefix_append _ _), List.drop_left,
        Option.map_some, Option.some.injEq, ← join_ofNames hb hn]
      dsimp only
      rw [hempty, List.flatMap_cons, List.cons_append, if_neg (by simp), List.drop_one,
        List.tail_cons, ← Text.joinWith_cons_eq_append, hfirst]

/-- What is staged at or below a name of a directory makes it a
member. -/
theorem mem_members_of_staged {b rest : List (List Char)} {n : List Char}
    (hall : ∀ m ∈ b ++ n :: rest, IsName m) (h : ofNames (b ++ n :: rest) ∈ w.stagedKeys) :
    ofNames (b ++ [n]) ∈ (w.members d (ofNames b)).toList := by
  unfold members
  exact (KeySet.mem_ofList _ _).mpr
    (List.mem_append_right _ (List.mem_filterMap.mpr ⟨_, h, memberOf?_ofNames hall⟩))

/-- A key is reached through the keys on the way up to it, each in the
directory that holds it. -/
theorem memberOf?_eq_some_iff {dir key k : String} (hkey : Inside key) :
    memberOf? dir key = some k ↔ k ∈ upwards key ∧ k ≠ "" ∧ parent k = dir := by
  obtain ⟨names, -, hnames, rfl⟩ := hkey
  constructor
  · intro h
    -- The key is below the directory, so one more name leads on.
    have hparts := h
    unfold memberOf? at hparts
    split at hparts
    · cases hparts
    · rename_i hne
      obtain ⟨rest, hrest, -⟩ := Option.map_eq_some_iff.mp hparts
      obtain ⟨b, ⟨tail, rfl⟩, rfl⟩ :=
        exists_prefix_of_isUnder hnames (Option.isSome_iff_exists.mpr ⟨rest, hrest⟩)
      cases tail with
      | nil => exact absurd (by rw [List.append_nil]) hne
      | cons n tail =>
          rw [memberOf?_ofNames hnames] at h
          cases h
          have hpre : b ++ [n] <+: b ++ n :: tail := ⟨tail, by simp⟩
          -- The names up to that one are the key that is reached.
          have hfront : ∀ m ∈ b ++ [n], IsName m := fun m hm => hnames m (hpre.subset hm)
          refine ⟨mem_upwards.mpr ((isUnder_ofNames hnames hfront).mpr hpre), ?_,
            parent_ofNames (hfront n (by simp))⟩
          exact Inside.ne_empty ⟨_, by simp, hfront, rfl⟩
  · rintro ⟨hup, hne, rfl⟩
    obtain ⟨a, ⟨tail, rfl⟩, rfl⟩ := exists_prefix_of_isUnder hnames (mem_upwards.mp hup)
    have ha : a ≠ [] := by
      rintro rfl
      exact hne rfl
    -- The last name of the key leads from its parent to it.
    rw [← List.dropLast_concat_getLast ha] at hnames ⊢
    have hlast := hnames (a.getLast ha) (by simp)
    rw [parent_ofNames hlast, List.append_assoc, List.singleton_append]
    rw [List.append_assoc, List.singleton_append] at hnames
    exact memberOf?_ofNames hnames

/-- What stands on disk below the place of a key is named there. -/
theorem mem_names_of_occupied {bs : List (List Char)} {n : List Char} (hn : IsName n)
    (hbs : ∀ m ∈ bs, IsName m) (hd : d.IsTree)
    (hocc : d.occupied (w.place (ofNames (bs ++ [n]))) = true) :
    d.isDir (w.place (ofNames bs)) = true ∧
      String.ofList n ∈ d.names (w.place (ofNames bs)) := by
  rw [w.place_ofNames_append hbs (by simpa using hn)] at hocc
  have hdir := Disk.isTree_iff.mp hd _ hocc
  rw [List.map_singleton, List.dropLast_concat] at hdir
  obtain ⟨e, he, heq⟩ := (Disk.occupied_iff_mem (by simp)).mp hocc
  refine ⟨hdir, ?_⟩
  rw [Disk.names, if_pos hdir]
  refine List.mem_filterMap.mpr ⟨e, he, ?_⟩
  rw [heq, Disk.nameIn?]
  simp

/-- What stands in the place of a directory makes it a member. -/
theorem mem_members_of_disk {b bs : List (List Char)} {n : List Char} (hb : ∀ m ∈ b, IsName m)
    (hn : IsName n) (hbs : ∀ m ∈ bs, IsName m) (hd : d.IsTree)
    (hdisk : w.diskKey? (ofNames b) = some (ofNames bs))
    (hocc : d.occupied (w.place (ofNames (bs ++ [n]))) = true) :
    ofNames (b ++ [n]) ∈ (w.members d (ofNames b)).toList := by
  unfold members
  refine (KeySet.mem_ofList _ _).mpr (List.mem_append_left _ ?_)
  rw [hdisk]
  exact List.mem_map.mpr
    ⟨String.ofList n, (mem_names_of_occupied hn hbs hd hocc).2, join_ofNames hb hn⟩

/-- On the way up from a staged key, each key is a member of the directory
that holds it. -/
theorem mem_members_of_upwards {t k : String} (ht : t ∈ w.stagedKeys) (hin : Inside t)
    (hk : k ∈ upwards t) (hne : k ≠ "") : k ∈ (w.members d (parent k)).toList := by
  have hmember : ∃ s ∈ w.stagedKeys, memberOf? (parent k) s = some k :=
    ⟨t, ht, (memberOf?_eq_some_iff hin).mpr ⟨hk, hne, rfl⟩⟩
  exact (KeySet.mem_ofList _ _).mpr (List.mem_append_right _ (List.mem_filterMap.mpr hmember))

/-- What is on disk in a directory that stands in its own place is a
member of it. -/
theorem mem_members_of_occupied {k : String} (hk : Inside k) (hd : d.IsTree)
    (hdisk : w.diskKey? (parent k) = some (parent k)) (hocc : d.occupied (w.place k) = true) :
    k ∈ (w.members d (parent k)).toList := by
  obtain ⟨names, hne, hnames, rfl⟩ := hk
  rw [← List.dropLast_concat_getLast hne] at hnames hdisk hocc ⊢
  obtain ⟨hfront, hlast⟩ := List.forall_mem_append.mp hnames
  have hname := hlast (names.getLast hne) (by simp)
  rw [parent_ofNames hname] at hdisk ⊢
  exact mem_members_of_disk hfront hname hfront hd hdisk hocc

/-! ### Whole and rooted -/

/-- Staged files and directories are inside. -/
theorem inside_of_staged (hin : KeysInside w) (hst : StagedInside w) :
    (∀ file ∈ w.stagedFiles, Inside file) ∧ ∀ dir ∈ w.stagedDirs, Inside dir := by
  refine ⟨fun file h => ?_, fun dir h => ?_⟩
  · rcases List.mem_append.mp h with h | h
    · exact hst.texts file h
    · obtain ⟨m, hm, rfl⟩ := List.mem_map.mp h
      exact (hin.moves m hm).2
  · rcases List.mem_append.mp h with h | h
    · exact hst.dirs dir h
    · obtain ⟨m, hm, rfl⟩ := List.mem_map.mp h
      exact (hin.dirMoves m hm).2

/-- Staged files and directories are staged keys. -/
theorem mem_stagedKeys_of_staged {key : String} (h : key ∈ w.stagedFiles ∨ key ∈ w.stagedDirs) :
    key ∈ w.stagedKeys := by
  unfold stagedKeys
  simp only [stagedFiles, stagedDirs, List.mem_append] at h ⊢
  tauto

/-- A member of a directory that is there is listed in it. -/
theorem hangs_of_mem_members (hfilter : ∀ path, w.filter.shows path = true)
    {b : List (List Char)} {n : List Char} (hb : ∀ m ∈ b, IsName m) (hn : IsName n)
    (hshows : w.shows d (ofNames (b ++ [n])) = true) (hdir : w.dirExists d (ofNames b) = true)
    (hmember : ofNames (b ++ [n]) ∈ (w.members d (ofNames b)).toList) :
    w.hangs d (ofNames (b ++ [n])) = true := by
  rw [Workspace.hangs, parent_ofNames hn, hdir, Bool.true_and, List.contains_iff_mem]
  exact (mem_list_iff hfilter (w.key_within ⟨b, hb, rfl⟩)).mpr ⟨hmember, hshows⟩

/-- On the way to a staged file, all that a rooted view shows is listed in
a directory. -/
theorem Rooted.hangs_of_file (hrooted : w.Rooted d)
    (hfilter : ∀ path, w.filter.shows path = true) {b : List (List Char)} {n : List Char}
    (hb : ∀ m ∈ b, IsName m) (hn : IsName n) (hshows : w.shows d (ofNames (b ++ [n])) = true)
    {file : String} (hfile : file ∈ w.stagedFiles) (hinside : Inside file)
    (hunder : isUnder file (ofNames (b ++ [n])) = true) :
    w.hangs d (ofNames (b ++ [n])) = true := by
  have hall : ∀ m ∈ b ++ [n], IsName m := List.forall_mem_append.mpr ⟨hb, by simpa using hn⟩
  obtain ⟨names, -, hnames, rfl⟩ := hinside
  obtain ⟨rest, rfl⟩ := (isUnder_ofNames hnames hall).mp hunder
  have hkept := hrooted.files _ hfile _ (mem_upwards.mpr hunder) hshows
  rw [parent_ofNames hn] at hkept
  have hmember : ofNames (b ++ n :: rest) ∈ w.stagedKeys := by
    rw [List.append_cons]
    exact mem_stagedKeys_of_staged (.inl hfile)
  rw [List.append_assoc] at hnames
  -- The staged file makes a directory of what is above it.
  refine hangs_of_mem_members hfilter hb hn hshows (dirExists_of_stagedFile hfile ?_ ?_ hkept)
    (mem_members_of_staged hnames hmember)
  · rw [List.append_assoc, Ne, ofNames_inj hnames hb]
    simp
  · rw [List.append_assoc]
    exact (isUnder_ofNames hnames hb).mpr (List.prefix_append _ _)

/-- No deletion is at or above the directory that holds a key if none is
above the key. -/
theorem KeysInside.not_isUnder_deletion (hin : KeysInside w) {b : List (List Char)} {n : List Char}
    (hall : ∀ m ∈ b ++ [n], IsName m) (hbelow : w.isBelowDeletion (ofNames (b ++ [n])) = false) :
    ∀ k ∈ w.deletions.keys, isUnder (ofNames b) k = false := by
  have hb := (List.forall_mem_append.mp hall).1
  intro k hk
  obtain ⟨ks, -, hks, rfl⟩ := hin.deletions k hk
  rw [← Bool.not_eq_true, isUnder_ofNames hb hks]
  intro hpre
  have hlength := hpre.length_le
  refine absurd (List.any_eq_false.mp hbelow _ hk) ?_
  rw [Bool.not_eq_true, Bool.not_eq_false, Bool.and_eq_true, decide_eq_true_eq,
    isUnder_ofNames hall hks, Ne, ofNames_inj hks hall]
  refine ⟨?_, hpre.trans (List.prefix_append _ _)⟩
  rintro rfl
  rw [List.length_append, List.length_singleton] at hlength
  omega

/-- Where the directory that holds a key stands on disk, there is a
directory if nothing above the key is deleted. -/
theorem KeysInside.dirExists_of_disk (hin : KeysInside w) {b bs : List (List Char)} {n : List Char}
    (hall : ∀ m ∈ b ++ [n], IsName m) (hbelow : w.isBelowDeletion (ofNames (b ++ [n])) = false)
    (hdisk : w.diskKey? (ofNames b) = some (ofNames bs))
    (hdir : d.isDir (w.place (ofNames bs)) = true) : w.dirExists d (ofNames b) = true := by
  have hb := (List.forall_mem_append.mp hall).1
  have hunder := hin.not_isUnder_deletion hall hbelow
  refine dirExists_eq_true_iff.mpr (.inr ⟨fun hdel => ?_, .inr (.inr ⟨?_, ?_⟩)⟩)
  · have hself := hunder _ hdel
    rw [← Bool.not_eq_true, isUnder_ofNames hb hb] at hself
    exact hself List.prefix_rfl
  · exact List.any_eq_false.mpr fun k hk => by simp [hunder k hk]
  · rw [onDisk, hdisk]
    exact hdir

/-- What stands on disk is listed in a directory of a rooted view. -/
theorem Rooted.hangs_of_disk (hrooted : w.Rooted d) (hd : d.IsTree) (hin : KeysInside w)
    (hfilter : ∀ path, w.filter.shows path = true) {b : List (List Char)} {n : List Char}
    (hb : ∀ m ∈ b, IsName m) (hn : IsName n) (hshows : w.shows d (ofNames (b ++ [n])) = true)
    (hbelow : w.isBelowDeletion (ofNames (b ++ [n])) = false) {k : String}
    (hk : beforeDirMoves w.dirMoves.reverse (ofNames (b ++ [n])) = some k)
    (hocc : d.occupied (w.place k) = true) : w.hangs d (ofNames (b ++ [n])) = true := by
  have hall : ∀ m ∈ b ++ [n], IsName m := List.forall_mem_append.mpr ⟨hb, by simpa using hn⟩
  rcases arrives_or_stays_below hin.dirMoves hb hn hk with harrives | ⟨bs, hbs, rfl, hparent⟩
  · exact hrooted.moved _ harrives hshows
  · obtain ⟨hisDir, hname⟩ := mem_names_of_occupied hn hbs hd hocc
    by_cases htarget : ∃ m ∈ w.moves, m.2 = ofNames b
    · obtain ⟨m, hm, htarget⟩ := htarget
      refine hrooted.clear m hm _ ?_ hshows
      rw [htarget, covered, hparent]
      refine List.mem_flatMap.mpr ⟨ofNames bs, by simp, List.mem_map.mpr ⟨String.ofList n, ?_, ?_⟩⟩
      · exact List.mem_filter.mpr ⟨hname, by simpa using hn⟩
      · exact join_ofNames hb hn
    · -- The directory above stands where its content comes from.
      have hfind : w.moves.find? (fun m => m.2 = ofNames b) = none :=
        List.find?_eq_none.mpr fun m hm h => htarget ⟨m, hm, of_decide_eq_true h⟩
      have hdisk : w.diskKey? (ofNames b) = some (ofNames bs) := by
        rw [diskKey?, hfind]
        exact hparent
      exact hangs_of_mem_members hfilter hb hn hshows
        (hin.dirExists_of_disk hall hbelow hdisk hisDir)
        (mem_members_of_disk hb hn hbs hd hdisk hocc)

/-- Every key of a rooted view is listed in a directory. -/
theorem Rooted.hangs (hrooted : w.Rooted d) (hd : d.IsTree) (hin : KeysInside w)
    (hst : StagedInside w) (hfilter : ∀ path, w.filter.shows path = true)
    {b : List (List Char)} {n : List Char} (hb : ∀ m ∈ b, IsName m) (hn : IsName n)
    (hshows : w.shows d (ofNames (b ++ [n])) = true) : w.hangs d (ofNames (b ++ [n])) = true := by
  have hall : ∀ m ∈ b ++ [n], IsName m := List.forall_mem_append.mpr ⟨hb, by simpa using hn⟩
  by_cases hfile : ∃ file ∈ w.stagedFiles, isUnder file (ofNames (b ++ [n])) = true
  · obtain ⟨file, hfile, hunder⟩ := hfile
    exact hrooted.hangs_of_file hfilter hb hn hshows hfile ((inside_of_staged hin hst).1 file hfile)
      hunder
  · by_cases hdir : ofNames (b ++ [n]) ∈ w.stagedDirs
    · have hparent := hrooted.dirs _ hdir hshows
      rw [parent_ofNames hn] at hparent
      exact hangs_of_mem_members hfilter hb hn hshows hparent
        (mem_members_of_staged hall (mem_stagedKeys_of_staged (.inr hdir)))
    · -- The key stands on disk.
      have hne : ofNames (b ++ [n]) ≠ "" := fun h =>
        joinWith_ne_nil (by simp) hall (String.ofList_injective h)
      obtain ⟨hbelow, -, k, hk, hocc⟩ := exists_place_of_shows hshows hne hdir fun file hf => by
        rw [← Bool.not_eq_true]
        exact fun h => hfile ⟨file, hf, h⟩
      exact hrooted.hangs_of_disk hd hin hfilter hb hn hshows hbelow hk hocc

/-- A key of a whole view is listed in a directory. -/
theorem IsWhole.hangs (h : w.IsWhole d) {b : List (List Char)} {n : List Char}
    (hb : ∀ m ∈ b, IsName m) (hn : IsName n) (hshows : w.shows d (ofNames (b ++ [n])) = true) :
    w.hangs d (ofNames (b ++ [n])) = true := by
  have hall : ∀ m ∈ b ++ [n], IsName m := List.forall_mem_append.mpr ⟨hb, by simpa using hn⟩
  obtain ⟨hdirs, hlist⟩ := h _ ⟨b ++ [n], by simp, hall, rfl⟩ hshows
  rw [Workspace.hangs, Bool.and_eq_true, List.contains_iff_mem]
  refine ⟨hdirs _ ?_ ?_, hlist⟩
  · rw [parent_ofNames hn, Ne, ofNames_inj hb hall]
    simp
  · rw [parent_ofNames hn, isUnder_ofNames hall hb]
    exact List.prefix_append _ _

/-- If every key is listed in a directory, all above every key are
directories. -/
theorem isWhole_of_hangs (h : ∀ b n, (∀ m ∈ b, IsName m) → IsName n →
    w.shows d (ofNames (b ++ [n])) = true → w.hangs d (ofNames (b ++ [n])) = true) :
    w.IsWhole d := by
  have hup : ∀ a : List (List Char), (∀ m ∈ a, IsName m) → w.shows d (ofNames a) = true →
      ∀ b, b <+: a → b ≠ a → w.dirExists d (ofNames b) = true := by
    intro a
    -- From the key upwards, one directory at a time.
    induction a using List.reverseRecOn with
    | nil => exact fun _ _ b hpre hne => absurd (List.prefix_nil.mp hpre) hne
    | append_singleton a n ih =>
        intro ha hshows b hpre hne
        obtain ⟨ha, hn⟩ := List.forall_mem_append.mp ha
        have hparent := (Bool.and_eq_true_iff.mp (h a n ha (hn n (by simp)) hshows)).1
        rw [parent_ofNames (hn n (by simp))] at hparent
        rcases List.prefix_concat_iff.mp hpre with hb | hb
        · exact absurd hb hne
        · by_cases hba : b = a
          · exact hba ▸ hparent
          · refine ih ha ?_ b hb hba
            rw [shows, hparent, Bool.or_true]
  rintro key ⟨names, hne, hnames, rfl⟩ hshows
  refine ⟨fun dir hdir hunder => ?_, ?_⟩
  · obtain ⟨b, hpre, rfl⟩ := exists_prefix_of_isUnder hnames hunder
    exact hup names hnames hshows b hpre fun heq => hdir (heq ▸ rfl)
  · obtain ⟨b, n, rfl⟩ := (List.eq_nil_or_concat' names).resolve_left hne
    obtain ⟨hb, hn⟩ := List.forall_mem_append.mp hnames
    have hhangs := h b n hb (hn n (by simp)) hshows
    exact List.contains_iff_mem.mp (Bool.and_eq_true_iff.mp hhangs).2

/-- A view is whole exactly if it is rooted. -/
theorem isWhole_iff (hd : d.IsTree) (hin : KeysInside w) (hst : StagedInside w)
    (hfilter : ∀ path, w.filter.shows path = true) : w.IsWhole d ↔ w.Rooted d := by
  constructor
  · -- All that is staged, and where it goes, is inside, and so listed in a directory.
    intro h
    have hinside := inside_of_staged hin hst
    have hhangs : ∀ key, Inside key → w.shows d key = true → w.hangs d key = true := by
      rintro key ⟨names, hne, hnames, rfl⟩ hshows
      obtain ⟨b, n, rfl⟩ := (List.eq_nil_or_concat' names).resolve_left hne
      obtain ⟨hb, hn⟩ := List.forall_mem_append.mp hnames
      exact h.hangs hb (hn n (by simp)) hshows
    refine ⟨fun file hfile key hkey hshows => ?_, fun key hkey hshows => ?_,
      fun key hkey hshows => ?_, fun m hm key hkey hshows => ?_⟩
    · obtain ⟨names, -, hnames, rfl⟩ := hinside.1 file hfile
      obtain ⟨b, hpre, rfl⟩ := exists_prefix_of_isUnder hnames (mem_upwards.mp hkey)
      by_cases hnil : b = []
      · rw [hnil]
        exact hin.root_not_deleted
      · have hb : ∀ m ∈ b, IsName m := fun m hm => hnames m (hpre.subset hm)
        exact hin.not_deleted (Bool.and_eq_true_iff.mp (hhangs _ ⟨b, hnil, hb, rfl⟩ hshows)).1
    · exact (Bool.and_eq_true_iff.mp (hhangs key (hinside.2 key hkey) hshows)).1
    · exact hhangs key (inside_of_mem_arrivals hin.dirMoves hkey) hshows
    · obtain ⟨k, -, hkey⟩ := List.mem_flatMap.mp hkey
      obtain ⟨name, hname, rfl⟩ := List.mem_map.mp hkey
      have hname := of_decide_eq_true (List.mem_filter.mp hname).2
      obtain ⟨ts, htsne, hts, htarget⟩ := (hin.moves m hm).2
      refine hhangs _ ⟨ts ++ [name.toList], by simp, ?_, ?_⟩ hshows
      · exact List.forall_mem_append.mpr ⟨hts, by simpa using hname⟩
      · rw [htarget, ← join_ofNames hts hname, String.ofList_toList]
  · exact fun hrooted => isWhole_of_hangs fun b n hb hn hshows =>
      hrooted.hangs hd hin hst hfilter hb hn hshows

end ScriptRefactor.Workspace
