import ScriptRefactor.Proofs.Workspace.Course
import ScriptRefactor.Proofs.Workspace.FlushDeletions
import ScriptRefactor.Proofs.Workspace.ViewTree

/-!
# `ScriptRefactor.Proofs.Workspace.FlushDirs`: the directories behind a flush

A run that only stages and moves directories has a view that is taken
from the disk through the moves, with the staged directories added
(`OnlyDirs.dirExists_iff`). A flush creates these directories before it
moves any, under the names that they have behind all moves. So what it
leaves need not be what the view showed, and a directory created below
the target of a move even makes the flush fail.

It does not fail if no file is in the way of a staged directory
(`IsClear`) and each recorded move can have its turn (`InTurn`). Then it
leaves what the view showed exactly if the view shows all directories
that the flush makes, and the flush makes or brings all that are staged
(`Settled`).
-/

set_option autoImplicit false

namespace ScriptRefactor.Workspace

open ScriptRefactor.Path

variable {d d' : Disk} {w w' : Workspace}

/-! ### Runs over directories -/

/-- Nothing but directories is staged and moved. -/
structure OnlyDirs (w : Workspace) : Prop where
  /-- No text is staged. -/
  texts : ∀ k, k ∉ w.texts.keys
  /-- No text is to be written. -/
  saves : ∀ k, k ∉ w.saves.toList
  /-- Nothing is to be deleted. -/
  deletions : ∀ k, k ∉ w.deletions.keys
  /-- No file is moved. -/
  moves : w.moves = []

/-- A new workspace stages nothing. -/
theorem onlyDirs_ofFilter (root : String) (settings : Settings) (filter : PathFilter) :
    OnlyDirs (ofFilter root settings filter) where
  texts := fun k hk => by cases hk
  saves := fun k hk => by cases hk
  deletions := fun k hk => by cases hk
  moves := rfl

/-- A call for a directory stages and moves nothing else. -/
theorem OnlyDirs.apply (h : OnlyDirs w) {c : Call} (hc : c.isOfDirs = true) :
    OnlyDirs (w.apply d c) := by
  cases c with
  | mkdir path =>
      exact { h with deletions := fun k hk => h.deletions k ((Table.mem_keys_erase _ _ _).mp hk).1 }
  | moveDir origin target =>
      rcases apply_moveDir_cases d w origin target with ⟨-, happly⟩ | ⟨-, happly⟩
      · rw [happly]
        refine ⟨fun k hk => ?_, fun k hk => ?_, fun k hk => ?_, ?_⟩
        · obtain ⟨j, hj, -⟩ := (Table.mem_keys_mapKeys _ _ _).mp hk
          exact h.texts j hj
        · obtain ⟨j, hj, -⟩ := (KeySet.mem_map _ _ _).mp hk
          exact h.saves j hj
        · obtain ⟨j, hj, -⟩ := (Table.mem_keys_mapKeys _ _ _).mp hk
          exact h.deletions j hj
        · rw [withDirMove, h.moves, List.map_nil]
      · rw [happly]
        exact h
  | _ => cases hc

/-! ### The view -/

/-- The bytes of the file that stands on disk for a key. -/
def shownBytes? (w : Workspace) (d : Disk) (key : String) : Option (List UInt8) :=
  (w.diskKey? key).bind fun k => d.bytes? (w.place k)

/-- Nothing is staged under a file name. -/
theorem OnlyDirs.stagedFiles_eq_nil (h : OnlyDirs w) : w.stagedFiles = [] := by
  rw [stagedFiles, h.moves, List.eq_nil_iff_forall_not_mem.mpr h.texts]
  rfl

/-- Nothing is deleted above a key. -/
theorem OnlyDirs.isBelowDeletion_eq_false (h : OnlyDirs w) (key : String) :
    w.isBelowDeletion key = false :=
  List.any_eq_false.mpr fun k hk => absurd hk (h.deletions k)

/-- The files are those on disk. -/
theorem OnlyDirs.fileExists_eq (h : OnlyDirs w) (key : String) :
    w.fileExists d key = (w.shownBytes? d key).isSome := by
  have hondisk : w.onDisk key d.isFile = (w.shownBytes? d key).isSome := by
    unfold onDisk shownBytes?
    cases w.diskKey? key with
    | none => rfl
    | some k =>
        rw [Option.bind_some]
        rfl
  rw [← hondisk, Bool.eq_iff_iff, fileExists_eq_true_iff, h.stagedFiles_eq_nil,
    h.isBelowDeletion_eq_false, isMoveOrigin, h.moves]
  simp [h.deletions]

/-- The directories are those on disk and the staged ones. -/
theorem OnlyDirs.dirExists_iff (h : OnlyDirs w) {key : String} : w.dirExists d key = true ↔
    key = "" ∨ key ∈ w.stagedDirs ∨
      (w.diskKey? key).bind (fun k => d.find? (w.place k)) = some .dir := by
  have hondisk : w.onDisk key d.isDir = true ↔
      (w.diskKey? key).bind (fun k => d.find? (w.place k)) = some .dir := by
    unfold onDisk
    cases w.diskKey? key with
    | none => simp
    | some k =>
        rw [Option.bind_some]
        exact Disk.isDir_iff
  rw [dirExists_eq_true_iff, h.stagedFiles_eq_nil, h.isBelowDeletion_eq_false, hondisk]
  simp [h.deletions]

/-- What a file says is told by its bytes. -/
theorem readAt_congr {p q : Place} {bytes : List UInt8} (hp : d.bytes? p = some bytes)
    (hq : d'.bytes? q = some bytes) (path path' : String) (limit : Nat) :
    readAt d p path limit = readAt d' q path' limit := by
  rw [readAt, readAt, hp, hq]

/-- A text is read from where the view finds its bytes. -/
theorem OnlyDirs.textOf_of_shownBytes? (h : OnlyDirs w) {key : String} {bytes : List UInt8}
    (hbytes : w.shownBytes? d key = some bytes) :
    ∃ k, d.bytes? (w.place k) = some bytes ∧
      w.textOf d key = readAt d (w.place k) (w.fullPath k) w.settings.maxFileSize := by
  obtain ⟨k, hk, hplace⟩ := Option.bind_eq_some_iff.mp hbytes
  have hnone : w.texts.find? key = none := by
    rw [← Option.not_isSome_iff_eq_none, ← Table.contains_eq_isSome, Table.contains_iff_mem_keys]
    exact h.texts key
  refine ⟨k, hplace, ?_⟩
  rw [textOf, h.fileExists_eq, hbytes, hnone, hk]
  rfl

/-- Two views that take the same bytes for a key read the same text. -/
theorem OnlyDirs.textOf_congr (h : OnlyDirs w) (h' : OnlyDirs w') {key : String}
    (hsettings : w'.settings = w.settings)
    (hbytes : w'.shownBytes? d' key = w.shownBytes? d key) :
    w'.textOf d' key = w.textOf d key := by
  cases hshown : w.shownBytes? d key with
  | none =>
      rw [hshown] at hbytes
      rw [textOf, textOf, h.fileExists_eq, h'.fileExists_eq, hshown, hbytes]
      rfl
  | some bytes =>
      obtain ⟨k, hk, htext⟩ := h.textOf_of_shownBytes? hshown
      obtain ⟨k', hk', htext'⟩ := h'.textOf_of_shownBytes? (hbytes.trans hshown)
      rw [htext, htext', hsettings]
      exact readAt_congr hk' hk _ _ _

/-! ### What a flush leaves -/

/-- A flush leaves at a key what the view showed there. -/
structure FlushKeeps (w : Workspace) (d : Disk) (key : String) : Prop where
  /-- A file is left exactly if one was shown. -/
  file : (w.flush d).disk.isFile (w.place key) = w.fileExists d key
  /-- A directory is left exactly if one was shown. -/
  dir : (w.flush d).disk.isDir (w.place key) = w.dirExists d key
  /-- The file has the bytes of the one that was shown. -/
  bytes : (w.flush d).disk.bytes? (w.place key) = w.shownBytes? d key
  /-- It reads as the one that was shown. -/
  content : ((w.flush d).workspace.content (w.flush d).disk key).1 = (w.content d key).1

/-- All directories that a flush makes are shown, and all that are staged
are there behind it. -/
structure Settled (w : Workspace) (d : Disk) : Prop where
  /-- What is made is shown, with all above it. -/
  shown : ∀ k ∈ (w.finish d).made, ∀ key ∈ upwards k,
    w.dirExists d key = true ∧ w.fileExists d key = false
  /-- What is staged is there. -/
  there : ∀ key ∈ w.stagedDirs, (w.finish d).find? w d (w.place key) = some .dir

instance (w : Workspace) (d : Disk) : Decidable (w.Settled d) :=
  decidable_of_iff ((∀ k ∈ (w.finish d).made, ∀ key ∈ upwards k,
        w.dirExists d key = true ∧ w.fileExists d key = false)
      ∧ ∀ key ∈ w.stagedDirs, (w.finish d).find? w d (w.place key) = some .dir)
    ⟨fun ⟨h1, h2⟩ => ⟨h1, h2⟩, fun h => ⟨h.shown, h.there⟩⟩

/-- The phases of a flush over directories. -/
theorem OnlyDirs.phases_eq (h : OnlyDirs w) (d : Disk) :
    w.phases d =
      (w.dirs.toList.foldlM w.createdOn d).bind fun d => w.dirMoves.foldlM w.movedOn d := by
  rw [phases, h.moves, List.eq_nil_iff_forall_not_mem.mpr h.deletions,
    List.eq_nil_iff_forall_not_mem.mpr h.saves]
  simp

/-- A flush whose moves can have their turns goes through, and leaves the
disk that the course tells. -/
theorem OnlyDirs.flush_describes (h : OnlyDirs w) (hin : KeysInside w) (hst : StagedInside w)
    (hd : d.IsTree) (hclear : w.IsClear d) (hturn : w.InTurn d w.start w.dirMoves) :
    (w.flush d).report?.isSome = true ∧ (w.finish d).Describes w d (w.flush d).disk := by
  obtain ⟨d₁, hcreated, hstart⟩ :=
    Course.exists_describes_start hd (fun k hk => (hst.dirs k hk).within) hclear
  obtain ⟨d₂, hmoved, hfinish⟩ := hstart.foldlM_movedOn hin.dirMoves hturn
  have hphases := w.flush_eq_phases d
  rw [h.phases_eq, hcreated, Option.bind_some, hmoved] at hphases
  obtain ⟨report, hreport, hdisk⟩ := Option.map_eq_some_iff.mp hphases
  exact ⟨by rw [hreport]; rfl, hdisk ▸ hfinish⟩

/-- What stands at a key behind all moves is what the view takes for
it. -/
theorem OnlyDirs.standing_finish (h : OnlyDirs w) (hin : KeysInside w) {key : String}
    (hkey : Within key) : (w.finish d).standing w d (w.place key) =
      (w.diskKey? key).bind fun k => d.find? (w.place k) := by
  have hmoved : (w.finish d).moved = w.dirMoves := Course.moved_foldl_next w.start w.dirMoves
  have hdisk : w.diskKey? key = beforeDirMoves w.dirMoves.reverse key := by
    rw [diskKey?, h.moves]
    rfl
  have hback : (beforeDirMoves w.dirMoves.reverse key).map w.place =
      Place.before (w.placesOf w.dirMoves).reverse (w.place key) := by
    rw [placesOf, ← List.map_reverse]
    exact w.map_place_beforeDirMoves (fun m hm => hin.dirMoves m (List.mem_reverse.mp hm)) hkey
  rw [Course.standing, hmoved, hdisk, ← hback, Option.bind_map]
  rfl

/-- What a key holds behind all moves: a directory if one was made there
or below, and what the view takes for it if none was. -/
theorem OnlyDirs.find?_finish (h : OnlyDirs w) (hin : KeysInside w)
    (hmade : ∀ k ∈ (w.finish d).made, Within k) {key : String} (hkey : Within key) :
    (w.finish d).find? w d (w.place key) =
      if ∃ k ∈ (w.finish d).made, key ∈ upwards k then some .dir
      else (w.diskKey? key).bind fun k => d.find? (w.place k) := by
  have habove : (∃ k ∈ (w.finish d).made, w.place key <+: w.place k) ↔
      ∃ k ∈ (w.finish d).made, key ∈ upwards k := by
    refine exists_congr fun k => and_congr_right fun hk => ?_
    rw [w.prefix_place_iff (hmade k hk) hkey, mem_upwards]
  simp only [Course.find?, habove, h.standing_finish hin hkey]

/-- The project stays where it is. -/
theorem OnlyDirs.diskKey?_root (h : OnlyDirs w) (hin : KeysInside w) : w.diskKey? "" = some "" := by
  rw [diskKey?, h.moves]
  exact beforeDirMoves_of_not_under fun m hm =>
    have hm := hin.dirMoves m (List.mem_reverse.mp hm)
    ⟨hm.1.not_above_root, hm.2.not_above_root⟩

/-- Without changes, the view shows the file at the place of the key. -/
theorem shownBytes?_reset (w : Workspace) (d : Disk) (key : String) :
    w.reset.shownBytes? d key = d.bytes? (w.place key) := by
  have hdisk : w.reset.diskKey? key = some key := rfl
  have hplace : w.reset.place = w.place := place_congr rfl
  rw [shownBytes?, hdisk, Option.bind_some, hplace]

/-- A flush keeps what was shown at a key if it leaves the same directory
and the same bytes there. -/
theorem OnlyDirs.flushKeeps (h : OnlyDirs w) (hok : (w.flush d).report?.isSome = true)
    {key : String} (hkey : Within key)
    (hdir : (w.flush d).disk.isDir (w.place key) = w.dirExists d key)
    (hbytes : (w.flush d).disk.bytes? (w.place key) = w.shownBytes? d key) :
    w.FlushKeeps d key := by
  have hreset : (w.flush d).workspace = w.reset := by
    unfold flush at hok ⊢
    split at hok
    · rfl
    · cases hok
  refine ⟨?_, hdir, hbytes, ?_⟩
  · rw [h.fileExists_eq, Disk.isFile, hbytes]
  · have hkeys : w.reset.key = w.key := key_congr rfl
    rw [← w.shownBytes?_reset] at hbytes
    rw [hreset, content_fst, content_fst, hkeys, w.key_within hkey]
    exact h.textOf_congr (onlyDirs_ofFilter _ _ _) rfl hbytes

/-- If a flush that goes as its course keeps what was shown, the course
settles what is staged. -/
theorem OnlyDirs.settled_of_flushKeeps (h : OnlyDirs w) (hin : KeysInside w) (hst : StagedInside w)
    (hcourse : (w.finish d).Describes w d (w.flush d).disk)
    (hkeeps : ∀ key, Within key → w.FlushKeeps d key) : w.Settled d := by
  refine ⟨fun k hk key hkey => ?_, fun key hkey => ?_⟩
  · -- A directory that was made is left, so it was shown.
    obtain ⟨names, hnames, rfl⟩ := hcourse.within k hk
    obtain ⟨b, hpre, rfl⟩ := exists_prefix_of_isUnder hnames (mem_upwards.mp hkey)
    have hb : Within (ofNames b) := ⟨b, fun n hn => hnames n (hpre.subset hn), rfl⟩
    have hmade := (h.find?_finish hin hcourse.within hb).trans (if_pos ⟨_, hk, hkey⟩)
    have hdir := Disk.isDir_iff.mpr ((hcourse.find _).trans hmade)
    refine ⟨(hkeeps _ hb).dir ▸ hdir, ?_⟩
    rw [← (hkeeps _ hb).file, Disk.isFile, Disk.bytes?_eq_none_of_isDir hdir]
    rfl
  · -- A staged directory was shown, so it is left.
    have hinside := (inside_of_staged hin hst).2 key hkey
    have hshown : w.dirExists d key = true := h.dirExists_iff.mpr (.inr (.inl hkey))
    rw [← (hkeeps key hinside.within).dir, Disk.isDir_iff, hcourse.find] at hshown
    exact hshown

/-- If the course settles what is staged, a flush that goes as its course
keeps what was shown. -/
theorem Settled.flushKeeps (hsettled : w.Settled d) (h : OnlyDirs w) (hin : KeysInside w)
    (hroot : d.isDir (w.place "") = true) (hok : (w.flush d).report?.isSome = true)
    (hcourse : (w.finish d).Describes w d (w.flush d).disk) {key : String} (hkey : Within key) :
    w.FlushKeeps d key := by
  have hfind := (hcourse.find (w.place key)).trans (h.find?_finish hin hcourse.within hkey)
  by_cases habove : ∃ k ∈ (w.finish d).made, key ∈ upwards k
  · -- A directory was made here, and is shown.
    rw [if_pos habove] at hfind
    obtain ⟨k, hk, hup⟩ := habove
    obtain ⟨hdir, hfile⟩ := hsettled.shown k hk key hup
    rw [h.fileExists_eq, Option.isSome_eq_false_iff, Option.isNone_iff_eq_none] at hfile
    have hisDir := Disk.isDir_iff.mpr hfind
    refine h.flushKeeps hok hkey (hisDir.trans hdir.symm) ?_
    rw [hfile, Disk.bytes?_eq_none_of_isDir hisDir]
  · -- Here is what the view takes for the key.
    rw [if_neg habove] at hfind
    refine h.flushKeeps hok hkey ?_ ?_
    · rw [Bool.eq_iff_iff, Disk.isDir_iff, h.dirExists_iff, hfind]
      refine ⟨fun hdir => .inr (.inr hdir), fun hdir => ?_⟩
      rcases hdir with rfl | hstaged | hdir
      · rw [h.diskKey?_root hin, Option.bind_some]
        exact Disk.isDir_iff.mp hroot
      · exact hfind ▸ (hcourse.find _).trans (hsettled.there key hstaged)
      · exact hdir
    · rw [shownBytes?, Disk.bytes?, hfind]
      cases w.diskKey? key with
      | none => rfl
      | some k =>
          rw [Option.bind_some, Option.bind_some]
          rfl

/-- **A flush of directories whose moves can have their turns goes
through, and keeps what the view showed exactly if all that it makes was
shown.** Take a run that only stages and moves directories inside the
project. Let no file be at a staged directory or on the way to it, and
let each recorded move in its turn find nothing to move, or a directory
and a free target. Then no step of the flush fails. For every key it
leaves a file or a directory exactly if the view showed one, and the file
with the same content, if and only if the view shows every directory that
is made on the way and every staged directory is there at the end. -/
theorem flush_keeps_iff_settled {d : Disk} (hd : d.IsTree) (root : String) (settings : Settings)
    (filter : PathFilter) (calls : List Call) :
    let new := ofFilter root settings filter
    let w := new.run d calls
    d.isDir (new.place "") = true →
      (∀ c ∈ calls, c.isOfDirs = true ∧
        ∀ p ∈ c.paths, new.key p ≠ "" ∧ leaves (new.key p) = false) →
      w.IsClear d → w.InTurn d w.start w.dirMoves →
      (w.flush d).report?.isSome = true ∧
        ((∀ key, Within key → w.FlushKeeps d key) ↔ w.Settled d) := by
  intro new w hroot hcalls hclear hturn
  have hpaths : ∀ c ∈ calls, ∀ p ∈ c.paths, Inside (new.key p) := fun c hc p hp =>
    inside_key ((hcalls c hc).2 p hp).1 ((hcalls c hc).2 p hp).2
  have hin : KeysInside w := keysInside_run (keysInside_ofFilter root settings filter) hpaths
  have hst : StagedInside w := stagedInside_run (stagedInside_ofFilter root settings filter) hpaths
  have honly : OnlyDirs w := run_induction (fun v hv c hc => hv.apply (hcalls c hc).1)
    (onlyDirs_ofFilter root settings filter)
  have hplace : w.place = new.place := place_congr (root_run d new calls)
  -- The disk is described by the course, and the course compared with the view.
  obtain ⟨hok, hcourse⟩ := honly.flush_describes hin hst hd hclear hturn
  exact ⟨hok, honly.settled_of_flushKeeps hin hst hcourse, fun hsettled key hkey =>
    hsettled.flushKeeps honly hin (hplace ▸ hroot) hok hcourse hkey⟩

/-- A project with a file in a directory of a directory. -/
def nestedDirs : Disk :=
  ⟨[(["root"], .dir), (["root", "a"], .dir), (["root", "a", "s"], .dir),
    (["root", "a", "s", "x.js"], .file (Disk.bytesOf "x\n"))]⟩

/-- The inner directory is moved to a new one, and then the outer one is
moved. -/
def rearranged : List Call := [.mkdir "n", .moveDir "a/s" "n/s", .moveDir "a" "b"]

/-- The flush goes through and keeps what was shown. -/
theorem flush_keeps_iff_settled_rearranged :
    let w := (ofFilter "/root" Settings.default PathFilter.showAll).run nestedDirs rearranged
    nestedDirs.IsTree ∧ w.dirMoves = [("a/s", "n/s"), ("a", "b")] ∧
      (w.flush nestedDirs).report?.isSome = true ∧
      w.fileExists nestedDirs "n/s/x.js" = true ∧
      ∀ key, Within key → w.FlushKeeps nestedDirs key := by
  intro w
  have htree : nestedDirs.IsTree := by decide
  have hflush := flush_keeps_iff_settled htree "/root" Settings.default PathFilter.showAll
    rearranged (by decide +kernel) (by decide +kernel) (by decide +kernel) (by decide +kernel)
  refine ⟨htree, by decide +kernel, hflush.1, by decide +kernel, ?_⟩
  exact hflush.2.mpr (by decide +kernel)

-- The directory that holds a staged one is made too, but not shown.
example :
    let w := (ofFilter "/root" Settings.default PathFilter.showAll).run nestedDirs [.mkdir "n/m"]
    ¬ w.Settled nestedDirs ∧ w.dirExists nestedDirs "n" = false ∧
      (w.flush nestedDirs).disk.isDir (w.place "n") = true := by
  decide +kernel

/-- A directory is staged inside another one, which is then moved. -/
def stagedInMoved : List Call := [.mkdir "a/n", .moveDir "a" "b"]

/-- The move is accepted, and the view shows the staged directory at the
target. There it is created first, so that the flush cannot move the
other one there: it fails and leaves both. -/
theorem flush_stagedInMoved_fails :
    let new := ofFilter "/root" Settings.default PathFilter.showAll
    let w := new.run nestedDirs stagedInMoved
    let after := w.flush nestedDirs
    (nestedDirs.IsTree ∧ nestedDirs.isDir (new.place "") = true ∧
      ((new.run nestedDirs [.mkdir "a/n"]).moveDir nestedDirs "a" "b").toOption.isSome = true ∧
      w.dirMoves = [("a", "b")] ∧ w.dirs.toList = ["b/n"]) ∧
      w.IsClear nestedDirs ∧ ¬ w.InTurn nestedDirs w.start w.dirMoves ∧
      after.report?.isSome = false ∧
      (w.dirExists nestedDirs "a" = false ∧ after.disk.isDir (w.place "a") = true) ∧
      (w.fileExists nestedDirs "b/s/x.js" = true ∧ after.disk.isFile (w.place "b/s/x.js") = false)
        := by
  decide +kernel

end ScriptRefactor.Workspace
