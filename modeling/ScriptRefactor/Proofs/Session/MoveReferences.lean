import ScriptRefactor.Proofs.Session.MovedWalk
import ScriptRefactor.Proofs.Session.Updates

/-!
# `ScriptRefactor.Proofs.Session.MoveReferences`: updates before and behind a move

The references to a module can be updated before the module is moved or
behind that, and it makes no difference to what is told and what is staged
(`updateReferences_moveFile_comm`), where nothing is deleted, no directory
was moved, and no file is in the way (`Unblocked`): the walk comes by the
same other modules, and each of them is updated in the same way.

A file in the way makes a difference (`update_misses_blocked_module`). The
view then shows a directory and a file at one path, and the walk looks at
only one of them; the move takes the file away and uncovers the other.
-/

set_option autoImplicit false

namespace ScriptRefactor

open ScriptRefactor.Path Syntax

namespace Workspace

variable {w : Workspace} {d : Disk} {o t : String}

/-- No file is above the keys of a move, and none is below its origin. -/
structure Unblocked (w : Workspace) (d : Disk) (o t : String) : Prop where
  /-- None is above the origin. -/
  origin : ∀ dir, dir ≠ o → isUnder o dir = true → w.fileExists d dir = false
  /-- None is above the target. -/
  target : ∀ dir, dir ≠ t → isUnder t dir = true → w.fileExists d dir = false
  /-- None is below the origin. -/
  below : ∀ file, Inside file → file ≠ o → isUnder file o = true → w.fileExists d file = false

/-- No file is below a key that is no directory on disk and has no staged
file below. -/
theorem Plain.no_file_below (h : w.Plain) (hd : d.IsTree) (ho : Inside o)
    (hdir : d.isDir (w.place o) = false)
    (hstaged : ∀ file ∈ w.stagedFiles, file ≠ o → isUnder file o = false) :
    ∀ file, Inside file → file ≠ o → isUnder file o = true → w.fileExists d file = false := by
  intro file hinside hne hunder
  refine Bool.eq_false_iff.mpr fun hfile => ?_
  by_cases hmem : file ∈ w.stagedFiles
  · rw [hstaged file hmem hne] at hunder
    cases hunder
  · obtain ⟨bytes, hbytes⟩ := Option.isSome_iff_exists.mp (h.isFile_place hfile hmem)
    have hprefix := (prefix_place_iff w hinside.within ho.within).mpr hunder
    have hplace : w.place o ≠ w.place file := fun heq =>
      hne ((w.place_inj ho.within hinside.within).mp heq).symm
    rw [hd.isDir_of_prefix hprefix hplace (Disk.occupied_of_bytes? hbytes)] at hdir
    cases hdir

end Workspace

namespace Session

open Workspace

variable {w : Workspace} {d : Disk} {o t : String}

/-- Before a move that is possible, no file is above or below its keys if
none is in the way. -/
theorem isClear_of_unblocked (hplain : w.Plain) (hd : d.IsTree) (hun : w.Unblocked d o t)
    (hkeys : ∀ k ∈ w.stagedKeys, Inside k) (hfile : w.fileExists d t = false)
    (hdir : w.dirExists d t = false) : IsClear w d o t where
  plain := hplain
  keys := hkeys
  above := by
    rintro key dir (rfl | rfl) hne hunder
    · exact hun.origin dir hne hunder
    · exact hun.target dir hne hunder
  below := by
    rintro key file (rfl | rfl) hinside hne hunder
    · exact hun.below file hinside hne hunder
    · -- A file below the target would make it a directory.
      refine Bool.eq_false_iff.mpr fun hexists => ?_
      rw [hplain.dirExists_of_file hd hinside hexists hne hunder hfile] at hdir
      cases hdir

/-- Behind the move no file is above or below its keys, either. -/
theorem IsClear.withMove (h : IsClear w d o t) (ho : Inside o) (horigin : w.fileExists d o = true)
    (hfile : w.fileExists d t = false) (hkeys : ∀ k ∈ (w.withMove d o t).stagedKeys, Inside k) :
    IsClear (w.withMove d o t) d o t := by
  have hne : o ≠ t := ne_of_free horigin hfile
  -- The keys do not lie below each other, or the origin would be no file.
  have hot : isUnder o t = false := Bool.eq_false_iff.mpr fun hunder =>
    absurd (horigin.symm.trans (h.below t o (.inr rfl) ho hne hunder)) (by decide)
  have hto : isUnder t o = false := Bool.eq_false_iff.mpr fun hunder =>
    absurd (horigin.symm.trans (h.above t o (.inr rfl) hne hunder)) (by decide)
  have hother : ∀ key k, key = o ∨ key = t → k ≠ key →
      isUnder key k = true ∨ isUnder k key = true → k ≠ o ∧ k ≠ t := by
    rintro key k (rfl | rfl) hk hunder
    · refine ⟨hk, ?_⟩
      rintro rfl
      rw [hot, hto] at hunder
      simp at hunder
    · refine ⟨?_, hk⟩
      rintro rfl
      rw [hot, hto] at hunder
      simp at hunder
  refine ⟨⟨h.plain.deletions, h.plain.dirMoves⟩, hkeys, ?_, ?_⟩
  · intro key dir hkey hk hunder
    obtain ⟨hdo, hdt⟩ := hother key dir hkey hk (.inl hunder)
    rw [fileExists_withMove hdo hdt]
    exact h.above key dir hkey hk hunder
  · intro key file hkey hinside hk hunder
    obtain ⟨hfo, hft⟩ := hother key file hkey hk (.inr hunder)
    rw [fileExists_withMove hfo hft]
    exact h.below key file hkey hinside hk hunder

/-- The walk comes by files inside the project. -/
theorem of_mem_moduleFiles_inside (hnamed : d.IsNamed) (hkeys : ∀ k ∈ w.stagedKeys, Inside k)
    {file : String} (h : file ∈ moduleFiles w d) : Inside file ∧ w.fileExists d file = true := by
  rw [moduleFiles, List.mem_mergeSort] at h
  obtain ⟨hexists, rest, hne, -, hall, rfl⟩ :=
    of_mem_modulesBelow (b := []) hnamed hkeys (by simp) h
  exact ⟨⟨rest, hne, hall, rfl⟩, hexists⟩

/-- An update comes by other files inside the project. -/
theorem of_mem_others_moduleFiles (hnamed : d.IsNamed) (hkeys : ∀ k ∈ w.stagedKeys, Inside k)
    {file : String} (h : file ∈ others o t (moduleFiles w d)) :
    Inside file ∧ w.fileExists d file = true ∧ file ≠ o ∧ file ≠ t := by
  obtain ⟨hmem, hothers⟩ := mem_others.mp h
  obtain ⟨hinside, hexists⟩ := of_mem_moduleFiles_inside hnamed hkeys hmem
  exact ⟨hinside, hexists, hothers⟩

/-- An update behind a move that no file is in the way of comes to what an
update before it comes to with the move done later; and then the move is
possible. -/
theorem updateReferences_withMove (hd : d.IsTree) (hnamed : d.IsNamed) (hin : KeysInside w)
    (hst : StagedInside w) (hord : w.IsOrdered) (hplain : w.Plain) {src dest : String}
    (hsrc : Inside (w.key src)) (hdest : Inside (w.key dest)) {moved : Workspace}
    (hmove : w.moveFile d src dest = .ok moved)
    (hun : w.Unblocked d (w.key src) (w.key dest)) (cache : TreeCache) :
    let before := updateReferences ⟨w, cache⟩ d src dest
    updateReferences ⟨moved, cache⟩ d src dest = before.withMove d (w.key src) (w.key dest) ∧
      before.session.workspace.moveFile d src dest
        = .ok (before.session.workspace.withMove d (w.key src) (w.key dest)) := by
  intro before
  obtain ⟨horigin, ⟨hfile, hdir⟩, rfl⟩ := moveFile_eq_ok hmove
  -- The move as a call, so that what holds of every call holds of it.
  have happly : w.apply d (.moveFile src dest) = w.withMove d (w.key src) (w.key dest) := by
    rw [Workspace.apply, hmove]
    rfl
  have hin' := happly ▸ hin.moveFile (d := d) hsrc hdest
  have hst' := happly ▸ hst.moveFile (d := d) hdest
  have hkeys := inside_of_mem_stagedKeys hin hst
  -- No file is in the way, neither before the move nor behind it.
  have hclear := isClear_of_unblocked hplain hd hun hkeys hfile hdir
  have hclear' := hclear.withMove hsrc horigin hfile (inside_of_mem_stagedKeys hin' hst')
  -- So both updates come to the same modules, and these stand where they stood.
  have hfiles := others_moduleFiles hclear hclear' (agreesBeside_withMove w d _ _) hd hnamed hin
    hst hin' hst' hsrc.ne_empty hdest.ne_empty
  have hall : ∀ f ∈ others (w.key src) (w.key dest) (moduleFiles w d), Inside f ∧
      w.fileExists d f = true ∧ f ≠ w.key src ∧ f ≠ w.key dest := fun f hf =>
    of_mem_others_moduleFiles hnamed hkeys hf
  have hedited : IsEdited w before.session.workspace d
      (others (w.key src) (w.key dest) (moduleFiles w d)) :=
    -- The update stages texts of those modules only.
    isEdited_updateModules (fun f hf => (hall f hf).1.within) _ _ ⟨.ok [], ⟨w, cache⟩, []⟩
  refine ⟨?_, hedited.moveFile_eq hplain hd hmove hall⟩
  show updateModules d (w.key src) (w.key dest) (others (w.key src) (w.key dest)
    (moduleFiles (w.withMove d (w.key src) (w.key dest)) d)) _ = _
  rw [← hfiles]
  exact updateModules_withMove (w.key src) (w.key dest)
    (fun f hf => ⟨(hall f hf).1.within, (hall f hf).2.2⟩) ⟨.ok [], ⟨w, cache⟩, []⟩ hord

/-! ### Runs -/

/-- **References can be updated before or behind a move.** Let the disk be
a tree, let the paths of the calls and the two paths lie inside the
project, and let no file be in the way of the move.

In every state of a run in which nothing is deleted and no directory was
moved, and whatever trees were parsed before, an update of the references
to a file that can be moved comes to the same before the move and behind
it, be it a failure or a list of updates. Behind the earlier update the
move is possible, and leads to the same workspace and the same trees as
the later update. -/
theorem updateReferences_moveFile_comm {d : Disk} (hd : d.IsTree) (hnamed : d.IsNamed)
    (root : String) (settings : Settings) (filter : PathFilter) (calls : List Call)
    (hpaths : ∀ c ∈ calls, ∀ p ∈ c.paths, (ofFilter root settings filter).key p ≠ ""
      ∧ leaves ((ofFilter root settings filter).key p) = false) (cache : TreeCache)
    {src dest : String} {moved : Workspace} :
    let w := (ofFilter root settings filter).run d calls
    (∀ p ∈ [src, dest], w.key p ≠ "" ∧ leaves (w.key p) = false) → w.Plain →
      w.moveFile d src dest = .ok moved → w.Unblocked d (w.key src) (w.key dest) →
    let before := updateReferences ⟨w, cache⟩ d src dest
    let behind := updateReferences ⟨moved, cache⟩ d src dest
    before.result = behind.result ∧ before.notices = behind.notices ∧
      before.session.workspace.moveFile d src dest = .ok behind.session.workspace ∧
      before.session.cache = behind.session.cache := by
  intro w hkeys hplain hmove hun before behind
  have hinside : ∀ c ∈ calls, ∀ p ∈ c.paths, Inside ((ofFilter root settings filter).key p) :=
    fun c hc p hp => inside_key (hpaths c hc p hp).1 (hpaths c hc p hp).2
  have hin : KeysInside w := keysInside_run (keysInside_ofFilter root settings filter) hinside
  have hst : StagedInside w :=
    stagedInside_run (stagedInside_ofFilter root settings filter) hinside
  have hord : w.IsOrdered := (isOrdered_ofFilter root settings filter).run calls
  have hboth : ∀ p ∈ [src, dest], Inside (w.key p) := fun p hp =>
    inside_key (hkeys p hp).1 (hkeys p hp).2
  obtain ⟨hbehind, hmoves⟩ := updateReferences_withMove hd hnamed hin hst hord hplain
    (hboth src (by simp)) (hboth dest (by simp)) hmove hun cache
  have heq : behind = before.withMove d (w.key src) (w.key dest) := hbehind
  rw [heq]
  exact ⟨rfl, rfl, hmoves, rfl⟩

/-- A project with a module that names another one. -/
def oneReference : Disk :=
  ⟨[(["root"], .dir), (["root", "a"], .dir),
    (["root", "a", "x.js"], .file (Disk.bytesOf "x\n")),
    (["root", "b.js"], .file (Disk.bytesOf "import x from './a/x';\n"))]⟩

/-- One more module that names it is staged. -/
def secondReference : List Call := [.save "c.js" "export * from './a/x.js';\n"]

/-- The module leaves its directory, before its references are updated or
behind that. -/
theorem updateReferences_moveFile_comm_leaving :
    let w := (ofFilter "/root" Settings.default PathFilter.showAll).run oneReference secondReference
    let moved := w.withMove oneReference "a/x.js" "y.js"
    let before := updateReferences ⟨w, .empty⟩ oneReference "a/x.js" "y.js"
    let behind := updateReferences ⟨moved, .empty⟩ oneReference "a/x.js" "y.js"
    before.result = behind.result ∧ before.notices = behind.notices ∧
      before.session.workspace.moveFile oneReference "a/x.js" "y.js"
        = .ok behind.session.workspace ∧
      before.session.cache = behind.session.cache := by
  intro w moved
  have hd : oneReference.IsTree := by decide
  have hplain : w.Plain := ⟨by decide +kernel, by decide +kernel⟩
  have hinside : Inside "a/x.js" := ⟨[['a'], ['x', '.', 'j', 's']], by decide, by decide, by decide⟩
  have habove : ∀ key ∈ ["a/x.js", "y.js"], ∀ dir, dir ≠ key → isUnder key dir = true →
      w.fileExists oneReference dir = false := by
    have hall : ∀ key ∈ ["a/x.js", "y.js"], ∀ dir ∈ upwards key, dir ≠ key →
        w.fileExists oneReference dir = false := by decide +kernel
    exact fun key hkey dir hne hunder => hall key hkey dir (mem_upwards.mpr hunder) hne
  have hun : w.Unblocked oneReference "a/x.js" "y.js" :=
    ⟨habove _ (by simp), habove _ (by simp),
      hplain.no_file_below hd hinside (by decide +kernel) (by decide +kernel)⟩
  have hkey : w.key "a/x.js" = "a/x.js" ∧ w.key "y.js" = "y.js" := by decide +kernel
  refine updateReferences_moveFile_comm hd (by decide) "/root" Settings.default PathFilter.showAll
    secondReference (by decide +kernel) .empty (by decide +kernel) hplain ?_ ?_
  · refine (moveFile_of_free ?_ ?_ ?_).trans ?_
    · decide +kernel
    · decide +kernel
    · decide +kernel
    · rw [hkey.1, hkey.2]
  · rw [hkey.1, hkey.2]
    exact hun

/-- If the walk goes in ascending order, the modules are updated as it
comes by them. -/
theorem result_updateReferences (src dest : String) (files : List String)
    (hwalk : modulesBelow w d (depthOf w d) "" = files)
    (hsorted : files.Pairwise fun a b => decide (a ≤ b) = true) (cache : TreeCache) :
    (updateReferences ⟨w, cache⟩ d src dest).result = (updateModules d (w.key src) (w.key dest)
      (others (w.key src) (w.key dest) files) ⟨.ok [], ⟨w, cache⟩, []⟩).result := by
  rw [updateReferences, moduleFiles, hwalk, List.mergeSort_of_pairwise hsorted]
  rfl

/-- A project with a file that is no text. -/
def oneBinary : Disk := ⟨[(["root"], .dir), (["root", "d.js"], .file [0])]⟩

/-- A module is staged below the file. -/
def belowBinary : List Call := [.save "d.js/x.js" "x\n"]

/-- A project with a directory that holds a file that is no text, and a
module. -/
def binaryInside : Disk :=
  ⟨[(["root"], .dir), (["root", "a.js"], .dir), (["root", "a.js", "x.js"], .file [0]),
    (["root", "b.js"], .file (Disk.bytesOf "b\n"))]⟩

/-- The module takes the place of the directory, and is staged there, which
takes back the deletion. -/
def overDirectory : List Call :=
  [.delete "a.js" .warn, .moveFile "b.js" "a.js", .save "a.js" "b\n"]

/-- A file in the way makes a difference. Where a file is above the origin,
the view shows a directory there until the move takes away what is below;
where a file is below the origin, it is hidden until the move takes away
what is above. The walk misses the file before the move and comes by it
behind that. -/
theorem update_misses_blocked_module :
    let new := ofFilter "/root" Settings.default PathFilter.showAll
    let w := new.run oneBinary belowBinary
    let v := new.run binaryInside overDirectory
    (w.Plain ∧ (∀ dir ∈ upwards "e.js", dir ≠ "e.js" → w.fileExists oneBinary dir = false) ∧
      ∃ moved, w.moveFile oneBinary "d.js/x.js" "e.js" = .ok moved ∧
        (updateReferences ⟨w, .empty⟩ oneBinary "d.js/x.js" "e.js").result = .ok [] ∧
        (updateReferences ⟨moved, .empty⟩ oneBinary "d.js/x.js" "e.js").result
          = .error (.files .binary)) ∧
    (v.Plain ∧ (∀ dir ∈ upwards "c.js", dir ≠ "c.js" → v.fileExists binaryInside dir = false) ∧
      ∃ moved, v.moveFile binaryInside "a.js" "c.js" = .ok moved ∧
        (updateReferences ⟨v, .empty⟩ binaryInside "a.js" "c.js").result = .ok [] ∧
        (updateReferences ⟨moved, .empty⟩ binaryInside "a.js" "c.js").result
          = .error (.files .binary)) := by
  intro new w v
  have hmove := @moveFile_of_free oneBinary w "d.js/x.js" "e.js" (by decide +kernel)
    (by decide +kernel) (by decide +kernel)
  have hmove' := @moveFile_of_free binaryInside v "a.js" "c.js" (by decide +kernel)
    (by decide +kernel) (by decide +kernel)
  refine ⟨⟨⟨by decide +kernel, by decide +kernel⟩, by decide +kernel, _, hmove, ?_, ?_⟩,
    ⟨⟨by decide +kernel, by decide +kernel⟩, by decide +kernel, _, hmove', ?_, ?_⟩⟩
  · rw [result_updateReferences _ _ ["d.js/x.js"] (by decide +kernel) (by decide)]
    decide +kernel
  · rw [result_updateReferences _ _ ["d.js", "e.js"] (by decide +kernel) (by decide)]
    decide +kernel
  · rw [result_updateReferences _ _ ["a.js"] (by decide +kernel) (by decide)]
    decide +kernel
  · rw [result_updateReferences _ _ ["a.js/x.js", "c.js"] (by decide +kernel) (by decide)]
    decide +kernel

end Session

end ScriptRefactor
