import Mathlib.Data.List.Induction
import ScriptRefactor.Workspace.Flush
import ScriptRefactor.Workspace.Stage

/-!
# `ScriptRefactor.Proofs.Workspace.Run`: runs of calls

A `Call` is one of the operations that change a workspace, with its
arguments. `apply` makes one call, and `run` makes some after the
other, over a disk that nobody changes meanwhile. A move that is
refused leaves the workspace as it is.

No call changes the root of the project (`root_run`), so that a path
has the same key, and a key the same place, before and after a run.
-/

set_option autoImplicit false

namespace ScriptRefactor

/-- A call that stages or reads something. -/
inductive Call where
  /-- A text staged. -/
  | put (path text : String)
  /-- A text staged and marked to be written. -/
  | save (path text : String)
  /-- A directory staged. -/
  | mkdir (path : String)
  /-- A deletion staged. -/
  | delete (path : String) (mode : DeleteMode)
  /-- A file move staged. -/
  | moveFile (origin target : String)
  /-- A directory move staged. -/
  | moveDir (origin target : String)
  /-- A file read. -/
  | content (path : String)
  /-- A read text dropped. -/
  | invalidate (path : String)
deriving DecidableEq, Repr

/-- The paths that a call names. -/
def Call.paths : Call → List String
  | .put path _ | .save path _ | .mkdir path | .delete path _ | .content path
  | .invalidate path => [path]
  | .moveFile origin target | .moveDir origin target => [origin, target]

/-- The call reads, saves or moves a file. -/
def Call.isOfFiles : Call → Bool
  | .save .. | .moveFile .. | .content .. => true
  | _ => false

/-- The call moves a file or a directory. -/
def Call.isMove : Call → Bool
  | .moveFile .. | .moveDir .. => true
  | _ => false

/-- The call stages a deletion. -/
def Call.isDelete : Call → Bool
  | .delete .. => true
  | _ => false

/-- The call stages a directory or a deletion, or saves a text. -/
def Call.isOfStaging : Call → Bool
  | .mkdir .. | .delete .. | .save .. => true
  | _ => false

/-- The call stages or moves a directory. -/
def Call.isOfDirs : Call → Bool
  | .mkdir .. | .moveDir .. => true
  | _ => false

namespace Workspace

/-- The workspace after a call. -/
def apply (d : Disk) (w : Workspace) : Call → Workspace
  | .put path text => w.put path text
  | .save path text => w.save path text
  | .mkdir path => w.mkdir path
  | .delete path mode => w.delete d path mode
  | .moveFile origin target => (w.moveFile d origin target).toOption.getD w
  | .moveDir origin target => (w.moveDir d origin target).toOption.getD w
  | .content path => (w.content d path).2
  | .invalidate path => w.invalidate path

/-- The workspace after some calls. -/
def run (d : Disk) (w : Workspace) (calls : List Call) : Workspace := calls.foldl (apply d) w

/-! ### Moves that were accepted -/

/-- The texts when the one of a moved file goes along. -/
def movedTexts (w : Workspace) (origin target : String) : Table String :=
  match w.texts.find? origin with
  | some text => (w.texts.erase origin).insert target text
  | none => w.texts

/-- The keys to be written when that of a moved file changes. -/
def movedSaves (w : Workspace) (origin target : String) : KeySet :=
  if w.saves.contains origin then (w.saves.erase origin).insert target else w.saves

/-- The file is on disk at the key, and has to be carried away from
there. -/
def isReal (w : Workspace) (d : Disk) (key : String) : Bool :=
  !w.isMoveOrigin key && w.onDisk key d.isFile

/-- The file moves when one more was staged. -/
def movedMoves (w : Workspace) (d : Disk) (origin target : String) : List (String × String) :=
  match continueMove w.moves origin target with
  | some moves => moves
  | none => if w.isReal d origin then w.moves ++ [(origin, target)] else w.moves

/-- The directory moves when one more was staged. -/
def movedDirMoves (w : Workspace) (origin target : String) : List (String × String) :=
  match continueMove w.dirMoves origin target with
  | some moves => moves
  | none => w.dirMoves ++ [(origin, target)]

/-- A key when a directory is moved. -/
def carried (origin target key : String) : String :=
  (Path.replacePrefix? key origin target).getD key

/-- The workspace behind an accepted file move. -/
def withMove (w : Workspace) (d : Disk) (origin target : String) : Workspace :=
  { w with
    texts := w.movedTexts origin target
    saves := w.movedSaves origin target
    moves := w.movedMoves d origin target }

/-- The workspace behind an accepted directory move. -/
def withDirMove (w : Workspace) (origin target : String) : Workspace :=
  { w with
    texts := w.texts.mapKeys (carried origin target)
    saves := w.saves.map (carried origin target)
    deletions := w.deletions.mapKeys (carried origin target)
    dirs := w.dirs.map (carried origin target)
    moves := w.moves.map fun m => (carried origin target m.1, carried origin target m.2)
    dirMoves := w.movedDirMoves origin target }

/-- A file move that is accepted has a file to move and a free
target. -/
theorem moveFile_eq_ok {d : Disk} {w w' : Workspace} {originPath targetPath : String}
    (h : w.moveFile d originPath targetPath = .ok w') :
    w.fileExists d (w.key originPath) = true ∧
      (w.fileExists d (w.key targetPath) = false ∧ w.dirExists d (w.key targetPath) = false) ∧
      w' = w.withMove d (w.key originPath) (w.key targetPath) := by
  simp only [moveFile] at h
  split at h
  · cases h
  · rename_i horigin
    split at h
    · cases h
    · rename_i htarget
      refine ⟨by simpa using horigin, by simpa using htarget, ?_⟩
      exact (Except.ok.inj h).symm

/-- A file that is there can be moved to a free target. -/
theorem moveFile_of_free {d : Disk} {w : Workspace} {originPath targetPath : String}
    (horigin : w.fileExists d (w.key originPath) = true)
    (hfile : w.fileExists d (w.key targetPath) = false)
    (hdir : w.dirExists d (w.key targetPath) = false) :
    w.moveFile d originPath targetPath
      = .ok (w.withMove d (w.key originPath) (w.key targetPath)) := by
  rw [moveFile, horigin, hfile, hdir]
  rfl

/-- A directory move that is accepted has a directory to move and a
free target. -/
theorem moveDir_eq_ok {d : Disk} {w w' : Workspace} {originPath targetPath : String}
    (h : w.moveDir d originPath targetPath = .ok w') :
    w.dirExists d (w.key originPath) = true ∧
      (w.fileExists d (w.key targetPath) = false ∧ w.dirExists d (w.key targetPath) = false) ∧
      w' = w.withDirMove (w.key originPath) (w.key targetPath) := by
  simp only [moveDir] at h
  split at h
  · cases h
  · rename_i horigin
    split at h
    · cases h
    · rename_i htarget
      cases h
      exact ⟨by simpa using horigin, by simpa using htarget, rfl⟩

/-- A key with a file is not free. -/
theorem ne_of_free {d : Disk} {w : Workspace} {a b : String} (hexists : w.fileExists d a = true)
    (hfree : w.fileExists d b = false) : a ≠ b := by
  rintro rfl
  rw [hexists] at hfree
  cases hfree

/-! ### One call -/

/-- A file move is accepted, or changes nothing. -/
theorem apply_moveFile_cases (d : Disk) (w : Workspace) (origin target : String) :
    (w.moveFile d origin target = .ok (w.withMove d (w.key origin) (w.key target)) ∧
      w.apply d (.moveFile origin target) = w.withMove d (w.key origin) (w.key target)) ∨
    ((w.moveFile d origin target).toOption = none ∧ w.apply d (.moveFile origin target) = w) := by
  rw [apply]
  cases h : w.moveFile d origin target with
  | ok w' =>
      have hw' := (moveFile_eq_ok h).2.2
      exact .inl ⟨by rw [hw'], hw'⟩
  | error e => exact .inr ⟨rfl, rfl⟩

/-- A directory move is accepted, or changes nothing. -/
theorem apply_moveDir_cases (d : Disk) (w : Workspace) (origin target : String) :
    (w.moveDir d origin target = .ok (w.withDirMove (w.key origin) (w.key target)) ∧
      w.apply d (.moveDir origin target) = w.withDirMove (w.key origin) (w.key target)) ∨
    ((w.moveDir d origin target).toOption = none ∧ w.apply d (.moveDir origin target) = w) := by
  rw [apply]
  cases h : w.moveDir d origin target with
  | ok w' =>
      have hw' := (moveDir_eq_ok h).2.2
      exact .inl ⟨by rw [hw'], hw'⟩
  | error e => exact .inr ⟨rfl, rfl⟩

/-- What a file says, besides that it is kept. -/
theorem content_fst (d : Disk) (w : Workspace) (path : String) :
    (w.content d path).1 = w.textOf d (w.key path) := by
  rw [content]
  cases w.textOf d (w.key path) <;> rfl

/-- A file is read from the texts or from the disk, and kept; a failure
changes nothing. -/
theorem apply_content_cases (d : Disk) (w : Workspace) (path : String) :
    (∃ text, w.textOf d (w.key path) = .ok text ∧
        w.apply d (.content path) = { w with texts := w.texts.insert (w.key path) text }) ∨
      w.apply d (.content path) = w := by
  rw [apply, content]
  cases h : w.textOf d (w.key path) with
  | ok text => exact .inl ⟨text, rfl, rfl⟩
  | error e => exact .inr rfl

/-- A text is saved under the key of the key, which is the key for most
paths. -/
theorem apply_save {w : Workspace} {path : String} (h : w.key (w.key path) = w.key path)
    (d : Disk) (text : String) :
    w.apply d (.save path text) = { w with
      deletions := w.deletions.erase (w.key path)
      texts := w.texts.insert (w.key path) (Text.Utf8.foldLineBreaks text)
      saves := w.saves.insert (w.key path) } := by
  rw [apply, save, put, putKey, h]

/-- A call changes neither the root of the project nor its settings, nor
what listings show. -/
theorem apply_frame (d : Disk) (w : Workspace) (c : Call) :
    (w.apply d c).root = w.root ∧ (w.apply d c).settings = w.settings ∧
      (w.apply d c).filter = w.filter := by
  cases c with
  | put path text => exact ⟨rfl, rfl, rfl⟩
  | save path text => exact ⟨rfl, rfl, rfl⟩
  | mkdir path => exact ⟨rfl, rfl, rfl⟩
  | delete path mode => exact ⟨rfl, rfl, rfl⟩
  | moveFile origin target =>
      rcases apply_moveFile_cases d w origin target with ⟨-, happly⟩ | ⟨-, happly⟩
      · rw [happly]
        exact ⟨rfl, rfl, rfl⟩
      · rw [happly]
        exact ⟨rfl, rfl, rfl⟩
  | moveDir origin target =>
      rcases apply_moveDir_cases d w origin target with ⟨-, happly⟩ | ⟨-, happly⟩
      · rw [happly]
        exact ⟨rfl, rfl, rfl⟩
      · rw [happly]
        exact ⟨rfl, rfl, rfl⟩
  | content path =>
      rcases apply_content_cases d w path with ⟨text, -, happly⟩ | happly
      · rw [happly]
        exact ⟨rfl, rfl, rfl⟩
      · rw [happly]
        exact ⟨rfl, rfl, rfl⟩
  | invalidate path =>
      rw [apply, invalidate]
      split <;> exact ⟨rfl, rfl, rfl⟩

/-- No call changes the root of the project. -/
@[simp]
theorem root_apply (d : Disk) (w : Workspace) (c : Call) : (w.apply d c).root = w.root :=
  (apply_frame d w c).1

/-- No call changes the settings. -/
@[simp]
theorem settings_apply (d : Disk) (w : Workspace) (c : Call) :
    (w.apply d c).settings = w.settings :=
  (apply_frame d w c).2.1

/-- No call changes what listings show. -/
@[simp]
theorem filter_apply (d : Disk) (w : Workspace) (c : Call) : (w.apply d c).filter = w.filter :=
  (apply_frame d w c).2.2

/-- Over the same root, paths have the same keys. -/
theorem key_congr {w w' : Workspace} (h : w.root = w'.root) : w.key = w'.key := by
  funext path
  rw [key, key, h]

/-- Over the same root, keys have the same places. -/
theorem place_congr {w w' : Workspace} (h : w.root = w'.root) : w.place = w'.place := by
  funext k
  rw [place, place, fullPath, fullPath, h]

/-! ### Many calls -/

/-- What every call preserves, a run preserves. -/
theorem run_induction {d : Disk} {P : Workspace → Prop} {calls : List Call}
    (hstep : ∀ w, P w → ∀ c ∈ calls, P (w.apply d c)) {w : Workspace} (hw : P w) :
    P (w.run d calls) := by
  induction calls generalizing w with
  | nil => exact hw
  | cons c calls ih =>
      exact ih (fun w hw c hc => hstep w hw c (List.mem_cons_of_mem _ hc))
        (hstep w hw c (List.mem_cons_self ..))

/-- No run changes the root of the project. -/
@[simp]
theorem root_run (d : Disk) (w : Workspace) (calls : List Call) :
    (w.run d calls).root = w.root :=
  run_induction (P := fun w' => w'.root = w.root) (fun w' hw' c _ => (root_apply d w' c).trans hw')
    rfl

/-- What every call preserves over the same root, a run preserves. -/
theorem run_induction_root {d : Disk} {P : Workspace → Prop} {calls : List Call} {w : Workspace}
    (hstep : ∀ v, v.root = w.root → P v → ∀ c ∈ calls, P (v.apply d c)) (hw : P w) :
    P (w.run d calls) := by
  have hrun : (w.run d calls).root = w.root ∧ P (w.run d calls) :=
    run_induction (P := fun v => v.root = w.root ∧ P v)
      (fun v hv c hc => ⟨(root_apply d v c).trans hv.1, hstep v hv.1 hv.2 c hc⟩) ⟨rfl, hw⟩
  exact hrun.2

/-- The last call of a run is made last. -/
theorem run_concat (d : Disk) (w : Workspace) (before : List Call) (c : Call) :
    w.run d (before ++ [c]) = (w.run d before).apply d c := by
  rw [run, run, List.foldl_append]
  rfl

/-- If exactly some calls break what holds, then it holds in all states of
a run exactly if no call of the run breaks it. -/
theorem forall_prefix_iff {d : Disk} {P : Workspace → Prop} {Breaks : Workspace → Call → Prop}
    (hstep : ∀ w, P w → ∀ c, P (w.apply d c) ↔ ¬ Breaks w c) {w : Workspace} (hw : P w)
    (calls : List Call) :
    (∀ before, before <+: calls → P (w.run d before)) ↔
      ∀ before c, before ++ [c] <+: calls → ¬ Breaks (w.run d before) c := by
  constructor
  · intro hall before c hpre
    have hbefore := hall before ((List.prefix_append before [c]).trans hpre)
    rw [← hstep _ hbefore, ← run_concat]
    exact hall _ hpre
  · -- Every state is reached from one where it holds.
    intro hsafe before hpre
    induction before using List.reverseRecOn with
    | nil => exact hw
    | append_singleton before c ih =>
        rw [run_concat, hstep _ (ih ((List.prefix_append before [c]).trans hpre))]
        exact hsafe before c hpre

/-- Something holds of all steps of a run, each with those before it,
exactly if it holds at all positions. -/
theorem forall_concat_prefix_iff {α : Type} {P : List α → α → Prop} (steps : List α) :
    (∀ before a, before ++ [a] <+: steps → P before a) ↔
      ∀ i : Fin steps.length, P (steps.take i) steps[i] := by
  constructor
  · intro hall i
    refine hall _ _ ?_
    rw [Fin.getElem_fin, List.take_append_getElem i.isLt]
    exact List.take_prefix _ _
  · rintro hall before a ⟨after, rfl⟩
    have hlast := hall ⟨before.length, by simp⟩
    simpa using hlast

/-- No run changes what listings show. -/
@[simp]
theorem filter_run (d : Disk) (w : Workspace) (calls : List Call) :
    (w.run d calls).filter = w.filter :=
  run_induction (P := fun w' => w'.filter = w.filter)
    (fun w' hw' c _ => (filter_apply d w' c).trans hw') rfl

end Workspace

end ScriptRefactor
