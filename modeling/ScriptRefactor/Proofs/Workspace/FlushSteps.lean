import ScriptRefactor.Workspace.Flush

/-!
# `ScriptRefactor.Proofs.Workspace.FlushSteps`: what a flush does to the disk

Each step of a flush is a function of the disk: `createdOn`,
`movedOn`, `deletedOn` and `savedOn`. They say what becomes of the
disk, and leave out what is logged and recorded. The phases of a flush
are these functions one after the other (`effect_steps`), so a flush
goes through exactly if `phases` does, and then leaves that disk
(`flush_eq_phases`).
-/

set_option autoImplicit false

namespace ScriptRefactor.Workspace

variable (w : Workspace)

/-! ### Single steps on the disk -/

/-- The disk with a staged directory created. -/
def createdOn (d : Disk) (key : String) : Option Disk :=
  if d.occupied (w.place key) then some d else d.makeDirs (w.place key)

/-- The disk with a staged move carried out. -/
def movedOn (d : Disk) (move : String × String) : Option Disk :=
  if d.occupied (w.place move.1) then
    (d.makeParent (w.place move.2)).bind fun d => d.rename (w.place move.1) (w.place move.2)
  else some d

/-- The disk with a staged deletion carried out. -/
def deletedOn (d : Disk) (key : String) : Disk :=
  if d.occupied (w.place key) then d.remove (w.place key) else d

/-- The disk with a staged text written. -/
def savedOn (d : Disk) (key : String) : Option Disk :=
  match w.texts.find? key with
  | none => some d
  | some text =>
    match d.bytes? (w.place key) with
    | some bytes =>
      if (Text.Utf8.decodeText? bytes).getD "" = text then some d
      else d.write (w.place key) (Disk.bytesOf text)
    | none =>
      (d.makeParent (w.place key)).bind fun d => d.write (w.place key) (Disk.bytesOf text)

/-- The disk behind a step, if it did not fail. -/
def diskOf? (result : Except Progress Progress) : Option Disk :=
  result.toOption.map Progress.disk

/-- The disk behind a change. -/
theorem diskOf?_change_bind (p : Progress) (d? : Option Disk) (next : Step) (f : Disk → Option Disk)
    (h : ∀ p, diskOf? (next p) = f p.disk) : diskOf? (p.change d? >>= next) = d?.bind f := by
  cases d? with
  | none => rfl
  | some d => exact h { p with disk := d }

/-- The disk behind a change at the end of a step. -/
theorem diskOf?_change (p : Progress) (d? : Option Disk) : diskOf? (p.change d?) = d? := by
  cases d? <;> rfl

/-- What a directory does to the disk. -/
theorem diskOf?_flushDir (key : String) (p : Progress) :
    diskOf? (w.flushDir key p) = w.createdOn p.disk key := by
  rw [flushDir, createdOn]
  split
  · rfl
  · refine (diskOf?_change_bind p _ _ some fun p => rfl).trans ?_
    exact Option.bind_fun_some _

/-- What a move does to the disk. -/
theorem diskOf?_flushMove (move : String × String) (p : Progress) :
    diskOf? (w.flushMove move p) = w.movedOn p.disk move := by
  rw [flushMove, movedOn]
  by_cases hthere : p.disk.occupied (w.place move.1) = true
  · simp only [hthere, Bool.not_true, Bool.false_eq_true, if_false, if_true]
    refine diskOf?_change_bind p _ _ _ fun p => ?_
    refine (diskOf?_change_bind p _ _ some fun p => rfl).trans ?_
    exact Option.bind_fun_some _
  · -- There is nothing to move, which is only logged.
    simp only [hthere, Bool.not_false, if_true]
    rfl

/-- What a deletion does to the disk. -/
theorem diskOf?_flushDeletion (deletion : String × DeleteMode) (p : Progress) :
    diskOf? (w.flushDeletion deletion p) = some (w.deletedOn p.disk deletion.1) := by
  rw [flushDeletion, deletedOn]
  simp only
  split
  · rfl
  · split <;> rfl

/-- What a text does to the disk. -/
theorem diskOf?_flushSave (key : String) (p : Progress) :
    diskOf? (w.flushSave key p) = w.savedOn p.disk key := by
  rw [flushSave, savedOn]
  cases w.texts.find? key with
  | none => rfl
  | some text =>
      simp only
      cases hbytes : p.disk.bytes? (w.place key) with
      | none =>
          exact diskOf?_change_bind p _ _ _ fun p => diskOf?_change _ _
      | some bytes =>
          simp only
          split
          · rfl
          · exact diskOf?_change _ _

/-! ### Phases -/

/-- The steps, made one after the other, do `f` to the disk. -/
def Effect (steps : List Step) (f : Disk → Option Disk) : Prop :=
  ∀ p, diskOf? (steps.foldlM (fun p step => step p) p) = f p.disk

/-- The effect of steps of one kind. -/
theorem effect_map {α : Type} {step : α → Step} {f : Disk → α → Option Disk}
    (h : ∀ a p, diskOf? (step a p) = f p.disk a) (as : List α) :
    Effect (as.map step) fun d => as.foldlM f d := by
  induction as with
  | nil => exact fun p => rfl
  | cons a as ih =>
      intro p
      show _ = (a :: as).foldlM f p.disk
      -- A failing step ends the list, and so does its effect.
      rw [List.map_cons, List.foldlM_cons, List.foldlM_cons, ← h a p]
      cases step a p with
      | error q => rfl
      | ok q => exact ih q

/-- The effect of phases one after the other. -/
theorem Effect.append {first second : List Step} {f g : Disk → Option Disk}
    (hf : Effect first f) (hg : Effect second g) :
    Effect (first ++ second) fun d => (f d).bind g := by
  intro p
  show _ = (f p.disk).bind g
  rw [List.foldlM_append, ← hf p]
  cases first.foldlM (fun p step => step p) p with
  | error q => rfl
  | ok q => exact hg q

/-- The disk behind the phases of a flush. -/
def phases (d : Disk) : Option Disk := do
  let d ← w.dirs.toList.foldlM w.createdOn d
  let d ← w.dirMoves.foldlM w.movedOn d
  let d := w.deletions.keys.foldl w.deletedOn d
  let d ← w.moves.foldlM w.movedOn d
  w.saves.toList.foldlM w.savedOn d

/-- The disks between the phases of a flush. -/
theorem phases_eq_some {d d' : Disk} (h : w.phases d = some d') :
    ∃ d₁ d₂ d₃, w.dirs.toList.foldlM w.createdOn d = some d₁ ∧
      w.dirMoves.foldlM w.movedOn d₁ = some d₂ ∧
      w.moves.foldlM w.movedOn (w.deletions.keys.foldl w.deletedOn d₂) = some d₃ ∧
      w.saves.toList.foldlM w.savedOn d₃ = some d' := by
  obtain ⟨d₁, h₁, h⟩ := Option.bind_eq_some_iff.mp h
  obtain ⟨d₂, h₂, h⟩ := Option.bind_eq_some_iff.mp h
  obtain ⟨d₃, h₃, h₄⟩ := Option.bind_eq_some_iff.mp h
  exact ⟨d₁, d₂, d₃, h₁, h₂, h₃, h₄⟩

/-- The effect of the deletions: they cannot fail. -/
theorem effect_deletions :
    Effect (w.deletions.entries.map w.flushDeletion) fun d =>
      some (w.deletions.keys.foldl w.deletedOn d) := by
  have hmap : Effect (w.deletions.entries.map w.flushDeletion) fun d =>
      w.deletions.entries.foldlM (fun d e => some (w.deletedOn d e.1)) d :=
    effect_map w.diskOf?_flushDeletion w.deletions.entries
  intro p
  refine (hmap p).trans ?_
  show w.deletions.entries.foldlM (fun d e => pure (w.deletedOn d e.1)) p.disk =
    some (w.deletions.keys.foldl w.deletedOn p.disk)
  rw [List.foldlM_pure, Table.keys, List.foldl_map]
  rfl

/-- The effect of all steps of a flush. -/
theorem effect_steps : Effect w.steps w.phases := by
  have hdirs := effect_map (f := w.createdOn) w.diskOf?_flushDir w.dirs.toList
  have hdirMoves := effect_map (f := w.movedOn) w.diskOf?_flushMove w.dirMoves
  have hmoves := effect_map (f := w.movedOn) w.diskOf?_flushMove w.moves
  have hsaves := effect_map (f := w.savedOn) w.diskOf?_flushSave w.saves.toList
  intro p
  rw [steps, (((hdirs.append hdirMoves).append w.effect_deletions).append hmoves).append hsaves p]
  simp only [phases, Option.bind_assoc, Option.bind_eq_bind, Option.bind_some]

/-- A flush goes through exactly if its phases do, and leaves the disk
that they leave. -/
theorem flush_eq_phases (d : Disk) :
    ((w.flush d).report?.map fun _ => (w.flush d).disk) = w.phases d := by
  rw [← w.effect_steps ⟨d, [], []⟩, flush]
  cases w.steps.foldlM (fun p step => step p) (⟨d, [], []⟩ : Progress) <;> rfl

/-- A flush of the one workspace does what a flush of the other one
does. -/
def SameFlush (w v : Workspace) (d : Disk) : Prop :=
  (v.flush d).disk = (w.flush d).disk ∧ (v.flush d).notices = (w.flush d).notices ∧
    (v.flush d).report? = (w.flush d).report?

/-- Workspaces whose steps have the same effect are flushed in the same
way. -/
theorem sameFlush_of_steps {w v : Workspace} {d : Disk}
    (h : ∀ p, v.steps.foldlM (fun p step => step p) p = w.steps.foldlM (fun p step => step p) p) :
    SameFlush w v d := by
  rw [SameFlush, flush, flush, h]
  split <;> exact ⟨rfl, rfl, rfl⟩

/-- The disk behind a flush that went through. -/
theorem phases_of_report {d : Disk} (h : (w.flush d).report?.isSome = true) :
    w.phases d = some (w.flush d).disk := by
  obtain ⟨report, hreport⟩ := Option.isSome_iff_exists.mp h
  rw [← flush_eq_phases, hreport]
  rfl

end ScriptRefactor.Workspace
