import ScriptRefactor.Proofs.Workspace.RecordedMoves

/-!
# `ScriptRefactor.Proofs.Workspace.Deletions`: deletions and the files to be moved

A flush deletes before it moves files. So a deletion of a key at or
above the origin of a recorded move takes away the file that is still
to be moved. `Spares` says that no deletion does.

Three calls can break it (`Endangers`):

* a deletion of the directory that a file was moved away from, or of
  the origin itself, is recorded although the file is to be moved;
* a file is moved out of a deleted directory, in which a text was
  staged for it while it still was on disk;
* a directory is moved to where something is deleted, or where
  something was moved away.

No other call does, and none of these does without breaking it
(`spares_apply_iff`). So the deletions spare the moves in all states of
a run exactly if no call of it endangers one
(`forall_prefix_spares_iff`).
-/

set_option autoImplicit false

namespace ScriptRefactor.Workspace

/-! ### Deletions that are recorded -/

/-- No deletion is at or above the origin of a recorded move. -/
def Spares (w : Workspace) : Prop :=
  ∀ m ∈ w.moves, ∀ k ∈ w.deletions.keys, Path.isUnder m.1 k = false

instance (w : Workspace) : Decidable w.Spares :=
  inferInstanceAs (Decidable (∀ m ∈ w.moves, ∀ k ∈ w.deletions.keys, _))

/-- The workspace without what is staged at and below a key. -/
def dropped (w : Workspace) (key : String) : Workspace :=
  { w with
    texts := w.texts.filterKeys fun k => !Path.isUnder k key
    saves := w.saves.filter fun k => !Path.isUnder k key
    dirs := w.dirs.filter fun k => !Path.isUnder k key
    moves := w.moves.filter fun m => !Path.isUnder m.2 key }

/-- The moves to a key and below it. -/
def movedBelow (w : Workspace) (key : String) : List (String × String) :=
  w.moves.filter fun m => Path.isUnder m.2 key

/-- There is nothing but files that were moved there at and below a
key. -/
def holdsOnlyMoved (w : Workspace) (d : Disk) (key : String) : Bool :=
  !(w.movedBelow key).isEmpty && !(w.dropped key).staysOnDisk d key

/-- A deletion of `key` records the deletion of `k`: the origin of a
file that was moved to `key` or below it, or `key` itself, unless it
holds nothing else. -/
def Deletes (w : Workspace) (d : Disk) (key k : String) : Prop :=
  (∃ m ∈ w.movedBelow key, m.1 = k) ∨ (k = key ∧ w.holdsOnlyMoved d key = false)

variable {w : Workspace} {d : Disk}

/-- A deletion drops what is staged, and records deletions. -/
theorem delete_eq (w : Workspace) (d : Disk) (path : String) (mode : DeleteMode) :
    ∃ deletions : Table DeleteMode,
      w.delete d path mode = { w.dropped (w.key path) with deletions := deletions } ∧
      ∀ k, k ∈ deletions.keys ↔ k ∈ w.deletions.keys ∨ w.Deletes d (w.key path) k := by
  refine ⟨if w.holdsOnlyMoved d (w.key path) then
      (w.movedBelow (w.key path)).foldl (fun t m => t.insert m.1 mode) w.deletions
    else ((w.movedBelow (w.key path)).foldl (fun t m => t.insert m.1 mode) w.deletions).insert
      (w.key path) mode, ?_, fun k => ?_⟩
  · simp only [delete, List.partition_eq_filter_filter]
    rfl
  · have hgone := Table.mem_keys_foldl_insert w.deletions Prod.fst (fun _ => mode)
      (w.movedBelow (w.key path)) k
    rw [Deletes]
    -- Of a key that holds nothing else, only the origins of the moved files are deleted.
    cases w.holdsOnlyMoved d (w.key path) with
    | true =>
        rw [if_pos rfl, hgone]
        simp
    | false =>
        rw [if_neg (by simp), Table.mem_keys_insert, hgone]
        simp only [and_true]
        exact or_comm.trans or_assoc

/-- Where nothing was moved, a deletion drops what is staged at its key and
below, and records the key. -/
theorem mem_delete_of_no_moves (h : w.moves = []) (path : String) (mode : DeleteMode)
    (k : String) :
    let v := w.apply d (.delete path mode)
    (k ∈ v.texts.keys ↔ k ∈ w.texts.keys ∧ Path.isUnder k (w.key path) = false) ∧
      (k ∈ v.dirs.toList ↔ k ∈ w.dirs.toList ∧ Path.isUnder k (w.key path) = false) ∧
      (k ∈ v.deletions.keys ↔ k ∈ w.deletions.keys ∨ k = w.key path) := by
  obtain ⟨deletions, hdelete, hkeys⟩ := w.delete_eq d path mode
  intro v
  have hv : v = { w.dropped (w.key path) with deletions := deletions } := hdelete
  have hbelow : w.movedBelow (w.key path) = [] := by rw [movedBelow, h, List.filter_nil]
  have honly : w.holdsOnlyMoved d (w.key path) = false := by rw [holdsOnlyMoved, hbelow]; rfl
  rw [hv, hkeys, Deletes, hbelow, honly]
  refine ⟨?_, ?_, ?_⟩
  · simp [dropped, Table.mem_keys_filterKeys]
  · simp [dropped, KeySet.mem_filter]
  · simp

/-- A call that neither moves nor deletes leaves the moves as they are, and
records no deletion. -/
theorem moves_apply {c : Call} (hmove : c.isMove = false) (hdelete : c.isDelete = false) :
    (w.apply d c).moves = w.moves ∧ (w.apply d c).dirMoves = w.dirMoves ∧
      ∀ k ∈ (w.apply d c).deletions.keys, k ∈ w.deletions.keys := by
  -- What is staged is no longer deleted.
  have herase : ∀ key, ∀ k ∈ (w.deletions.erase key).keys, k ∈ w.deletions.keys :=
    fun key k hk => ((Table.mem_keys_erase _ _ _).mp hk).1
  cases c with
  | put path text => exact ⟨rfl, rfl, herase _⟩
  | save path text => exact ⟨rfl, rfl, herase _⟩
  | mkdir path => exact ⟨rfl, rfl, herase _⟩
  | delete path mode => cases hdelete
  | moveFile origin target => cases hmove
  | moveDir origin target => cases hmove
  | content path =>
      rcases apply_content_cases d w path with ⟨text, -, happly⟩ | happly
      · rw [happly]
        exact ⟨rfl, rfl, fun k hk => hk⟩
      · rw [happly]
        exact ⟨rfl, rfl, fun k hk => hk⟩
  | invalidate path =>
      rw [apply, invalidate]
      split
      · exact ⟨rfl, rfl, fun k hk => hk⟩
      · exact ⟨rfl, rfl, fun k hk => hk⟩

/-! ### Calls that break it -/

/-- The call lets a deletion reach the origin of a recorded move. -/
def Endangers (w : Workspace) (d : Disk) : Call → Prop
  | .delete path _ =>
    ∃ m ∈ w.moves, Path.isUnder m.2 (w.key path) = false ∧
      ∃ k, w.Deletes d (w.key path) k ∧ Path.isUnder m.1 k = true
  | .moveFile origin target =>
    (w.moveFile d origin target).toOption.isSome = true ∧
      (∀ m ∈ w.moves, m.2 ≠ w.key origin) ∧ w.isReal d (w.key origin) = true ∧
      ∃ k ∈ w.deletions.keys, Path.isUnder (w.key origin) k = true
  | .moveDir origin target =>
    (w.moveDir d origin target).toOption.isSome = true ∧
      ∃ m ∈ w.moves, ∃ k ∈ w.deletions.keys,
        Path.isUnder (carried (w.key origin) (w.key target) m.1)
          (carried (w.key origin) (w.key target) k) = true
  | _ => False

/-- Fewer moves and fewer deletions are easier to spare. -/
theorem Spares.mono (h : w.Spares) {w' : Workspace} (hmoves : ∀ m ∈ w'.moves, m ∈ w.moves)
    (hdeletions : ∀ k ∈ w'.deletions.keys, k ∈ w.deletions.keys) : w'.Spares :=
  fun m hm k hk => h m (hmoves m hm) k (hdeletions k hk)

/-- A deletion spares the moves that it does not drop, or endangers
one. -/
theorem spares_delete_iff (h : w.Spares) (path : String) (mode : DeleteMode) :
    (w.apply d (.delete path mode)).Spares ↔ ¬ w.Endangers d (.delete path mode) := by
  obtain ⟨deletions, hdelete, hkeys⟩ := w.delete_eq d path mode
  rw [apply, hdelete]
  have hmoves : ∀ m, m ∈ (w.dropped (w.key path)).moves ↔
      m ∈ w.moves ∧ Path.isUnder m.2 (w.key path) = false := by
    intro m
    rw [dropped, List.mem_filter, Bool.not_eq_true']
  constructor
  · rintro hspares ⟨m, hm, hkept, k, hk, hunder⟩
    have := hspares m ((hmoves m).mpr ⟨hm, hkept⟩) k ((hkeys k).mpr (.inr hk))
    rw [hunder] at this
    cases this
  · -- A deletion was there before, which spares all moves, or is a new one.
    intro hsafe m hm k hk
    obtain ⟨hm, hkept⟩ := (hmoves m).mp hm
    rcases (hkeys k).mp hk with hk | hk
    · exact h m hm k hk
    · rw [← Bool.not_eq_true]
      exact fun hunder => hsafe ⟨m, hm, hkept, k, hk, hunder⟩

/-- A file move spares the moves, or is recorded below a deletion. -/
theorem spares_moveFile_iff (h : w.Spares) (origin target : String) :
    (w.apply d (.moveFile origin target)).Spares ↔
      ¬ w.Endangers d (.moveFile origin target) := by
  rcases apply_moveFile_cases d w origin target with ⟨hok, happly⟩ | ⟨hrefused, happly⟩
  · rw [happly]
    constructor
    · rintro hspares ⟨-, hnone, hreal, k, hk, hunder⟩
      have := hspares (w.key origin, w.key target) (mem_movedMoves_of_isReal hnone hreal) k hk
      rw [hunder] at this
      cases this
    · -- Every move leads from the origin of an earlier one, or was recorded now.
      intro hsafe n hn k hk
      rcases mem_movedMoves hn with hn | ⟨-, ⟨m, hm, heq⟩ | ⟨heq, hnone, hreal⟩⟩
      · exact h n hn k hk
      · rw [← heq]
        exact h m hm k hk
      · rw [heq, ← Bool.not_eq_true]
        exact fun hunder => hsafe ⟨by rw [hok]; rfl, hnone, hreal, k, hk, hunder⟩
  · rw [happly]
    refine iff_of_true h fun hendangers => ?_
    rw [Endangers, hrefused] at hendangers
    cases hendangers.1

/-- A directory move spares the moves, or brings one below a
deletion. -/
theorem spares_moveDir_iff (h : w.Spares) (origin target : String) :
    (w.apply d (.moveDir origin target)).Spares ↔
      ¬ w.Endangers d (.moveDir origin target) := by
  rcases apply_moveDir_cases d w origin target with ⟨hok, happly⟩ | ⟨hrefused, happly⟩
  · rw [happly]
    constructor
    · rintro hspares ⟨-, m, hm, k, hk, hunder⟩
      have := hspares _ (List.mem_map_of_mem hm) _
        ((Table.mem_keys_mapKeys _ _ _).mpr ⟨k, hk, rfl⟩)
      rw [hunder] at this
      cases this
    · -- All moves and deletions are carried along.
      rintro hsafe n hn k hk
      obtain ⟨m, hm, rfl⟩ := List.mem_map.mp hn
      obtain ⟨j, hj, rfl⟩ := (Table.mem_keys_mapKeys _ _ _).mp hk
      rw [← Bool.not_eq_true]
      exact fun hunder => hsafe ⟨by rw [hok]; rfl, m, hm, j, hj, hunder⟩
  · rw [happly]
    refine iff_of_true h fun hendangers => ?_
    rw [Endangers, hrefused] at hendangers
    cases hendangers.1

/-- Where the deletions spare the moves, they still do behind a call
exactly if it endangers none. -/
theorem spares_apply_iff (h : w.Spares) (c : Call) :
    (w.apply d c).Spares ↔ ¬ w.Endangers d c := by
  have hothers := moves_apply (w := w) (d := d) (c := c)
  cases c with
  | delete path mode => exact spares_delete_iff h path mode
  | moveFile origin target => exact spares_moveFile_iff h origin target
  | moveDir origin target => exact spares_moveDir_iff h origin target
  | _ =>
      -- The other calls record no move and no deletion.
      obtain ⟨hmoves, -, hdeletions⟩ := hothers rfl rfl
      exact iff_of_true (h.mono (fun m hm => hmoves ▸ hm) hdeletions) id

/-- A new workspace has no deletions. -/
theorem spares_ofFilter (root : String) (settings : Settings) (filter : PathFilter) :
    (ofFilter root settings filter).Spares :=
  fun m hm => by cases hm

/-- The deletions spare the moves in all states of a run exactly if no
call endangers one. -/
theorem forall_prefix_spares_iff (h : w.Spares) (calls : List Call) :
    (∀ before, before <+: calls → (w.run d before).Spares) ↔
      ∀ before c, before ++ [c] <+: calls → ¬ (w.run d before).Endangers d c :=
  forall_prefix_iff (P := Spares) (fun _ hw c => spares_apply_iff hw c) h calls

end ScriptRefactor.Workspace
