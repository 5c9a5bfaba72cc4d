import ScriptRefactor.Proofs.Workspace.InsideKeys

/-!
# `ScriptRefactor.Proofs.Workspace.MoveClashes`: moves that get in the way of each other

The recorded file moves are a `PartialInjection` as long as no call
makes two of their places one. Two calls can do that (`Clashes`):

* a file is moved to the target of a recorded move. The view shows a
  file there, and refuses the move, unless the target is deleted
  (`mem_deletions_of_target`);
* a directory is moved to where a recorded move has a place that stays
  (`merges_iff`). If this is a target, then the directory is moved to
  a deleted key as well (`mem_deletions_of_merges`).

A text or a directory that is staged at a deleted key takes back its
deletion; a moved one does not. So the second move to a deleted key
still finds it free.

No other call breaks the moves, and none of these keeps them
(`partialInjection_apply_iff`).
-/

set_option autoImplicit false

namespace ScriptRefactor.Workspace

open ScriptRefactor.Path

/-- The call makes two places of the recorded moves one: it records a
move to the target of another one, or it carries places of the moves to
where others are. -/
def Clashes (w : Workspace) (d : Disk) : Call → Prop
  | .moveFile origin target =>
    (w.moveFile d origin target).toOption.isSome = true ∧
      (∃ m ∈ w.moves, m.2 = w.key target) ∧
      ((∃ m ∈ w.moves, m.2 = w.key origin ∧ m.1 ≠ w.key target) ∨
        ((∀ m ∈ w.moves, m.2 ≠ w.key origin) ∧ w.isReal d (w.key origin) = true))
  | .moveDir origin target =>
    (w.moveDir d origin target).toOption.isSome = true ∧
      ((∃ m ∈ w.moves, ∃ n ∈ w.moves, Merges (w.key origin) (w.key target) m.1 n.1) ∨
        (∃ m ∈ w.moves, ∃ n ∈ w.moves, Merges (w.key origin) (w.key target) m.2 n.2) ∨
        ∃ m ∈ w.moves, Merges (w.key origin) (w.key target) m.1 m.2)
  | _ => False

instance (w : Workspace) (d : Disk) (c : Call) : Decidable (w.Clashes d c) :=
  match c with
  | .moveFile .. => inferInstanceAs (Decidable (_ ∧ (∃ m ∈ w.moves, _) ∧
      ((∃ m ∈ w.moves, _) ∨ ((∀ m ∈ w.moves, _) ∧ _))))
  | .moveDir .. => inferInstanceAs (Decidable (_ ∧ ((∃ m ∈ w.moves, ∃ n ∈ w.moves, _) ∨
      (∃ m ∈ w.moves, ∃ n ∈ w.moves, _) ∨ ∃ m ∈ w.moves, _)))
  | .put .. | .save .. | .mkdir .. | .delete .. | .content .. | .invalidate .. =>
      inferInstanceAs (Decidable False)

variable {w : Workspace} {d : Disk} {moves : List (String × String)} {origin target : String}

/-! ### One call -/

/-- Behind an accepted file move, the moves still are a partial injection
unless the target already was one, and a move to it is recorded. -/
theorem partialInjection_movedMoves_iff (h : PartialInjection w.moves) (hne : origin ≠ target) :
    PartialInjection (w.movedMoves d origin target) ↔
      ¬ ((∃ m ∈ w.moves, m.2 = target) ∧
        ((∃ m ∈ w.moves, m.2 = origin ∧ m.1 ≠ target) ∨
          ((∀ m ∈ w.moves, m.2 ≠ origin) ∧ w.isReal d origin = true))) := by
  have hmem : ∀ n, n ∈ w.movedMoves d origin target ↔ _ := mem_movedMoves_iff h
  constructor
  · -- The move that was recorded now is not the one that led to the target before.
    rintro hinj ⟨⟨m, hm, rfl⟩, ⟨n, hn, rfl, hback⟩ | ⟨hnone, hreal⟩⟩
    · have hkept := (hmem m).mpr (.inl ⟨hm, hne.symm⟩)
      have hnew := (hmem (n.1, m.2)).mpr (.inr (.inl ⟨rfl, hback, hn⟩))
      have heq : m = (n.1, m.2) := hinj.eq_of_snd_eq hkept hnew rfl
      have hfst : m.1 = n.1 := (Prod.ext_iff.mp heq).1
      have hsame : m = n := h.eq_of_fst_eq hm hn hfst
      exact hne (congrArg Prod.snd hsame).symm
    · -- The new move leads to the target beside the other one.
      have hkept := (hmem m).mpr (.inl ⟨hm, hne.symm⟩)
      have hnew : (origin, m.2) ∈ w.movedMoves d origin m.2 :=
        mem_movedMoves_of_isReal hnone hreal
      have heq : m = (origin, m.2) := hinj.eq_of_snd_eq hkept hnew rfl
      exact ne_fst_of_isReal hreal m hm (congrArg Prod.fst heq)
  · intro hfree
    by_cases htarget : ∃ m ∈ w.moves, m.2 = target
    · -- Then no move is added: the move to the origin goes back, or there is nothing to record.
      rcases movedMoves_cases w d origin target with
        ⟨before, n, after, hmoves, horigin, hmoved⟩ | ⟨hnone, hmoved⟩
      · have hn : n ∈ w.moves := by rw [hmoves]; simp
        have hback : n.1 = target := by
          by_contra hback
          exact hfree ⟨htarget, .inl ⟨n, hn, horigin, hback⟩⟩
        rw [hmoves] at h
        rw [hmoved, if_pos hback]
        exact h.remove
      · have hreal : ¬ w.isReal d origin = true :=
          fun hreal => hfree ⟨htarget, .inr ⟨hnone, hreal⟩⟩
        rw [hmoved, if_neg hreal]
        exact h
    · exact h.movedMoves (fun m hm heq => htarget ⟨m, hm, heq⟩) hne

/-- Moves whose keys are changed still are a partial injection exactly if
none of their origins, none of their targets, and no two ends of one
become the same. -/
theorem partialInjection_map_iff (h : PartialInjection moves) (f : String → String) :
    PartialInjection (moves.map fun m => (f m.1, f m.2)) ↔
      (∀ m ∈ moves, ∀ n ∈ moves, f m.1 = f n.1 → m.1 = n.1) ∧
      (∀ m ∈ moves, ∀ n ∈ moves, f m.2 = f n.2 → m.2 = n.2) ∧ ∀ m ∈ moves, f m.1 ≠ f m.2 := by
  have hnodup : ∀ side : String × String → String, (moves.map side).Nodup →
      ((moves.map fun m => f (side m)).Nodup ↔
        ∀ m ∈ moves, ∀ n ∈ moves, f (side m) = f (side n) → side m = side n) := by
    intro side hside
    have hsplit : (moves.map fun m => f (side m)) = (moves.map side).map f := by simp
    rw [hsplit, List.nodup_map_iff_inj_on hside]
    simp only [List.forall_mem_map]
  rw [← hnodup Prod.fst h.origins, ← hnodup Prod.snd h.targets]
  constructor
  · intro hinj
    refine ⟨by simpa [Function.comp_def] using hinj.origins,
      by simpa [Function.comp_def] using hinj.targets, fun m hm => ?_⟩
    exact hinj.ne _ (List.mem_map_of_mem hm)
  · rintro ⟨horigins, htargets, hne⟩
    refine ⟨by simpa [Function.comp_def] using horigins,
      by simpa [Function.comp_def] using htargets, fun n hn => ?_⟩
    obtain ⟨m, hm, rfl⟩ := List.mem_map.mp hn
    exact hne m hm

/-- A file move keeps the moves apart, or clashes. -/
theorem partialInjection_moveFile_iff (h : PartialInjection w.moves) (origin target : String) :
    PartialInjection (w.apply d (.moveFile origin target)).moves ↔
      ¬ w.Clashes d (.moveFile origin target) := by
  rcases apply_moveFile_cases d w origin target with ⟨hok, happly⟩ | ⟨hrefused, happly⟩
  · obtain ⟨hexists, ⟨hfree, -⟩, -⟩ := moveFile_eq_ok hok
    have hne := ne_of_free hexists hfree
    rw [happly, Clashes, hok]
    simp only [Except.toOption, Option.isSome_some, true_and]
    exact partialInjection_movedMoves_iff h hne
  · rw [happly, Clashes, hrefused]
    simpa using h

/-- A directory move keeps the moves apart, or clashes. -/
theorem partialInjection_moveDir_iff (h : PartialInjection w.moves) (origin target : String) :
    PartialInjection (w.apply d (.moveDir origin target)).moves ↔
      ¬ w.Clashes d (.moveDir origin target) := by
  rcases apply_moveDir_cases d w origin target with ⟨hok, happly⟩ | ⟨hrefused, happly⟩
  · rw [happly, Clashes, hok]
    simp only [Except.toOption, Option.isSome_some, true_and, not_or, not_exists, not_and]
    refine (partialInjection_map_iff h _).trans ?_
    refine and_congr ?_ (and_congr ?_ ?_)
    · exact forall₄_congr fun m _ n _ => not_merges_iff.symm
    · exact forall₄_congr fun m _ n _ => not_merges_iff.symm
    · refine forall₂_congr fun m hm => ?_
      rw [Merges, not_and, imp_iff_right (h.ne m hm)]
  · rw [happly, Clashes, hrefused]
    simpa using h

/-- Where the moves are a partial injection, they still are one behind a
call exactly if it does not clash. -/
theorem partialInjection_apply_iff (h : PartialInjection w.moves) (c : Call) :
    PartialInjection (w.apply d c).moves ↔ ¬ w.Clashes d c := by
  have hothers := moves_apply (w := w) (d := d) (c := c)
  cases c with
  | moveFile origin target => exact partialInjection_moveFile_iff h origin target
  | moveDir origin target => exact partialInjection_moveDir_iff h origin target
  | delete path mode =>
      -- Some of the moves are dropped.
      obtain ⟨deletions, hdelete, -⟩ := w.delete_eq d path mode
      rw [apply, hdelete]
      exact iff_of_true (h.sublist List.filter_sublist) id
  | _ =>
      rw [(hothers rfl rfl).1]
      exact iff_of_true h id

/-! ### Where calls clash -/

/-- A free key to which a file was moved is deleted. -/
theorem mem_deletions_of_target {key : String} (hfree : w.fileExists d key = false)
    (htarget : ∃ m ∈ w.moves, m.2 = key) : key ∈ w.deletions.keys := by
  rw [← isMoveTarget_iff] at htarget
  rw [fileExists, htarget] at hfree
  by_contra hkept
  rw [← Table.contains_iff_mem_keys, Bool.not_eq_true] at hkept
  simp [hkept] at hfree

/-- A free key below which a file was moved is deleted. -/
theorem mem_deletions_of_target_below {key : String} (hne : key ≠ "")
    (hfree : w.dirExists d key = false)
    (htarget : ∃ m ∈ w.moves, m.2 ≠ key ∧ isUnder m.2 key = true) : key ∈ w.deletions.keys := by
  have hholds : (w.moves.any fun m => m.2 ≠ key && isUnder m.2 key) = true := by
    simpa using htarget
  by_contra hkept
  rw [← Table.contains_iff_mem_keys, Bool.not_eq_true] at hkept
  rw [dirExists, hkept, hholds] at hfree
  simp [hne] at hfree

/-- A directory that is moved to where a target stays is moved to a
deleted key. -/
theorem mem_deletions_of_merges (horigin : Inside origin) (htarget : Inside target)
    (hin : KeysInside w)
    (hfree : w.fileExists d target = false ∧ w.dirExists d target = false)
    (h : ∃ m ∈ w.moves, ∃ n ∈ w.moves, Merges origin target m.2 n.2) :
    target ∈ w.deletions.keys := by
  obtain ⟨m, hm, n, hn, hmerges⟩ := h
  -- The target that stays is under the target of the directory.
  have hstays : ∃ e ∈ w.moves, isUnder e.2 target = true := by
    have hmin := (hin.moves m hm).2
    have hnin := (hin.moves n hn).2
    obtain ⟨-, ⟨hunder, -, heq⟩ | ⟨hunder, -, heq⟩⟩ :=
      (merges_iff horigin htarget hmin hnin).mp hmerges
    · exact ⟨n, hn, heq ▸ isUnder_carried horigin htarget hmin hunder⟩
    · exact ⟨m, hm, heq ▸ isUnder_carried horigin htarget hnin hunder⟩
  obtain ⟨e, he, hunder⟩ := hstays
  by_cases heq : e.2 = target
  · exact mem_deletions_of_target hfree.1 ⟨e, he, heq⟩
  · exact mem_deletions_of_target_below htarget.ne_empty hfree.2 ⟨e, he, heq, hunder⟩

/-! ### Runs -/

/-- **The recorded moves are a partial injection exactly as long as no
call clashes.** In all states of a run the origins of the moves are
different, their targets are, and no move goes nowhere, if and only if
no call makes two places of the moves one.

A file move that clashes has a deleted target. On paths inside the
project, two places become one exactly if one of them is under the
moved directory, and is carried to where the other stays; and a
directory that brings two targets together is moved to a deleted
key. -/
theorem partialInjection_iff_no_clash (root : String) (settings : Settings) (filter : PathFilter)
    (d : Disk) (calls : List Call) :
    let new := ofFilter root settings filter
    ((∀ before, before <+: calls → PartialInjection (new.run d before).moves) ↔
      ∀ before c, before ++ [c] <+: calls → ¬ (new.run d before).Clashes d c) ∧
    (∀ before o t, before ++ [.moveFile o t] <+: calls →
      let w := new.run d before
      w.Clashes d (.moveFile o t) → w.key t ∈ w.deletions.keys) ∧
    ((∀ c ∈ calls, ∀ p ∈ c.paths, new.key p ≠ "" ∧ leaves (new.key p) = false) →
      ∀ before o t, before ++ [.moveDir o t] <+: calls →
        let w := new.run d before
        let origin := w.key o
        let target := w.key t
        (∀ a b, Inside a → Inside b → (Merges origin target a b ↔ a ≠ b ∧
          ((isUnder a origin = true ∧ isUnder b origin = false ∧ carried origin target a = b) ∨
            (isUnder b origin = true ∧ isUnder a origin = false ∧
              carried origin target b = a)))) ∧
        ((w.moveDir d o t).toOption.isSome = true →
          (∃ m ∈ w.moves, ∃ n ∈ w.moves, Merges origin target m.2 n.2) →
          target ∈ w.deletions.keys)) := by
  intro new
  have hnew : PartialInjection new.moves :=
    ⟨List.nodup_nil, List.nodup_nil, fun m hm => by cases hm⟩
  refine ⟨forall_prefix_iff (P := fun w => PartialInjection w.moves)
    (fun _ hw c => partialInjection_apply_iff hw c) hnew calls, ?_, ?_⟩
  · -- A target of a move that is free again was deleted.
    rintro before o t - w ⟨haccepted, htarget, -⟩
    rcases apply_moveFile_cases d w o t with ⟨hok, -⟩ | ⟨hrefused, -⟩
    · exact mem_deletions_of_target (moveFile_eq_ok hok).2.1.1 htarget
    · rw [hrefused] at haccepted
      cases haccepted
  · intro hpaths before o t hpre w origin target
    -- Keys depend on the root only, so they are those of the new workspace.
    have hsub : ∀ c ∈ before ++ [.moveDir o t], ∀ p ∈ c.paths, Inside (new.key p) :=
      fun c hc p hp => inside_key (hpaths c (hpre.subset hc) p hp).1
        (hpaths c (hpre.subset hc) p hp).2
    have hkey : w.key = new.key := key_congr (root_run d new before)
    have horigin : Inside origin := by
      show Inside (w.key o)
      rw [hkey]
      exact hsub (.moveDir o t) (by simp) o (by simp [Call.paths])
    have htarget : Inside target := by
      show Inside (w.key t)
      rw [hkey]
      exact hsub (.moveDir o t) (by simp) t (by simp [Call.paths])
    have hin : KeysInside w := keysInside_run (keysInside_ofFilter root settings filter)
      fun c hc => hsub c (by simp [hc])
    refine ⟨fun a b ha hb => merges_iff horigin htarget ha hb, fun haccepted hmerges => ?_⟩
    rcases apply_moveDir_cases d w o t with ⟨hok, -⟩ | ⟨hrefused, -⟩
    · exact mem_deletions_of_merges horigin htarget hin (moveDir_eq_ok hok).2.1 hmerges
    · rw [hrefused] at haccepted
      cases haccepted

/-- A project with three files, one of them in a directory. -/
def threeFiles : Disk :=
  ⟨[(["root"], .dir), (["root", "s"], .dir),
    (["root", "a"], .file (Disk.bytesOf "A\n")), (["root", "b"], .file (Disk.bytesOf "B\n")),
    (["root", "s", "k"], .file (Disk.bytesOf "K\n"))]⟩

/-- Files are moved on, and back to where something was deleted. -/
def keptApart : List Call :=
  [.delete "s/k" .warn, .moveFile "a" "s/k", .mkdir "n", .moveDir "s" "t", .moveFile "b" "a",
    .delete "a" .quiet, .moveDir "n" "s"]

/-- No call of them clashes, so the moves are kept apart. What is moved
along with the directory is apart from what stays. -/
theorem partialInjection_iff_no_clash_keptApart :
    let w := (ofFilter "/root" Settings.default PathFilter.showAll).run threeFiles keptApart
    w.moves = [("a", "t/k")] ∧ PartialInjection w.moves ∧ ¬ Merges "s" "t" "s/k" "a" := by
  obtain ⟨hruns, -, hdirs⟩ := partialInjection_iff_no_clash "/root" Settings.default
    PathFilter.showAll threeFiles keptApart
  have hcalls := (forall_concat_prefix_iff keptApart (P := fun before c =>
    ¬ ((ofFilter "/root" Settings.default PathFilter.showAll).run threeFiles before).Clashes
      threeFiles c)).mpr (by decide +kernel)
  have hmerges := (hdirs (by decide +kernel) [.delete "s/k" .warn, .moveFile "a" "s/k", .mkdir "n"]
    "s" "t" ⟨_, rfl⟩).1 "s/k" "a" ⟨["s".toList, "k".toList], by decide, by decide, by decide⟩
    ⟨["a".toList], by decide, by decide, by decide⟩
  exact ⟨by decide +kernel, hruns.mpr hcalls keptApart List.prefix_rfl,
    fun h => absurd (hmerges.mp h) (by decide +kernel)⟩

/-- Two files are moved to one deleted key. -/
def toDeleted : List Call := [.delete "s/k" .warn, .moveFile "a" "s/k", .moveFile "b" "s/k"]

/-- Both moves are recorded, and the flush puts the second file in the
place of the first one. -/
theorem flush_toDeleted_loses_file :
    let w := (ofFilter "/root" Settings.default PathFilter.showAll).run threeFiles toDeleted
    let after := (w.flush threeFiles).disk
    (w.moves = [("a", "s/k"), ("b", "s/k")] ∧ w.deletions.keys = ["s/k"] ∧
      ¬ PartialInjection w.moves) ∧
      (w.flush threeFiles).report?.isSome = true ∧ after.isFile (w.place "a") = false ∧
      after.bytes? (w.place "s/k") = some (Disk.bytesOf "B\n") := by
  intro w after
  have hmoves : w.moves = [("a", "s/k"), ("b", "s/k")] := by decide +kernel
  refine ⟨⟨hmoves, by decide +kernel, fun hinj => ?_⟩, by decide +kernel⟩
  have htargets := hinj.targets
  rw [hmoves] at htargets
  exact absurd htargets (by decide)

end ScriptRefactor.Workspace
