import ScriptRefactor.Proofs.Table
import ScriptRefactor.Proofs.Workspace.MoveOrder
import ScriptRefactor.Proofs.Workspace.Run

/-!
# `ScriptRefactor.Proofs.Workspace.RecordedMoves`: how a file move is recorded

A move that goes on from the target of an earlier move is one with it
(`continueMove_eq_some`). So the recorded moves behind an accepted file
move are known member by member (`mem_movedMoves_iff`), and they stay
a `PartialInjection` (`PartialInjection.movedMoves`). The file at the
target is the one that was at the origin (`originOf_movedMoves_target`),
and the other files are where they were (`originOf_movedMoves_of_ne`).
-/

set_option autoImplicit false

namespace ScriptRefactor.Workspace

variable {moves moves' : List (String × String)} {origin target : String}

/-! ### Moves that go on -/

/-- Nothing goes on from a key to which nothing was moved. -/
theorem continueMove_eq_none_iff :
    continueMove moves origin target = none ↔ ∀ m ∈ moves, m.2 ≠ origin := by
  induction moves with
  | nil => simp [continueMove]
  | cons m moves ih =>
      rw [continueMove, List.forall_mem_cons]
      split
      · rename_i h
        simp [h]
      · rename_i h
        simp [h, ih]

/-- The first move to the key goes on in its place, or goes away when
it goes back. -/
theorem continueMove_eq_some (h : continueMove moves origin target = some moves') :
    ∃ before m after, moves = before ++ m :: after ∧ m.2 = origin ∧
      moves' = before ++ (if m.1 = target then after else (m.1, target) :: after) := by
  induction moves generalizing moves' with
  | nil => cases h
  | cons m moves ih =>
      rw [continueMove] at h
      split at h
      · rename_i hm
        refine ⟨[], m, moves, rfl, hm, ?_⟩
        exact (Option.some.inj h).symm
      · obtain ⟨rest, hrest, rfl⟩ := Option.map_eq_some_iff.mp h
        obtain ⟨before, n, after, rfl, hn, rfl⟩ := ih hrest
        exact ⟨m :: before, n, after, rfl, hn, rfl⟩

/-- A move behind one that went on was there before, or leads to its
target from the origin of an earlier one. -/
theorem mem_of_continueMove {n : String × String}
    (h : continueMove moves origin target = some moves') (hn : n ∈ moves') :
    n ∈ moves ∨ (n.2 = target ∧ ∃ m ∈ moves, m.1 = n.1) := by
  obtain ⟨before, m, after, rfl, -, rfl⟩ := continueMove_eq_some h
  rcases List.mem_append.mp hn with hn | hn
  · exact .inl (by simp [hn])
  · split at hn
    · exact .inl (by simp [hn])
    · rcases List.mem_cons.mp hn with rfl | hn
      · exact .inr ⟨rfl, m, by simp, rfl⟩
      · exact .inl (by simp [hn])

/-! ### One more file move -/

variable {w : Workspace} {d : Disk}

/-- A key is the target of a move in the list. -/
theorem isMoveTarget_iff (key : String) :
    w.isMoveTarget key = true ↔ ∃ m ∈ w.moves, m.2 = key := by
  simp [isMoveTarget]

/-- A key from which nothing is moved. -/
theorem isMoveOrigin_eq_false_iff (key : String) :
    w.isMoveOrigin key = false ↔ ∀ m ∈ w.moves, m.1 ≠ key := by
  rw [isMoveOrigin, List.any_eq_false]
  simp only [decide_eq_true_eq]

/-- A key to which nothing is moved. -/
theorem isMoveTarget_eq_false_iff (key : String) :
    w.isMoveTarget key = false ↔ ∀ m ∈ w.moves, m.2 ≠ key := by
  rw [isMoveTarget, List.any_eq_false]
  simp only [decide_eq_true_eq]

/-- The recorded moves behind a file move: the move to its origin goes
on, and without one the move is recorded if there is a file on
disk. -/
theorem movedMoves_cases (w : Workspace) (d : Disk) (origin target : String) :
    (∃ before m after, w.moves = before ++ m :: after ∧ m.2 = origin ∧
      w.movedMoves d origin target =
        before ++ (if m.1 = target then after else (m.1, target) :: after)) ∨
    ((∀ m ∈ w.moves, m.2 ≠ origin) ∧ w.movedMoves d origin target =
      if w.isReal d origin then w.moves ++ [(origin, target)] else w.moves) := by
  unfold movedMoves
  cases hcontinue : continueMove w.moves origin target with
  | none => exact .inr ⟨continueMove_eq_none_iff.mp hcontinue, rfl⟩
  | some moves => exact .inl (continueMove_eq_some hcontinue)

/-- A move behind a file move was there before, or leads to its target:
from where a file had come to its origin, or from the origin. -/
theorem mem_movedMoves {n : String × String} (hn : n ∈ w.movedMoves d origin target) :
    n ∈ w.moves ∨ (n.2 = target ∧ ((∃ m ∈ w.moves, m.1 = n.1) ∨
      (n.1 = origin ∧ (∀ m ∈ w.moves, m.2 ≠ origin) ∧ w.isReal d origin = true))) := by
  unfold movedMoves at hn
  split at hn
  · rename_i moves hcontinue
    exact (mem_of_continueMove hcontinue hn).imp_right fun h => ⟨h.1, .inl h.2⟩
  · rename_i hnone
    split at hn
    · rename_i hreal
      rcases List.mem_append.mp hn with hn | hn
      · exact .inl hn
      · rw [List.mem_singleton.mp hn]
        exact .inr ⟨rfl, .inr ⟨rfl, continueMove_eq_none_iff.mp hnone, hreal⟩⟩
    · exact .inl hn

/-- A directory move behind another one was there before, or leads to
its target: from where a directory had come to its origin, or from the
origin. -/
theorem mem_movedDirMoves {n : String × String} (hn : n ∈ w.movedDirMoves origin target) :
    n ∈ w.dirMoves ∨ (n.2 = target ∧ ((∃ m ∈ w.dirMoves, m.1 = n.1) ∨ n.1 = origin)) := by
  unfold movedDirMoves at hn
  split at hn
  · rename_i moves hcontinue
    exact (mem_of_continueMove hcontinue hn).imp_right fun h => ⟨h.1, .inl h.2⟩
  · rcases List.mem_append.mp hn with hn | hn
    · exact .inl hn
    · rw [List.mem_singleton.mp hn]
      exact .inr ⟨rfl, .inr rfl⟩

/-- A file that is on disk and was not moved yet has its move
recorded. -/
theorem mem_movedMoves_of_isReal (hnone : ∀ m ∈ w.moves, m.2 ≠ origin)
    (hreal : w.isReal d origin = true) : (origin, target) ∈ w.movedMoves d origin target := by
  unfold movedMoves
  rw [continueMove_eq_none_iff.mpr hnone, hreal]
  simp

/-- A recorded file is no origin of a move yet. -/
theorem ne_fst_of_isReal (h : w.isReal d origin = true) : ∀ m ∈ w.moves, m.1 ≠ origin := by
  rw [isReal, Bool.and_eq_true, Bool.not_eq_true'] at h
  exact (isMoveOrigin_eq_false_iff origin).mp h.1

/-- The recorded moves, one by one: those that do not lead to the
origin, the one that led there and goes on, and the move itself. -/
theorem mem_movedMoves_iff (hinj : PartialInjection w.moves) (n : String × String) :
    n ∈ w.movedMoves d origin target ↔
      (n ∈ w.moves ∧ n.2 ≠ origin) ∨
      (n.2 = target ∧ n.1 ≠ target ∧ (n.1, origin) ∈ w.moves) ∨
      (n = (origin, target) ∧ (∀ m ∈ w.moves, m.2 ≠ origin) ∧ w.isReal d origin = true) := by
  rcases movedMoves_cases w d origin target with
    ⟨before, m, after, hmoves, rfl, hmoved⟩ | ⟨hnone, hmoved⟩
  · -- The move `m` goes on, or back to where its file is on disk.
    have hm : m ∈ w.moves := by rw [hmoves]; simp
    have hothers : n ∈ w.moves ∧ n.2 ≠ m.2 ↔ n ∈ before ++ after := by
      rw [hmoves] at hinj ⊢
      exact hinj.mem_others_iff n
    have hlast : ¬ ∀ n ∈ w.moves, n.2 ≠ m.2 := fun h => h m hm rfl
    rw [hmoved, hothers, hinj.mk_snd_mem_iff hm]
    simp only [hlast, false_and, and_false, or_false]
    by_cases hback : m.1 = target
    · rw [if_pos hback]
      constructor
      · exact .inl
      · rintro (hn | ⟨-, hne, heq⟩)
        · exact hn
        · exact absurd (heq.trans hback) hne
    · have hmove : n = (m.1, target) ↔ n.2 = target ∧ n.1 ≠ target ∧ n.1 = m.1 := by
        rw [Prod.ext_iff]
        constructor
        · exact fun h => ⟨h.2, h.1 ▸ hback, h.1⟩
        · exact fun h => ⟨h.2.2, h.1⟩
      rw [if_neg hback, ← hmove, List.mem_append, List.mem_cons, List.mem_append]
      tauto
  · -- No move goes on, so at most a new one is recorded.
    have hgoes : (n.1, origin) ∉ w.moves := fun hn => hnone _ hn rfl
    have hothers : n ∈ w.moves ∧ n.2 ≠ origin ↔ n ∈ w.moves :=
      and_iff_left_of_imp fun hn => hnone n hn
    rw [hmoved, hothers]
    by_cases hreal : w.isReal d origin = true
    · rw [if_pos hreal, List.mem_append, List.mem_singleton]
      tauto
    · rw [if_neg hreal]
      tauto

/-- The recorded moves stay a partial injection when a file move to a
key where nothing was moved is added. -/
theorem PartialInjection.movedMoves (hinj : PartialInjection w.moves)
    (htarget : ∀ m ∈ w.moves, m.2 ≠ target) (hne : origin ≠ target) :
    PartialInjection (w.movedMoves d origin target) := by
  rcases movedMoves_cases w d origin target with
    ⟨before, m, after, hmoves, -, hmoved⟩ | ⟨-, hmoved⟩
  · -- The move that goes on keeps its place among the others.
    rw [hmoved]
    rw [hmoves] at hinj htarget
    by_cases hback : m.1 = target
    · rw [if_pos hback]
      exact hinj.remove
    · rw [if_neg hback]
      exact hinj.retarget htarget hback
  · rw [hmoved]
    by_cases hreal : w.isReal d origin = true
    · rw [if_pos hreal]
      exact hinj.snoc (ne_fst_of_isReal hreal) htarget hne
    · rw [if_neg hreal]
      exact hinj

/-! ### Where files come from -/

/-- A file was moved to the key, or its own file was not moved away. -/
def HoldsFile (moves : List (String × String)) (key : String) : Prop :=
  (∃ m ∈ moves, m.2 = key) ∨ ∀ m ∈ moves, m.1 ≠ key

/-- Where no directory was moved, a key stands on disk where its file came
from. -/
theorem diskKey?_eq_originOf (h : w.dirMoves = []) (key : String) :
    w.diskKey? key = some (originOf w.moves key) := by
  rw [diskKey?, h]
  rfl

/-- Where no directory was moved, what is on disk for a key is what stands
where its file came from. -/
theorem onDisk_eq_originOf (h : w.dirMoves = []) (key : String) (p : Place → Bool) :
    w.onDisk key p = p (w.place (originOf w.moves key)) := by
  rw [onDisk, diskKey?_eq_originOf h]

/-- Where no directory was moved, and no file to the key, its own file has
to be carried away if it is on disk and was not moved yet. -/
theorem isReal_iff (h : w.dirMoves = []) {key : String} (hnone : ∀ m ∈ w.moves, m.2 ≠ key) :
    w.isReal d key = true ↔ (∀ m ∈ w.moves, m.1 ≠ key) ∧ d.isFile (w.place key) = true := by
  rw [isReal, onDisk_eq_originOf h, originOf_eq_self hnone, Bool.and_eq_true, Bool.not_eq_true',
    isMoveOrigin_eq_false_iff]

/-- The file at the target of an accepted move is the one that was at its
origin. -/
theorem originOf_movedMoves_target (hinj : PartialInjection w.moves) (hne : origin ≠ target)
    (htarget : ∀ m ∈ w.moves, m.2 ≠ target)
    (hreal : (∀ m ∈ w.moves, m.2 ≠ origin) → w.isReal d origin = true) :
    HoldsFile (w.movedMoves d origin target) target ∧
      originOf (w.movedMoves d origin target) target = originOf w.moves origin := by
  have hinj' := hinj.movedMoves (d := d) htarget hne
  have hmem : ∀ n, n ∈ w.movedMoves d origin target ↔ _ := mem_movedMoves_iff hinj
  by_cases hchain : ∃ m ∈ w.moves, m.2 = origin
  · obtain ⟨m, hm, rfl⟩ := hchain
    rw [originOf_eq_fst hinj hm]
    by_cases hback : m.1 = target
    · -- The file is back where it stands on disk, and its move is gone.
      have hgone : ∀ n : String × String, n.1 ≠ target → (n.1, m.2) ∉ w.moves := by
        intro n hfst hn
        exact hfst (((hinj.mk_snd_mem_iff hm n.1).mp hn).trans hback)
      have hsnd : ∀ n ∈ w.movedMoves d m.2 target, n.2 ≠ target := by
        intro n hn heq
        rcases (hmem n).mp hn with ⟨hn, -⟩ | ⟨-, hfst, hn⟩ | ⟨-, hnone, -⟩
        · exact htarget n hn heq
        · exact hgone n hfst hn
        · exact hnone m hm rfl
      have hfst : ∀ n ∈ w.movedMoves d m.2 target, n.1 ≠ target := by
        intro n hn heq
        rcases (hmem n).mp hn with ⟨hn, hother⟩ | ⟨-, hfst, -⟩ | ⟨-, hnone, -⟩
        · exact hother (congrArg Prod.snd (hinj.eq_of_fst_eq hn hm (heq.trans hback.symm)))
        · exact hfst heq
        · exact hnone m hm rfl
      exact ⟨.inr hfst, (originOf_eq_self hsnd).trans hback.symm⟩
    · have hmoved := (hmem (m.1, target)).mpr (.inr (.inl ⟨rfl, hback, hm⟩))
      exact ⟨.inl ⟨_, hmoved, rfl⟩, originOf_eq_fst hinj' hmoved⟩
  · -- The file stands at the origin on disk, so that a move from there is recorded.
    have hnone : ∀ m ∈ w.moves, m.2 ≠ origin := fun m hm heq => hchain ⟨m, hm, heq⟩
    have hmoved : (origin, target) ∈ w.movedMoves d origin target :=
      mem_movedMoves_of_isReal hnone (hreal hnone)
    exact ⟨.inl ⟨_, hmoved, rfl⟩,
      (originOf_eq_fst hinj' hmoved).trans (originOf_eq_self hnone).symm⟩

/-- The other files are where they were before an accepted move. -/
theorem originOf_movedMoves_of_ne (hinj : PartialInjection w.moves) (hne : origin ≠ target)
    (htarget : ∀ m ∈ w.moves, m.2 ≠ target) {key : String} (hholds : HoldsFile w.moves key)
    (horigin : key ≠ origin) (hkey : key ≠ target) :
    HoldsFile (w.movedMoves d origin target) key ∧
      originOf (w.movedMoves d origin target) key = originOf w.moves key := by
  have hinj' := hinj.movedMoves (d := d) htarget hne
  have hmem : ∀ n, n ∈ w.movedMoves d origin target ↔ _ := mem_movedMoves_iff hinj
  by_cases hmoved : ∃ m ∈ w.moves, m.2 = key
  · obtain ⟨m, hm, rfl⟩ := hmoved
    have hm' := (hmem m).mpr (.inl ⟨hm, horigin⟩)
    exact ⟨.inl ⟨m, hm', rfl⟩, (originOf_eq_fst hinj' hm').trans (originOf_eq_fst hinj hm).symm⟩
  · -- No move to the key or from it was recorded, and none is now.
    have hnone : ∀ m ∈ w.moves, m.2 ≠ key := fun m hm heq => hmoved ⟨m, hm, heq⟩
    have hstays := hholds.resolve_left hmoved
    have hsnd : ∀ n ∈ w.movedMoves d origin target, n.2 ≠ key := by
      intro n hn heq
      rcases (hmem n).mp hn with ⟨hn, -⟩ | ⟨hsnd, -⟩ | ⟨rfl, -⟩
      · exact hnone n hn heq
      · exact hkey (heq.symm.trans hsnd)
      · exact hkey heq.symm
    have hfst : ∀ n ∈ w.movedMoves d origin target, n.1 ≠ key := by
      intro n hn heq
      rcases (hmem n).mp hn with ⟨hn, -⟩ | ⟨-, -, hn⟩ | ⟨rfl, -⟩
      · exact hstays n hn heq
      · exact hstays (n.1, origin) hn heq
      · exact horigin heq.symm
    exact ⟨.inr hfst, (originOf_eq_self hsnd).trans (originOf_eq_self hnone).symm⟩

/-! ### What goes along -/

/-- The texts behind an accepted file move: that of the origin has gone
to the target. -/
theorem find?_texts_withMove (d : Disk) (origin : String) (hfree : w.texts.find? target = none)
    (k : String) :
    (w.withMove d origin target).texts.find? k =
      if k = target then w.texts.find? origin
      else if k = origin then none else w.texts.find? k := by
  show (w.movedTexts origin target).find? k = _
  unfold movedTexts
  split
  · rename_i text htext
    rw [Table.find?_insert, Table.find?_erase, htext]
  · rename_i hnone
    -- There is no text to carry, at the origin as at the target.
    by_cases hk : k = target
    · rw [if_pos hk, hk, hfree, hnone]
    · rw [if_neg hk]
      by_cases hko : k = origin
      · rw [if_pos hko, hko, hnone]
      · rw [if_neg hko]

/-- The keys to be written behind an accepted file move. -/
theorem mem_saves_withMove (d : Disk) (hne : origin ≠ target) (hfree : target ∉ w.saves.toList)
    (k : String) :
    k ∈ (w.withMove d origin target).saves.toList ↔
      if k = target then origin ∈ w.saves.toList else k ≠ origin ∧ k ∈ w.saves.toList := by
  show k ∈ (w.movedSaves origin target).toList ↔ _
  unfold movedSaves
  by_cases hsaved : origin ∈ w.saves.toList
  · rw [if_pos ((KeySet.contains_iff _ _).mpr hsaved), KeySet.mem_insert, KeySet.mem_erase]
    by_cases hk : k = target
    · simp [hk, hsaved]
    · simp [hk, and_comm]
  · -- Nothing changes, and neither the origin nor the target is to be written.
    rw [if_neg fun hc => hsaved ((KeySet.contains_iff _ _).mp hc)]
    by_cases hk : k = target
    · simp [hk, hsaved, hfree]
    · rw [if_neg hk]
      refine ⟨fun hmem => ⟨?_, hmem⟩, fun hmem => hmem.2⟩
      rintro rfl
      exact hsaved hmem

end ScriptRefactor.Workspace
