import ScriptRefactor.Proofs.Workspace.DirMoveView
import ScriptRefactor.Proofs.Workspace.DiskReads
import ScriptRefactor.Proofs.Workspace.OwnFiles

/-!
# `ScriptRefactor.Proofs.Workspace.FileMoveView`: the view behind a file move

An accepted file move takes the file of its origin to its target and leaves
all others as they are (`moveFile_translates_iff`), except in two ways:

* a file stays behind at the origin if that was moved there over another one
  (`LeavesFile`): the view showed the one on top, which goes;
* the file does not show at the target if that is deleted, or if it goes back
  to where it is on disk and is hidden there (`Lands`). A move does not take a
  deletion back, as staging a text or a directory does.

Neither comes up in a run that deletes nothing and moves no directory.
-/

set_option autoImplicit false

namespace ScriptRefactor.Workspace

open ScriptRefactor.Path

variable {w : Workspace} {d : Disk} {o t key : String} {m : String × String}

/-! ### The move that goes on, and the others -/

/-- The file moves but for the first one to a key. -/
def otherMoves (w : Workspace) (key : String) : List (String × String) :=
  w.moves.eraseP (·.2 = key)

/-- The first move to a key goes on to the target, unless it goes back, and
the others stay. -/
theorem mem_continueMove_iff {moves : List (String × String)}
    (h : moves.find? (fun m => m.2 = o) = some m) :
    ∃ moves', continueMove moves o t = some moves' ∧ ∀ n, n ∈ moves' ↔
      n ∈ moves.eraseP (·.2 = o) ∨ (n = (m.1, t) ∧ m.1 ≠ t) := by
  induction moves with
  | nil => cases h
  | cons k moves ih =>
      by_cases hk : k.2 = o
      · rw [List.find?_cons_of_pos (by simpa using hk)] at h
        obtain rfl := Option.some.inj h
        rw [continueMove, if_pos hk, List.eraseP_cons_of_pos (by simpa using hk)]
        refine ⟨_, rfl, fun n => ?_⟩
        by_cases hback : k.1 = t
        · simp [hback]
        · rw [if_neg hback, List.mem_cons]
          tauto
      · rw [List.find?_cons_of_neg (by simpa using hk)] at h
        obtain ⟨moves', hcontinue, hmem⟩ := ih h
        rw [continueMove, if_neg hk, hcontinue, List.eraseP_cons_of_neg (by simpa using hk)]
        refine ⟨k :: moves', rfl, fun n => ?_⟩
        rw [List.mem_cons, hmem, List.mem_cons, or_assoc]

/-- Moves are the first one to a key and the others. -/
theorem mem_iff_of_find? {moves : List (String × String)}
    (h : moves.find? (fun m => m.2 = key) = some m) (n : String × String) :
    n ∈ moves ↔ n ∈ moves.eraseP (·.2 = key) ∨ n = m := by
  induction moves with
  | nil => cases h
  | cons k moves ih =>
      by_cases hk : k.2 = key
      · rw [List.find?_cons_of_pos (by simpa using hk)] at h
        obtain rfl := Option.some.inj h
        rw [List.eraseP_cons_of_pos (by simpa using hk), List.mem_cons, or_comm]
      · rw [List.find?_cons_of_neg (by simpa using hk)] at h
        rw [List.eraseP_cons_of_neg (by simpa using hk), List.mem_cons, ih h, List.mem_cons,
          or_assoc]

/-- A key is the target of no move, or there is a first move to it. -/
theorem find?_target_cases (moves : List (String × String)) (key : String) :
    (moves.find? (fun m => m.2 = key) = none ∧ ∀ m ∈ moves, m.2 ≠ key) ∨
      ∃ m ∈ moves, moves.find? (fun m => m.2 = key) = some m ∧ m.2 = key := by
  cases hfind : moves.find? (fun m => m.2 = key) with
  | none => exact .inl ⟨rfl, by simpa using List.find?_eq_none.mp hfind⟩
  | some m =>
      exact .inr ⟨m, List.mem_of_find?_eq_some hfind, rfl, by simpa using List.find?_some hfind⟩

/-- The moves behind a file move whose origin is the target of another. -/
theorem mem_moves_withMove_iff (h : w.moves.find? (fun m => m.2 = o) = some m)
    (n : String × String) :
    n ∈ (w.withMove d o t).moves ↔ n ∈ w.otherMoves o ∨ (n = (m.1, t) ∧ m.1 ≠ t) := by
  obtain ⟨moves', hcontinue, hmem⟩ := mem_continueMove_iff (t := t) h
  show n ∈ w.movedMoves d o t ↔ _
  rw [movedMoves, hcontinue]
  exact hmem n

/-- The moves behind a file move whose origin is the target of none. -/
theorem mem_moves_withMove_iff_of_none (h : ∀ m ∈ w.moves, m.2 ≠ o) (n : String × String) :
    n ∈ (w.withMove d o t).moves ↔ n ∈ w.moves ∨ (n = (o, t) ∧ w.isReal d o = true) := by
  show n ∈ w.movedMoves d o t ↔ _
  rw [movedMoves, continueMove_eq_none_iff.mpr h]
  by_cases hreal : w.isReal d o = true
  · simp [hreal]
  · simp [hreal]

/-- A file whose key is the target of no move is staged, or has to be carried
away. -/
theorem isReal_of_fileExists (hexists : w.fileExists d o = true) (hnone : ∀ m ∈ w.moves, m.2 ≠ o)
    (htext : o ∉ w.texts.keys) : w.isReal d o = true := by
  obtain ⟨-, hstaged | ⟨-, horigin, howns⟩⟩ := fileExists_iff_owns.mp hexists
  · obtain htexts | ⟨m, hm, heq⟩ := mem_stagedFiles_iff.mp hstaged
    · exact absurd htexts htext
    · exact absurd heq (hnone m hm)
  · rw [isReal, horigin, onDisk_eq_owns hnone, howns]
    rfl

/-! ### The origin -/

/-- A file is left at the key when the one that was moved there goes: another
one that was moved there too, or the own one of the key, which was neither
deleted nor moved away. -/
def LeavesFile (w : Workspace) (d : Disk) (key : String) : Prop :=
  w.isMoveTarget key = true ∧ ((∃ m ∈ w.otherMoves key, m.2 = key) ∨
    (w.isBelowDeletion key = false ∧ w.isMoveOrigin key = false ∧ w.owns key d.isFile = true))

instance (w : Workspace) (d : Disk) (key : String) : Decidable (w.LeavesFile d key) :=
  inferInstanceAs (Decidable (_ ∧ _))

/-- The text of a moved file leaves its origin. -/
theorem not_mem_texts_withMove (hne : o ≠ t) : o ∉ (w.withMove d o t).texts.keys := by
  rw [← Table.find?_eq_none_iff]
  show (w.movedTexts o t).find? o = none
  unfold movedTexts
  split
  · rw [Table.find?_insert_of_ne _ hne, Table.find?_erase, if_pos rfl]
  · assumption

/-- A file move leaves a file at its origin exactly if one is below that which
goes. -/
theorem fileExists_withMove_origin_iff (hexists : w.fileExists d o = true) (hne : o ≠ t) :
    (w.withMove d o t).fileExists d o = true ↔ w.LeavesFile d o := by
  have hkept : o ∉ (w.withMove d o t).deletions.keys := (fileExists_iff_owns.mp hexists).1
  rw [fileExists_iff_owns, and_iff_right hkept, mem_stagedFiles_iff,
    or_iff_right (not_mem_texts_withMove hne), LeavesFile, isMoveTarget_iff,
    isMoveOrigin_eq_false_iff, isMoveOrigin_eq_false_iff]
  rcases find?_target_cases w.moves o with ⟨-, hnone⟩ | ⟨m, hm, hfind, hmo⟩
  · -- The own file goes, or there is none.
    simp only [mem_moves_withMove_iff_of_none hnone]
    have hleft : ¬ ∃ m ∈ w.moves, m.2 = o := fun ⟨m, hm, heq⟩ => hnone m hm heq
    refine iff_of_false ?_ fun h => hleft h.1
    rintro (⟨n, hn | ⟨rfl, -⟩, heq⟩ | ⟨-, horigin, howns⟩)
    · exact hnone n hn heq
    · exact hne heq.symm
    · have hreal : w.isReal d o = true := by
        rw [isReal, onDisk_eq_owns hnone, Bool.and_eq_true, Bool.not_eq_true',
          isMoveOrigin_eq_false_iff]
        exact ⟨fun n hn => horigin n (.inl hn), howns⟩
      exact horigin (o, t) (.inr ⟨rfl, hreal⟩) rfl
  · have htarget : ∃ n ∈ w.moves, n.2 = o := ⟨m, hm, hmo⟩
    rw [and_iff_right htarget]
    simp only [mem_moves_withMove_iff hfind, mem_iff_of_find? hfind]
    refine or_congr ?_ (and_congr_right fun _ => and_congr_left fun _ => ?_)
    · constructor
      · rintro ⟨n, hn | ⟨rfl, -⟩, heq⟩
        · exact ⟨n, hn, heq⟩
        · exact absurd heq.symm hne
      · rintro ⟨n, hn, heq⟩
        exact ⟨n, .inl hn, heq⟩
    · -- The move that goes on keeps its origin. If it goes back its origin is the target.
      constructor
      · rintro hothers n (hn | rfl) heq
        · exact hothers n (.inl hn) heq
        · exact hothers (n.1, t) (.inr ⟨rfl, heq ▸ hne⟩) heq
      · rintro hall n (hn | ⟨rfl, -⟩) heq
        · exact hall n (.inl hn) heq
        · exact hall m (.inr rfl) heq

/-! ### The target -/

/-- The file that is moved shows at the target: that is not deleted, and if
the file goes back there without a text, it is the own one of the target,
which nothing hides. -/
structure Lands (w : Workspace) (d : Disk) (o t : String) : Prop where
  /-- The target is not deleted. -/
  kept : t ∉ w.deletions.keys
  /-- A file that goes back shows again. -/
  back : w.moves.find? (fun m => m.2 = o) = some (t, o) → o ∈ w.texts.keys ∨
    (w.isBelowDeletion t = false ∧ (∀ m ∈ w.otherMoves o, m.1 ≠ t) ∧ w.owns t d.isFile = true)

instance (w : Workspace) (d : Disk) (o t : String) : Decidable (w.Lands d o t) :=
  decidable_of_iff (t ∉ w.deletions.keys ∧ (w.moves.find? (fun m => m.2 = o) = some (t, o) →
      o ∈ w.texts.keys ∨ (w.isBelowDeletion t = false ∧ (∀ m ∈ w.otherMoves o, m.1 ≠ t)
        ∧ w.owns t d.isFile = true)))
    ⟨fun ⟨h1, h2⟩ => ⟨h1, h2⟩, fun h => ⟨h.kept, h.back⟩⟩

/-- A free key that is not deleted has no text, and is the target of no
move. -/
theorem not_staged_of_free (hfree : w.fileExists d t = false) (hkept : t ∉ w.deletions.keys) :
    t ∉ w.texts.keys ∧ ∀ m ∈ w.moves, m.2 ≠ t := by
  have hstaged : t ∉ w.stagedFiles := by
    intro hmem
    rw [fileExists_iff_owns.mpr ⟨hkept, .inl hmem⟩] at hfree
    cases hfree
  exact ⟨fun htext => hstaged (mem_stagedFiles_iff.mpr (.inl htext)),
    not_target_of_not_staged hstaged⟩

/-- A text goes along with the file. -/
theorem mem_texts_withMove_target (hfree : t ∉ w.texts.keys) :
    t ∈ (w.withMove d o t).texts.keys ↔ o ∈ w.texts.keys := by
  rw [Table.mem_keys_iff_find?, Table.mem_keys_iff_find?,
    find?_texts_withMove d o ((Table.find?_eq_none_iff _ _).mpr hfree), if_pos rfl]

/-- A file shows at the target of a file move exactly if it lands there. -/
theorem fileExists_withMove_target_iff (hexists : w.fileExists d o = true)
    (hfree : w.fileExists d t = false) :
    (w.withMove d o t).fileExists d t = true ↔ w.Lands d o t := by
  rw [fileExists_iff_owns]
  by_cases hkept : t ∈ w.deletions.keys
  · exact iff_of_false (fun h => h.1 hkept) fun h => h.kept hkept
  · obtain ⟨htext, htarget⟩ := not_staged_of_free hfree hkept
    have hkept' : t ∉ (w.withMove d o t).deletions.keys := hkept
    rw [and_iff_right hkept', mem_stagedFiles_iff, mem_texts_withMove_target htext,
      isMoveOrigin_eq_false_iff]
    rcases find?_target_cases w.moves o with ⟨hfind, hnone⟩ | ⟨m, -, hfind, hmo⟩
    · -- The text goes along, or the file is carried away.
      refine iff_of_true (.inl ?_) ⟨hkept, fun h => by simp [hfind] at h⟩
      by_cases hmem : o ∈ w.texts.keys
      · exact .inl hmem
      · have hreal := isReal_of_fileExists hexists hnone hmem
        exact .inr ⟨(o, t), (mem_moves_withMove_iff_of_none hnone _).mpr (.inr ⟨rfl, hreal⟩), rfl⟩
    · simp only [mem_moves_withMove_iff hfind]
      by_cases hback : m.1 = t
      · -- The move goes away, so that the own file of the target may show again.
        have hfirst : m = (t, o) := Prod.ext hback hmo
        have hothers : ¬ ∃ n ∈ w.otherMoves o, n.2 = t := fun ⟨n, hn, heq⟩ =>
          htarget n ((mem_iff_of_find? hfind n).mpr (.inl hn)) heq
        have hland : w.Lands d o t ↔ o ∈ w.texts.keys ∨ (w.isBelowDeletion t = false ∧
            (∀ n ∈ w.otherMoves o, n.1 ≠ t) ∧ w.owns t d.isFile = true) :=
          ⟨fun h => h.back (hfind.trans (congrArg some hfirst)), fun h => ⟨hkept, fun _ => h⟩⟩
        simp only [hback, ne_eq, not_true_eq_false, and_false, or_false, hothers, hland]
        exact Iff.rfl
      · -- The move goes on, and leads to the target now.
        refine iff_of_true (.inl (.inr ⟨(m.1, t), .inr ⟨rfl, hback⟩, rfl⟩)) ⟨hkept, fun h => ?_⟩
        rw [hfind] at h
        exact absurd (congrArg Prod.fst (Option.some.inj h)) hback

/-- The move to a target is found if it is the only one there. -/
theorem find?_eq_some_of_unique {moves : List (String × String)} (hm : m ∈ moves)
    (hunique : ∀ n ∈ moves, n.2 = m.2 → n = m) :
    moves.find? (fun n => n.2 = m.2) = some m := by
  obtain ⟨n, hfind⟩ : ∃ n, moves.find? (fun n => n.2 = m.2) = some n :=
    Option.isSome_iff_exists.mp (List.find?_isSome.mpr ⟨m, hm, by simp⟩)
  have hn : n.2 = m.2 := by simpa using List.find?_some hfind
  rw [hfind, hunique n (List.mem_of_find?_eq_some hfind) hn]

/-- The content that stood for the origin of a file move stands for its
target. -/
theorem diskKey?_withMove_target (htarget : ∀ m ∈ w.moves, m.2 ≠ t)
    (hreal : (∀ m ∈ w.moves, m.2 ≠ o) → w.isReal d o = true) :
    (w.withMove d o t).diskKey? t = w.diskKey? o := by
  have hdirMoves : (w.withMove d o t).dirMoves = w.dirMoves := rfl
  rcases find?_target_cases w.moves o with ⟨hfind, hnone⟩ | ⟨m, -, hfind, -⟩
  · have hmem := mem_moves_withMove_iff_of_none (d := d) (t := t) hnone
    have hfound := find?_eq_some_of_unique ((hmem (o, t)).mpr (.inr ⟨rfl, hreal hnone⟩))
      fun n hn heq => ((hmem n).mp hn).elim (fun hold => absurd heq (htarget n hold)) And.left
    unfold diskKey?
    rw [hfound, hfind, hdirMoves]
  · have hmem := mem_moves_withMove_iff (d := d) (t := t) hfind
    have hothers : ∀ n ∈ w.otherMoves o, n.2 ≠ t := fun n hn =>
      htarget n ((mem_iff_of_find? hfind n).mpr (.inl hn))
    by_cases hback : m.1 = t
    · -- No move leads to the target, which stands for its own again.
      have hnone : ∀ n ∈ (w.withMove d o t).moves, n.2 ≠ t := fun n hn =>
        ((hmem n).mp hn).elim (hothers n) fun h => absurd hback h.2
      rw [diskKey?_of_not_target hnone, hdirMoves, diskKey?, hfind]
      exact congrArg _ hback.symm
    · have hfound := find?_eq_some_of_unique ((hmem (m.1, t)).mpr (.inr ⟨rfl, hback⟩))
        fun n hn heq => ((hmem n).mp hn).elim (fun hold => absurd heq (hothers n hold)) And.left
      unfold diskKey?
      rw [hfound, hfind, hdirMoves]

/-- What shows at the target says what the file said at the origin. -/
theorem textOf_withMove_target (hexists : w.fileExists d o = true)
    (hfree : w.fileExists d t = false) (hlands : w.Lands d o t) :
    SameRead ((w.withMove d o t).textOf d t) (w.textOf d o) := by
  obtain ⟨htext, htarget⟩ := not_staged_of_free hfree hlands.kept
  have hthere := (fileExists_withMove_target_iff hexists hfree).mpr hlands
  have htexts := find?_texts_withMove d o ((Table.find?_eq_none_iff _ _).mpr htext) t
  rw [if_pos rfl] at htexts
  rw [textOf, textOf, hthere, hexists, htexts]
  cases hfind : w.texts.find? o with
  | some text => exact .inl rfl
  | none =>
      have hdisk := diskKey?_withMove_target htarget fun hnone =>
        isReal_of_fileExists hexists hnone ((Table.find?_eq_none_iff _ _).mp hfind)
      rw [hdisk]
      cases w.diskKey? o with
      | some k => exact .inl rfl
      | none => exact .inr ⟨_, _, rfl, rfl⟩

/-! ### Runs in which every move goes well -/

/-- No other move leads to the target of one. -/
theorem PartialInjection.snd_ne_of_mem_otherMoves (h : PartialInjection w.moves)
    (hm : m ∈ w.otherMoves key) : m.2 ≠ key := by
  rw [otherMoves] at hm
  by_cases htarget : ∃ n ∈ w.moves, n.2 = key
  · obtain ⟨n, hn, hkey⟩ := htarget
    obtain ⟨a, before, after, -, ha, hmoves, herase⟩ :=
      List.exists_of_eraseP (p := (·.2 = key)) hn (by simpa using hkey)
    rw [herase] at hm
    rw [hmoves] at h
    have hne := ((h.mem_others_iff m).mpr hm).2
    rwa [of_decide_eq_true ha] at hne
  · intro heq
    exact htarget ⟨m, List.mem_of_mem_eraseP hm, heq⟩

/-- Nothing is deleted, only files are moved, and the target of a move has no
file of its own but one that was moved away. -/
structure NothingHidden (d : Disk) (w : Workspace) : Prop where
  /-- Nothing is deleted. -/
  kept : ∀ k, k ∉ w.deletions.keys
  /-- Only files are moved. -/
  moves : MovesFiles d w
  /-- What a file is moved over was moved away. -/
  vacated : ∀ m ∈ w.moves, d.isFile (w.place m.2) = true → w.isMoveOrigin m.2 = true

namespace NothingHidden

/-- A new workspace deletes and moves nothing. -/
theorem ofFilter (d : Disk) (root : String) (settings : Settings) (filter : PathFilter) :
    NothingHidden d (ofFilter root settings filter) where
  kept := fun k hk => by cases hk
  moves := movesFiles_ofFilter d root settings filter
  vacated := fun m hm => by cases hm

/-- Nothing is below a deletion. -/
theorem isBelowDeletion_eq_false (h : NothingHidden d w) (key : String) :
    w.isBelowDeletion key = false :=
  List.any_eq_false.mpr fun k hk => absurd hk (h.kept k)

/-- The own file of a key stands at its place. -/
theorem owns_eq (h : NothingHidden d w) (key : String) :
    w.owns key d.isFile = d.isFile (w.place key) := by
  rw [owns, h.moves.dirMoves]
  rfl

/-- From a free key its own file was moved away. -/
theorem isMoveOrigin_of_free (h : NothingHidden d w) (hfree : w.fileExists d key = false)
    (hfile : d.isFile (w.place key) = true) : w.isMoveOrigin key = true := by
  by_contra horigin
  rw [Bool.not_eq_true] at horigin
  rw [fileExists_iff_owns.mpr ⟨h.kept key, .inr ⟨h.isBelowDeletion_eq_false key, horigin,
    (h.owns_eq key).trans hfile⟩⟩] at hfree
  cases hfree

/-- A file move goes to where no file is left. -/
theorem withMove (h : NothingHidden d w) (hexists : w.fileExists d o = true)
    (hfree : w.fileExists d t = false) (hdir : w.dirExists d t = false) :
    NothingHidden d (w.withMove d o t) where
  kept := h.kept
  moves := h.moves.withMove hexists (List.any_eq_false.mpr fun k hk => absurd hk (h.kept k))
    hfree hdir
  vacated := by
    have hinj := h.moves.injection
    obtain ⟨-, htarget⟩ := not_staged_of_free hfree (h.kept t)
    have hmem : ∀ n, n ∈ (w.withMove d o t).moves ↔ _ := mem_movedMoves_iff hinj
    -- The move away from the target stays, since it is not the one that goes on.
    have hstays : (∀ k ∈ w.moves, k.1 = t → k.2 ≠ o) → d.isFile (w.place t) = true →
        (w.withMove d o t).isMoveOrigin t = true := by
      intro hothers hfile
      obtain ⟨k, hk, hkt⟩ := List.any_eq_true.mp (h.isMoveOrigin_of_free hfree hfile)
      have hne := hothers k hk (of_decide_eq_true hkt)
      exact List.any_eq_true.mpr ⟨k, (hmem k).mpr (.inl ⟨hk, hne⟩), hkt⟩
    intro n hn hfile
    obtain ⟨hold, hno⟩ | ⟨hnt, hne, hold⟩ | ⟨rfl, hnone, -⟩ := (hmem n).mp hn
    · rw [isMoveOrigin_withMove hno (htarget n hold)]
      exact h.vacated n hold hfile
    · rw [hnt] at hfile ⊢
      refine hstays (fun k hk hkt hko => hne ?_) hfile
      exact (congrArg Prod.fst (hinj.eq_of_snd_eq hold hk hko.symm)).trans hkt
    · exact hstays (fun k hk _ => hnone k hk) hfile

/-- Where nothing else is moved or deleted, nothing is hidden. -/
theorem of_moves_eq (h : NothingHidden d w) {v : Workspace} (hroot : v.root = w.root)
    (hmoves : v.moves = w.moves) (hdirMoves : v.dirMoves = w.dirMoves)
    (hdeletions : ∀ k ∈ v.deletions.keys, k ∈ w.deletions.keys) : NothingHidden d v where
  kept := fun k hk => h.kept k (hdeletions k hk)
  moves := h.moves.of_sublist hroot (hmoves ▸ List.Sublist.refl _) hdirMoves
  vacated := by
    rw [place_congr hroot, hmoves]
    intro m hm
    rw [isMoveOrigin, hmoves]
    exact h.vacated m hm

/-- A call that neither deletes nor moves a directory hides nothing. -/
theorem apply (h : NothingHidden d w) {c : Call} (hdelete : c.isDelete = false)
    (hdir : c.isDirMove = false) : NothingHidden d (w.apply d c) := by
  have hothers := moves_apply (w := w) (d := d) (c := c)
  cases c with
  | delete path mode => cases hdelete
  | moveDir origin target => cases hdir
  | moveFile origin target =>
      rcases apply_moveFile_cases d w origin target with ⟨hok, happly⟩ | ⟨-, happly⟩
      · obtain ⟨hexists, ⟨hfree, hfreeDir⟩, -⟩ := moveFile_eq_ok hok
        rw [happly]
        exact h.withMove hexists hfree hfreeDir
      · rw [happly]
        exact h
  | _ =>
      obtain ⟨hmoves, hdirMoves, hdeletions⟩ := hothers rfl rfl
      exact h.of_moves_eq (root_apply d w _) hmoves hdirMoves hdeletions

/-- Every file move that is accepted leaves nothing, and lands. -/
theorem translates (h : NothingHidden d w) (hexists : w.fileExists d o = true) :
    ¬ w.LeavesFile d o ∧ w.Lands d o t := by
  have hinj := h.moves.injection
  refine ⟨?_, h.kept t, fun hback => .inr ⟨h.isBelowDeletion_eq_false t, fun n hn heq => ?_, ?_⟩⟩
  · rintro ⟨htarget, ⟨m, hm, hmo⟩ | ⟨-, horigin, howns⟩⟩
    · exact hinj.snd_ne_of_mem_otherMoves hm hmo
    · obtain ⟨m, hm, rfl⟩ := (isMoveTarget_iff _).mp htarget
      rw [h.vacated m hm ((h.owns_eq _).symm.trans howns)] at horigin
      cases horigin
  · -- The two moves have one origin, so they are one.
    have hsame :=
      hinj.eq_of_fst_eq (List.mem_of_mem_eraseP hn) (List.mem_of_find?_eq_some hback) heq
    exact hinj.snd_ne_of_mem_otherMoves hn (congrArg Prod.snd hsame)
  · rw [h.owns_eq]
    exact h.moves.files (t, o) (List.mem_of_find?_eq_some hback)

end NothingHidden

/-! ### The move -/

/-- **A file move translates the view, unless it leaves a file or does not
land.** Take any workspace, any disk and any paths. Behind a move that is
accepted, no file is at the origin exactly if the move leaves none there, and
one is at the target exactly if it lands; what is there says what the file
said at the origin (of a failure only the key that it names may change). Every
other file is there as before, and says the same. A move that is refused
changes nothing.

In a run that deletes nothing and moves no directory, every accepted move
lands and leaves nothing. -/
theorem moveFile_translates_iff (d : Disk) (w : Workspace) (origin target : String) :
    let o := w.key origin
    let t := w.key target
    (∀ w', w.moveFile d origin target = .ok w' →
      (w'.fileExists d o = false ↔ ¬ w.LeavesFile d o) ∧
      (w'.fileExists d t = true ↔ w.Lands d o t) ∧
      (w'.fileExists d t = true → SameRead (w'.textOf d t) (w.textOf d o)) ∧
      ∀ key, key ≠ o → key ≠ t →
        w'.fileExists d key = w.fileExists d key ∧ w'.textOf d key = w.textOf d key) ∧
    ((w.moveFile d origin target).toOption = none → w.apply d (.moveFile origin target) = w) ∧
    ∀ (root : String) (settings : Settings) (filter : PathFilter) (calls : List Call),
      w = (ofFilter root settings filter).run d calls →
      (∀ c ∈ calls, c.isDelete = false ∧ c.isDirMove = false) →
      (w.moveFile d origin target).toOption.isSome = true →
      ¬ w.LeavesFile d o ∧ w.Lands d o t := by
  intro o t
  refine ⟨fun w' hok => ?_, fun hnone => ?_, fun root settings filter calls hw hcalls hok => ?_⟩
  · obtain ⟨hexists, ⟨hfree, -⟩, rfl⟩ := moveFile_eq_ok hok
    have hne : o ≠ t := ne_of_free hexists hfree
    have hlands := fileExists_withMove_target_iff hexists hfree
    refine ⟨?_, hlands, fun hthere => textOf_withMove_target hexists hfree (hlands.mp hthere),
      fun key ho ht => ⟨fileExists_withMove ho ht, textOf_withMove ho ht⟩⟩
    rw [← Bool.not_eq_true, fileExists_withMove_origin_iff hexists hne]
  · rw [apply, hnone]
    rfl
  · have hhidden : NothingHidden d w := by
      rw [hw]
      exact run_induction (fun v hv c hc => hv.apply (hcalls c hc).1 (hcalls c hc).2)
        (NothingHidden.ofFilter d root settings filter)
    rcases apply_moveFile_cases d w origin target with ⟨haccepted, -⟩ | ⟨hrefused, -⟩
    · exact hhidden.translates (moveFile_eq_ok haccepted).1
    · rw [hrefused] at hok
      cases hok

/-- A changed file is moved away, and another one takes its place. -/
def passedOn : List Call :=
  [.save "a" "new\n", .moveFile "a" "s/t", .moveFile "b" "a", .put "n" "n\n"]

/-- The other one goes back to where it was, and the changed one stays where it
was moved. -/
theorem moveFile_translates_iff_passedOn :
    let w := (ofFilter "/root" Settings.default PathFilter.showAll).run filesAndDir passedOn
    let w' := w.withMove filesAndDir "a" "b"
    w.moveFile filesAndDir "a" "b" = .ok w' ∧
      w.moves = [("a", "s/t"), ("b", "a")] ∧ w'.moves = [("a", "s/t")] ∧
      w'.fileExists filesAndDir "a" = false ∧ w'.fileExists filesAndDir "b" = true ∧
      SameRead (w'.textOf filesAndDir "b") (.ok "b\n") ∧
      w'.textOf filesAndDir "s/t" = .ok "new\n" ∧ w'.textOf filesAndDir "s/x.js" = .ok "x\n" := by
  intro w w'
  have hok : w.moveFile filesAndDir "a" "b" = .ok w' :=
    moveFile_of_free (by decide +kernel) (by decide +kernel) (by decide +kernel)
  obtain ⟨hmove, -, hruns⟩ := moveFile_translates_iff filesAndDir w "a" "b"
  obtain ⟨hleaves, hlands⟩ := hruns "/root" Settings.default PathFilter.showAll passedOn rfl
    (by decide +kernel) (by rw [hok]; rfl)
  obtain ⟨horigin, htarget, htext, hothers⟩ := hmove w' hok
  have hthere := htarget.mpr hlands
  have hb : w.textOf filesAndDir (w.key "a") = .ok "b\n" := by decide +kernel
  have hst : w.textOf filesAndDir "s/t" = .ok "new\n" := by decide +kernel
  have hx : w.textOf filesAndDir "s/x.js" = .ok "x\n" := by decide +kernel
  exact ⟨hok, by decide +kernel, by decide +kernel, horigin.mpr hleaves, hthere, hb ▸ htext hthere,
    (hothers "s/t" (by decide +kernel) (by decide +kernel)).2.trans hst,
    (hothers "s/x.js" (by decide +kernel) (by decide +kernel)).2.trans hx⟩

/-- Moved to a key that is deleted, a file is nowhere to be seen: the move
does not take the deletion back. -/
theorem moveFile_to_deleted_hides_file :
    let w := (ofFilter "/root" Settings.default PathFilter.showAll).run filesAndDir
      [.delete "b" .warn]
    let w' := w.apply filesAndDir (.moveFile "a" "b")
    (w.moveFile filesAndDir "a" "b").toOption.isSome = true ∧
      w.textOf filesAndDir "a" = .ok "a\n" ∧ ¬ w.Lands filesAndDir "a" "b" ∧
      w'.fileExists filesAndDir "a" = false ∧ w'.fileExists filesAndDir "b" = false := by
  decide +kernel

/-- File moves that do not translate the view, each behind the calls that lead
to it: a file is moved on from a key to which it was moved while that was
deleted, or back into a directory that is deleted. -/
def untranslatedMoves : List (List Call × String × String) :=
  [([.delete "b" .warn, .moveFile "a" "b", .save "b" "new\n"], "b", "n"),
    ([.moveFile "s/x.js" "n", .delete "s" .warn], "n", "s/x.js")]

/-- They are accepted. The first one leaves the file of the disk behind, and
the second one does not land. -/
theorem moveFile_untranslated :
    untranslatedMoves.map (fun r =>
      let w := (ofFilter "/root" Settings.default PathFilter.showAll).run filesAndDir r.1
      let w' := w.apply filesAndDir (.moveFile r.2.1 r.2.2)
      ((w.moveFile filesAndDir r.2.1 r.2.2).toOption.isSome,
        w'.fileExists filesAndDir r.2.1, w'.fileExists filesAndDir r.2.2)) =
      [(true, true, true), (true, false, false)] := by
  decide +kernel

end ScriptRefactor.Workspace
