import ScriptRefactor.Proofs.Workspace.Course
import ScriptRefactor.Proofs.Workspace.FlushDeletions
import ScriptRefactor.Proofs.Workspace.ViewTree

/-!
# `ScriptRefactor.Proofs.Workspace.FlushWarnings`: what a flush warns of

A flush warns of a move or a deletion that finds nothing where it looks.
Which these are can be told beforehand, from the staged changes and the
disk (`unfound`), and the report of a flush that goes through has exactly
these warnings in this order (`warnings_eq_unfound`).
-/

set_option autoImplicit false

namespace ScriptRefactor.Workspace

open ScriptRefactor.Path

variable {w : Workspace} {d d' : Disk}

/-! ### Warnings of single steps -/

/-- What a move warns of. -/
def moveWarning (w : Workspace) (d : Disk) (m : String × String) : List Record :=
  if d.occupied (w.place m.1) then [] else [.ofMove .moveMissing m.1 m.2]

/-- What a deletion warns of. -/
def deletionWarning (w : Workspace) (d : Disk) (key : String) : List Record :=
  if d.occupied (w.place key) then [] else [.ofPath .deleteMissing key]

/-- A step warns of what `told` says of the disk before it. -/
def Warns (step : Step) (told : Disk → List Record) : Prop :=
  ∀ p p', step p = .ok p' → p'.report.warnings = p.report.warnings ++ told p.disk

/-- What is recorded behind a report adds to its warnings. -/
theorem warnings_append (r r' : Report) :
    Report.warnings (r ++ r') = Report.warnings r ++ Report.warnings r' := List.filter_append ..

/-- A change of the disk that goes through goes on with the report as it
was. -/
theorem ok_of_change_bind {p p' : Progress} {d? : Option Disk} {next : Step}
    (h : p.change d? >>= next = .ok p') : ∃ d, next { p with disk := d } = .ok p' := by
  cases d? with
  | none => cases h
  | some d => exact ⟨d, h⟩

/-- A change at the end of a step leaves the report. -/
theorem report_of_change {p p' : Progress} {d? : Option Disk} (h : p.change d? = .ok p') :
    p'.report = p.report := by
  cases d? <;> cases h
  rfl

/-- A directory is created without a warning. -/
theorem warns_flushDir (key : String) : Warns (w.flushDir key) fun _ => [] := by
  intro p p' h
  unfold flushDir at h
  split at h
  · cases h
    exact (List.append_nil _).symm
  · obtain ⟨d, h⟩ := ok_of_change_bind h
    cases h
    exact warnings_append ..

/-- A move warns if there is nothing to move. -/
theorem warns_flushMove (m : String × String) :
    Warns (w.flushMove m) fun d => w.moveWarning d m := by
  intro p p' h
  unfold flushMove at h
  dsimp only
  unfold moveWarning
  by_cases hthere : p.disk.occupied (w.place m.1) = true
  · simp only [hthere, Bool.not_true, Bool.false_eq_true, if_false] at h
    obtain ⟨d, h⟩ := ok_of_change_bind h
    obtain ⟨d', h⟩ := ok_of_change_bind h
    cases h
    rw [if_pos hthere]
    exact warnings_append ..
  · simp only [hthere, Bool.not_false, if_true] at h
    cases h
    rw [if_neg hthere]
    exact warnings_append ..

/-- A deletion warns if there is nothing to delete. -/
theorem warns_flushDeletion (deletion : String × DeleteMode) :
    Warns (w.flushDeletion deletion) fun d => w.deletionWarning d deletion.1 := by
  intro p p' h
  unfold flushDeletion at h
  dsimp only at h ⊢
  unfold deletionWarning
  by_cases hthere : p.disk.occupied (w.place deletion.1) = true
  · simp only [hthere, if_true] at h
    cases h
    rw [if_pos hthere]
    exact warnings_append ..
  · simp only [hthere] at h
    cases h
    rw [if_neg hthere]
    by_cases hwarn : deletion.2 = .warn
    · simp only [hwarn, if_true]
      exact warnings_append ..
    · simp only [hwarn, if_false]
      exact warnings_append ..

/-- A text is written without a warning. -/
theorem warns_flushSave (key : String) : Warns (w.flushSave key) fun _ => [] := by
  intro p p' h
  unfold flushSave at h
  split at h
  · cases h
    exact (List.append_nil _).symm
  · dsimp only at h
    split at h
    · split at h
      · cases h
        exact (List.append_nil _).symm
      · rw [report_of_change h]
        exact warnings_append ..
    · obtain ⟨d, h⟩ := ok_of_change_bind h
      rw [report_of_change h]
      exact warnings_append ..

/-! ### Warnings of a phase -/

/-- What steps of one kind warn of, each on the disk that those before it
leave. -/
def told {α : Type} (f : Disk → α → Option Disk) (g : Disk → α → List Record) :
    Disk → List α → List Record
  | _, [] => []
  | d, a :: as => g d a ++ (f d a).elim [] fun d => told f g d as

/-- Steps of one kind that go through one after the other warn of what is
told. -/
theorem warnings_map {α : Type} {s : α → Step} {f : Disk → α → Option Disk}
    {g : Disk → α → List Record} (hf : ∀ a p, diskOf? (s a p) = f p.disk a)
    (hg : ∀ a, Warns (s a) fun d => g d a) (as : List α) {p p' : Progress}
    (h : (as.map s).foldlM (fun p step => step p) p = .ok p') :
    as.foldlM f p.disk = some p'.disk ∧
      p'.report.warnings = p.report.warnings ++ told f g p.disk as := by
  induction as generalizing p with
  | nil =>
      cases h
      exact ⟨rfl, (List.append_nil _).symm⟩
  | cons a as ih =>
      rw [List.map_cons, List.foldlM_cons] at h
      cases hstep : s a p with
      | error e =>
          rw [hstep] at h
          cases h
      | ok p₁ =>
          rw [hstep] at h
          have hdisk : f p.disk a = some p₁.disk := by
            rw [← hf, hstep]
            rfl
          obtain ⟨hrest, hwarnings⟩ := ih h
          refine ⟨?_, ?_⟩
          · rw [List.foldlM_cons, hdisk]
            exact hrest
          · rw [hwarnings, hg a p p₁ hstep, told, hdisk, List.append_assoc]
            rfl

/-- Nothing is told if no step warns. -/
theorem told_eq_nil {α : Type} {f : Disk → α → Option Disk} (d : Disk) (as : List α) :
    told f (fun _ _ => []) d as = [] := by
  induction as generalizing d with
  | nil => rfl
  | cons a as ih =>
      rw [told, List.nil_append]
      cases f d a with
      | none => rfl
      | some d => exact ih d

/-- What is told of what is made of a list is told of the list. -/
theorem told_map {α β : Type} (f : Disk → β → Option Disk) (g : Disk → β → List Record)
    (h : α → β) (d : Disk) (as : List α) :
    told f g d (as.map h) = told (fun d a => f d (h a)) (fun d a => g d (h a)) d as := by
  induction as generalizing d with
  | nil => rfl
  | cons a as ih =>
      rw [List.map_cons, told, told]
      exact congrArg _ (congrArg _ (funext ih))

/-- Steps in two lists that go through. -/
theorem ok_of_foldlM_append {first second : List Step} {p p' : Progress}
    (h : (first ++ second).foldlM (fun p step => step p) p = .ok p') :
    ∃ q, first.foldlM (fun p step => step p) p = .ok q ∧
      second.foldlM (fun p step => step p) q = .ok p' := by
  rw [List.foldlM_append] at h
  cases hfirst : first.foldlM (fun p step => step p) p with
  | error e =>
      rw [hfirst] at h
      cases h
  | ok q =>
      rw [hfirst] at h
      exact ⟨q, rfl, h⟩

/-- The warnings of a flush that goes through are those of its moves and
deletions. -/
theorem warnings_flush {report : Report} (h : (w.flush d).report? = some report) :
    ∃ d₁ d₂, w.dirs.toList.foldlM w.createdOn d = some d₁ ∧
      w.dirMoves.foldlM w.movedOn d₁ = some d₂ ∧
      (w.moves.foldlM w.movedOn (w.deletions.keys.foldl w.deletedOn d₂)).isSome = true ∧
      report.warnings = told w.movedOn w.moveWarning d₁ w.dirMoves
        ++ told (fun d k => some (w.deletedOn d k)) w.deletionWarning d₂ w.deletions.keys
        ++ told w.movedOn w.moveWarning (w.deletions.keys.foldl w.deletedOn d₂) w.moves := by
  unfold flush at h
  split at h
  · rename_i p hp
    cases h
    unfold steps at hp
    -- The steps of a flush, from the last kind to the first.
    obtain ⟨p₄, hp, hsaves⟩ := ok_of_foldlM_append hp
    obtain ⟨p₃, hp, hmoves⟩ := ok_of_foldlM_append hp
    obtain ⟨p₂, hp, hdeletions⟩ := ok_of_foldlM_append hp
    obtain ⟨p₁, hdirs, hdirMoves⟩ := ok_of_foldlM_append hp
    -- For each kind, what it does to the disk and what it adds to the warnings.
    obtain ⟨hd₁, hw₁⟩ := warnings_map (s := w.flushDir) (f := w.createdOn) (g := fun _ _ => [])
      w.diskOf?_flushDir warns_flushDir _ hdirs
    obtain ⟨hd₂, hw₂⟩ := warnings_map (s := w.flushMove) (f := w.movedOn) (g := w.moveWarning)
      w.diskOf?_flushMove warns_flushMove _ hdirMoves
    obtain ⟨hd₃, hw₃⟩ := warnings_map (s := w.flushDeletion)
      (f := fun d e => some (w.deletedOn d e.1)) (g := fun d e => w.deletionWarning d e.1)
      w.diskOf?_flushDeletion warns_flushDeletion _ hdeletions
    obtain ⟨hd₄, hw₄⟩ := warnings_map (s := w.flushMove) (f := w.movedOn) (g := w.moveWarning)
      w.diskOf?_flushMove warns_flushMove _ hmoves
    obtain ⟨-, hw₅⟩ := warnings_map (s := w.flushSave) (f := w.savedOn) (g := fun _ _ => [])
      w.diskOf?_flushSave warns_flushSave _ hsaves
    -- A deletion cannot fail, so it is a plain fold on the disk.
    have hdeleted : w.deletions.keys.foldl w.deletedOn p₂.disk = p₃.disk := by
      have hpure := w.effect_deletions p₂
      rw [hdeletions] at hpure
      exact (Option.some.inj hpure).symm
    rw [told_eq_nil, List.append_nil] at hw₁ hw₅
    refine ⟨p₁.disk, p₂.disk, hd₁, hd₂, ?_, ?_⟩
    · rw [hdeleted, hd₄]
      rfl
    · rw [hw₅, hw₄, hw₃, hw₂, hw₁, hdeleted, Table.keys, told_map]
      rfl
  · cases h

/-! ### Where something stands -/

/-- Something stands at a key behind some moves, the last one first, each
of which found something: it was brought there, a directory was made on the
way to a target, or it was there before them, which `base` tells. -/
def standsBehind (base : String → Bool) : List (String × String) → String → Bool
  | [], key => base key
  | m :: moves, key =>
    match replacePrefix? key m.2 m.1 with
    | some k => standsBehind base moves k
    | none => !isUnder key m.1 && (isUnder m.2 key || standsBehind base moves key)

/-- Some moves, the last one first, with one more if it finds something
behind them. -/
def withFound (base : String → Bool) (found : List (String × String)) (m : String × String) :
    List (String × String) :=
  if standsBehind base found m.1 then m :: found else found

/-- The moves that find nothing behind those before them. -/
def lost (base : String → Bool) :
    List (String × String) → List (String × String) → List (String × String)
  | _, [] => []
  | found, m :: moves =>
    (if standsBehind base found m.1 then [] else [m]) ++ lost base (withFound base found m) moves

/-- Something stands at a key once the staged directories are created. -/
def standsFirst (w : Workspace) (d : Disk) (key : String) : Bool :=
  d.occupied (w.place key) || w.dirs.toList.any fun k => isUnder k key

/-- Something stands at a key once the directories are moved. -/
def standsMoved (w : Workspace) (d : Disk) (key : String) : Bool :=
  standsBehind (w.standsFirst d) (w.dirMoves.foldl (withFound (w.standsFirst d)) []) key

/-- Something stands at a key once the deletions are done. -/
def standsKept (w : Workspace) (d : Disk) (key : String) : Bool :=
  !w.isGone key && w.standsMoved d key

/-- The warnings for the moves and deletions that find nothing: moves of
directories, deletions, and moves of files. -/
def unfound (w : Workspace) (d : Disk) : Report :=
  (lost (w.standsFirst d) [] w.dirMoves).map (fun m => .ofMove .moveMissing m.1 m.2)
    ++ (w.deletions.keys.filter fun k => w.isBelowDeletion k || !w.standsMoved d k).map
      (.ofPath .deleteMissing)
    ++ (lost (w.standsKept d) [] w.moves).map fun m => .ofMove .moveMissing m.1 m.2

/-- Whether something stands at a key is told by `stands`. -/
structure Stand (w : Workspace) (d : Disk) (stands : String → Bool) : Prop where
  /-- The disk is a tree. -/
  tree : d.IsTree
  /-- Each key inside is told of. -/
  occupied : ∀ key, Within key → d.occupied (w.place key) = stands key

/-- What stands once a directory is created. -/
theorem occupied_createdOn {k : String} (hd : d.IsTree) (h : w.createdOn d k = some d')
    (q : Place) : d'.occupied q = (d.occupied q || decide (q <+: w.place k)) := by
  unfold createdOn at h
  split at h
  · rename_i hocc
    cases h
    by_cases hq : q <+: w.place k
    · rw [hd.occupied_of_prefix hq hocc]
      rfl
    · simp [hq]
  · rw [Disk.occupied, Disk.occupied, Disk.find?_makeDirs h]
    split <;> simp [*]

/-- What stands once the staged directories are created. -/
theorem occupied_foldlM_createdOn {dirs : List String} (hd : d.IsTree)
    (hdirs : ∀ k ∈ dirs, Within k) (h : dirs.foldlM w.createdOn d = some d') {key : String}
    (hkey : Within key) :
    d'.occupied (w.place key) = (d.occupied (w.place key) || dirs.any fun k => isUnder k key) := by
  induction dirs generalizing d with
  | nil =>
      cases h
      simp
  | cons k dirs ih =>
      obtain ⟨hk, hdirs⟩ := List.forall_mem_cons.mp hdirs
      rw [List.foldlM_cons] at h
      obtain ⟨d₁, hfirst, hrest⟩ := Option.bind_eq_some_iff.mp h
      have hunder : decide (w.place key <+: w.place k) = isUnder k key := by
        rw [Bool.eq_iff_iff, decide_eq_true_iff]
        exact w.prefix_place_iff hk hkey
      rw [ih (isDir_createdOn hd hfirst).1 hdirs hrest, occupied_createdOn hd hfirst, hunder,
        List.any_cons, Bool.or_assoc]

/-- Behind a move that finds something, all stands that stood before, and
the way to the target; but what stood below the origin stands below the
target. -/
theorem occupied_movedOn {m : String × String} (hm : Inside m.1 ∧ Inside m.2) (hd : d.IsTree)
    (h : w.movedOn d m = some d') (hthere : d.occupied (w.place m.1) = true) {key : String}
    (hkey : Within key) : d'.occupied (w.place key) =
      match replacePrefix? key m.2 m.1 with
      | some k => d.occupied (w.place k)
      | none => !isUnder key m.1 && (isUnder m.2 key || d.occupied (w.place key)) := by
  rw [movedOn, if_pos hthere] at h
  obtain ⟨d₁, hparent, hrename⟩ := Option.bind_eq_some_iff.mp h
  have hmade : ∀ q, d₁.occupied q = (decide (q <+: (w.place m.2).dropLast) || d.occupied q) := by
    intro q
    rw [Disk.occupied, Disk.occupied, Disk.find?_makeDirs hparent]
    split <;> simp [*]
  have hway : w.place m.2 ≠ w.place key →
      decide (w.place key <+: (w.place m.2).dropLast) = isUnder m.2 key := by
    intro hne
    rw [Bool.eq_iff_iff, decide_eq_true_iff, Disk.prefix_dropLast_iff (w.place_ne_nil hm.2),
      ← w.prefix_place_iff hm.2.within hkey]
    exact and_iff_left (Ne.symm hne)
  have horigin : decide (w.place m.1 <+: w.place key) = isUnder key m.1 := by
    rw [Bool.eq_iff_iff, decide_eq_true_iff]
    exact w.prefix_place_iff hkey hm.1.within
  by_cases hself : w.place m.1 = w.place m.2
  · -- A move to where something is changes nothing, since all above it is there.
    rw [Disk.rename, if_pos hself] at hrename
    split at hrename <;> cases hrename
    rw [hmade]
    rcases w.replacePrefix?_within hkey hm.2 hm.1 with ⟨hpre, k, hk, -, hplace⟩ | ⟨hpre, hnone⟩
    · have hsame : w.place k = w.place key := by
        rw [hplace, hself]
        exact List.prefix_iff_eq_append.mp hpre
      have hnot : ¬ w.place key <+: (w.place m.2).dropLast := fun hk' =>
        ((Disk.prefix_dropLast_iff (w.place_ne_nil hm.2)).mp (hpre.trans hk')).2 rfl
      rw [hk]
      show _ = d.occupied (w.place k)
      rw [hsame]
      simp [hnot]
    · rw [hnone]
      have hne : w.place m.2 ≠ w.place key := fun heq => hpre (by rw [heq])
      have hnot : isUnder key m.1 = false := by
        rw [← horigin, hself, decide_eq_false hpre]
      rw [hway hne, hnot]
      rfl
  · have hout := (Disk.rename_eq_some hself hrename).1
    have hfind := Disk.find?_rename (hd.makeDirs hparent) hself hrename (w.place key)
    rcases w.replacePrefix?_within hkey hm.2 hm.1 with ⟨hpre, k, hk, -, hplace⟩ | ⟨hpre, hnone⟩
    · -- What is below the target comes from below the origin.
      rw [hk, Disk.occupied, hfind, if_pos hpre, ← hplace]
      refine (hmade (w.place k)).trans ?_
      have hnot : ¬ w.place k <+: (w.place m.2).dropLast := fun hk' =>
        hout ((hplace ▸ List.prefix_append _ _).trans (hk'.trans (List.dropLast_prefix _)))
      simp [hnot]
    · have hne : w.place m.2 ≠ w.place key := fun heq => hpre (by rw [heq])
      rw [hnone, Disk.occupied, hfind, if_neg hpre, ← horigin, ← hway hne]
      split
      · simp [*]
      · refine (hmade (w.place key)).trans ?_
        simp [*]

/-- Behind a move, what stands is told with the move if it finds something,
and without it if not; and so is its warning. -/
theorem Stand.movedOn {base : String → Bool} {found : List (String × String)} {m : String × String}
    (h : Stand w d (standsBehind base found)) (hm : Inside m.1 ∧ Inside m.2)
    (hmoved : w.movedOn d m = some d') : Stand w d' (standsBehind base (withFound base found m)) ∧
      w.moveWarning d m
        = if standsBehind base found m.1 then [] else [.ofMove .moveMissing m.1 m.2] := by
  have horigin := h.occupied m.1 hm.1.within
  refine ⟨⟨isTree_movedOn h.tree hmoved, fun key hkey => ?_⟩, by rw [moveWarning, horigin]⟩
  unfold withFound
  by_cases hthere : standsBehind base found m.1 = true
  · rw [if_pos hthere, occupied_movedOn hm h.tree hmoved (horigin.trans hthere) hkey, standsBehind]
    rcases w.replacePrefix?_within hkey hm.2 hm.1 with ⟨-, k, hk, hwithin, -⟩ | ⟨-, hnone⟩
    · rw [hk]
      exact h.occupied k hwithin
    · rw [hnone, h.occupied key hkey]
  · rw [← horigin] at hthere
    unfold Workspace.movedOn at hmoved
    rw [if_neg hthere] at hmoved
    cases hmoved
    rw [← horigin, if_neg hthere]
    exact h.occupied key hkey

/-- Moves warn of those that are lost. -/
theorem Stand.told_moves {base : String → Bool} {found moves : List (String × String)}
    (h : Stand w d (standsBehind base found)) (hmoves : ∀ m ∈ moves, Inside m.1 ∧ Inside m.2)
    (hmoved : moves.foldlM w.movedOn d = some d') :
    Stand w d' (standsBehind base (moves.foldl (withFound base) found)) ∧
      told w.movedOn w.moveWarning d moves
        = (lost base found moves).map fun m => .ofMove .moveMissing m.1 m.2 := by
  induction moves generalizing d found with
  | nil =>
      cases hmoved
      exact ⟨h, rfl⟩
  | cons m moves ih =>
      obtain ⟨hm, hmoves⟩ := List.forall_mem_cons.mp hmoves
      rw [List.foldlM_cons] at hmoved
      obtain ⟨d₁, hfirst, hrest⟩ := Option.bind_eq_some_iff.mp hmoved
      obtain ⟨hstand, hwarning⟩ := h.movedOn hm hfirst
      obtain ⟨hstand', htold⟩ := ih hstand hmoves hrest
      refine ⟨hstand', ?_⟩
      rw [told, lost, hwarning, hfirst, Option.elim_some, htold, List.map_append]
      split <;> rfl

/-- What stands once the deletions are done. -/
theorem Stand.deleted {stands : String → Bool} (h : Stand w d stands) {deletions : List String}
    (hinside : ∀ k ∈ deletions, Inside k) : Stand w (deletions.foldl w.deletedOn d)
      fun key => !deletions.any (isUnder key) && stands key := by
  obtain ⟨htree, hfind⟩ := find?_foldl_deletedOn (w := w) hinside h.tree
  refine ⟨htree, fun key hkey => ?_⟩
  rw [Disk.occupied, hfind key hkey, ← h.occupied key hkey]
  split <;> simp [*]
  rfl

/-- A key comes behind those above it. -/
theorem not_lt_of_isUnder {key dir : String} (h : isUnder key dir = true) : ¬ key < dir := by
  obtain ⟨rest, hrest⟩ := Option.isSome_iff_exists.mp h
  rw [String.lt_iff, (below?_eq_some_iff.mp hrest).1]
  exact List.le_append_left

/-- Deletions in ascending order warn of those that find nothing, and of
those below others. -/
theorem Stand.told_deletions {stands : String → Bool} (h : Stand w d stands)
    (hinside : ∀ k ∈ w.deletions.keys, Inside k) (hascending : w.deletions.IsAscending) :
    told (fun d k => some (w.deletedOn d k)) w.deletionWarning d w.deletions.keys
      = (w.deletions.keys.filter fun k => w.isBelowDeletion k || !stands k).map
        (.ofPath .deleteMissing) := by
  have hall : ∀ done rest, w.deletions.keys = done ++ rest →
      told (fun d k => some (w.deletedOn d k)) w.deletionWarning (done.foldl w.deletedOn d) rest
        = (rest.filter fun k => w.isBelowDeletion k || !stands k).map
          (.ofPath .deleteMissing) := by
    intro done rest
    induction rest generalizing done with
    | nil => exact fun _ => rfl
    | cons k rest ih =>
        intro hkeys
        have hdone : ∀ k ∈ done, Inside k := fun k hk => hinside k (by simp [hkeys, hk])
        have hk : Inside k := hinside k (by simp [hkeys])
        -- Those above a key are the ones that come before it.
        have hbelow : w.isBelowDeletion k = done.any (isUnder k) := by
          rw [Table.IsAscending, hkeys, List.pairwise_append] at hascending
          obtain ⟨-, hafter, hbefore⟩ := hascending
          have hrest : (rest.any fun j => j ≠ k && isUnder k j) = false := by
            refine List.any_eq_false.mpr fun j hj hjk => ?_
            exact not_lt_of_isUnder (Bool.and_eq_true_iff.mp hjk).2
              ((List.pairwise_cons.mp hafter).1 j hj)
          have hfront : (done.any fun j => j ≠ k && isUnder k j) = done.any (isUnder k) := by
            rw [Bool.eq_iff_iff, List.any_eq_true, List.any_eq_true]
            refine exists_congr fun j => and_congr_right fun hj => ?_
            have hne : j ≠ k := fun heq => String.lt_irrefl k (heq ▸ hbefore j hj k (by simp))
            simp [hne]
          rw [isBelowDeletion, hkeys, List.any_append, List.any_cons, hrest, hfront]
          simp
        have hocc := (h.deleted hdone).occupied k hk.within
        have hnext := ih (done ++ [k]) (by rw [hkeys, List.append_assoc]; rfl)
        rw [List.foldl_append, List.foldl_cons, List.foldl_nil] at hnext
        rw [told, Option.elim_some, List.filter_cons, deletionWarning, hocc, hbelow, hnext]
        cases done.any (isUnder k) <;> cases stands k <;> rfl
  exact hall [] _ rfl

/-- Behind the directory moves, what stands is told by `standsMoved`, and
they warn of those that are lost. -/
theorem stand_dirMoves (hin : KeysInside w) (hdirs : ∀ k ∈ w.dirs.toList, Inside k) (hd : d.IsTree)
    {d₁ d₂ : Disk} (hcreated : w.dirs.toList.foldlM w.createdOn d = some d₁)
    (hmoved : w.dirMoves.foldlM w.movedOn d₁ = some d₂) :
    Stand w d₂ (w.standsMoved d) ∧ told w.movedOn w.moveWarning d₁ w.dirMoves
      = (lost (w.standsFirst d) [] w.dirMoves).map fun m => .ofMove .moveMissing m.1 m.2 := by
  have hfirst : Stand w d₁ (standsBehind (w.standsFirst d) []) :=
    ⟨(bytes?_foldlM_createdOn hd hcreated).1, fun key hkey =>
      occupied_foldlM_createdOn hd (fun k hk => (hdirs k hk).within) hcreated hkey⟩
  exact hfirst.told_moves hin.dirMoves hmoved

/-- **A flush warns of exactly what finds nothing.** Where the staged keys
are inside, the deletions in order and the disk a tree, a flush that goes
through has the warnings that can be told beforehand, and no other. -/
theorem warnings_eq_unfound (hin : KeysInside w) (hdirs : ∀ k ∈ w.dirs.toList, Inside k)
    (hascending : w.deletions.IsAscending) (hd : d.IsTree) {report : Report}
    (h : (w.flush d).report? = some report) : report.warnings = w.unfound d := by
  obtain ⟨d₁, d₂, hcreated, hdirMoved, hmoved, hreport⟩ := warnings_flush h
  obtain ⟨d₃, hmoved⟩ := Option.isSome_iff_exists.mp hmoved
  obtain ⟨hstand, htold⟩ := stand_dirMoves hin hdirs hd hcreated hdirMoved
  have hkept : Stand w (w.deletions.keys.foldl w.deletedOn d₂) (standsBehind (w.standsKept d) []) :=
    hstand.deleted hin.deletions
  rw [hreport, htold, hstand.told_deletions hin.deletions hascending,
    (hkept.told_moves hin.moves hmoved).2]
  rfl

end ScriptRefactor.Workspace
