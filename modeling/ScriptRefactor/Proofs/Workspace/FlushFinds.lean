import ScriptRefactor.Proofs.Workspace.Deletions
import ScriptRefactor.Proofs.Workspace.FlushWarnings

/-!
# `ScriptRefactor.Proofs.Workspace.FlushFinds`: runs that a flush does not warn of

Every move and deletion that a call records is for something on disk if
the call finds it there, and a flush finds it if the calls behind it leave
it there. `Found` says of a workspace that all that is recorded is still
to be found; `Misses` says of a call that it records something that is not
there, or hides what another recorded:

* a deletion of what was not on disk, or of what is above or below another
  deletion;
* a move of a directory that was not on disk, or that was moved ahead of
  others already, or one to where something is deleted or was moved away.

A call that neither misses something nor endangers a file to be moved keeps
`Found` (`Found.apply`). Behind it no move is lost and no deletion is idle
(`Found.warnings_eq_nil`), so that a flush does not warn. That a deletion
was of what the view showed, and that a move went through, is not enough:
the view also shows what is only staged, and what another deletion takes
away (`flush_warns_of_successes`).
-/

set_option autoImplicit false

namespace ScriptRefactor.Workspace

open ScriptRefactor.Path

variable {w : Workspace} {d d' : Disk} {o t key : String}

/-! ### Where the keys of moves and deletions come from -/

/-- Something stood on disk where the directory moves took a key from. -/
def stood (w : Workspace) (d : Disk) (key : String) : Bool :=
  (beforeDirMoves w.dirMoves.reverse key).any fun k => d.occupied (w.place k)

/-- What is recorded finds what it is for: each directory to move, and what
is to be deleted, were on disk, and so were the files to move, which no
deletion takes away. -/
structure Found (w : Workspace) (d : Disk) : Prop where
  /-- Each directory to move was there before the moves ahead of it. -/
  dirMoves : ∀ before m, before ++ [m] <+: w.dirMoves →
    (beforeDirMoves before.reverse m.1).any (fun k => d.occupied (w.place k)) = true
  /-- What is to be deleted was there. -/
  deletions : ∀ k ∈ w.deletions.keys, w.stood d k = true
  /-- No deletion is below another. -/
  apart : ∀ k ∈ w.deletions.keys, ∀ j ∈ w.deletions.keys, j ≠ k → isUnder k j = false
  /-- No file is moved twice. -/
  origins : (w.moves.map Prod.fst).Nodup
  /-- The files to move were there. -/
  files : ∀ m ∈ w.moves,
    (beforeDirMoves w.dirMoves.reverse m.1).any (fun k => d.isFile (w.place k)) = true
  /-- No deletion takes one away. -/
  spares : w.Spares

/-- A new workspace records nothing. -/
theorem found_ofFilter (d : Disk) (root : String) (settings : Settings) (filter : PathFilter) :
    Found (ofFilter root settings filter) d where
  dirMoves := fun before m h => by
    have hnil := List.prefix_nil.mp h
    simp at hnil
  deletions := fun k hk => by cases hk
  apart := fun k hk => by cases hk
  origins := List.Pairwise.nil
  files := fun m hm => by cases hm
  spares := spares_ofFilter root settings filter

/-! ### Calls after which something is not found -/

/-- What a deletion of a key adds to the recorded deletions. -/
def addedDeletions (w : Workspace) (d : Disk) (key : String) : List String :=
  (w.movedBelow key).map Prod.fst ++ if w.holdsOnlyMoved d key then [] else [key]

/-- A key is deleted with another if that adds it. -/
theorem mem_addedDeletions {k : String} : k ∈ w.addedDeletions d key ↔ w.Deletes d key k := by
  rw [addedDeletions, List.mem_append, List.mem_map, Deletes]
  refine or_congr_right ?_
  cases w.holdsOnlyMoved d key <;> simp

instance (w : Workspace) (d : Disk) : (c : Call) → Decidable (w.Endangers d c)
  | .delete path _ =>
    decidable_of_iff (∃ m ∈ w.moves, isUnder m.2 (w.key path) = false ∧
        ∃ k ∈ w.addedDeletions d (w.key path), isUnder m.1 k = true)
      (by simp only [Endangers, mem_addedDeletions])
  | .moveFile origin target =>
    inferInstanceAs (Decidable ((w.moveFile d origin target).toOption.isSome = true ∧
      (∀ m ∈ w.moves, m.2 ≠ w.key origin) ∧ w.isReal d (w.key origin) = true ∧
      ∃ k ∈ w.deletions.keys, isUnder (w.key origin) k = true))
  | .moveDir origin target =>
    inferInstanceAs (Decidable ((w.moveDir d origin target).toOption.isSome = true ∧
      ∃ m ∈ w.moves, ∃ k ∈ w.deletions.keys, isUnder (carried (w.key origin) (w.key target) m.1)
        (carried (w.key origin) (w.key target) k) = true))
  | .put .. | .save .. | .mkdir .. | .content .. | .invalidate .. =>
    inferInstanceAs (Decidable False)

/-- The call records something that finds nothing, or lets something else
be missed: it deletes what was not on disk, or what is above or below a
deletion; it moves a directory that was not on disk, one that arrived there
ahead of another move, or moves it to where something is deleted or was
moved away. -/
def Misses (w : Workspace) (d : Disk) : Call → Prop
  | .delete path _ => ∃ k ∈ w.addedDeletions d (w.key path), w.stood d k = false ∨
      ∃ j ∈ w.deletions.keys ++ w.addedDeletions d (w.key path), j ≠ k ∧
        (isUnder k j = true ∨ isUnder j k = true)
  | .moveDir origin target =>
    (w.moveDir d origin target).toOption.isSome = true ∧
      ((∃ m ∈ w.dirMoves.dropLast, m.2 = w.key origin) ∨
        ((∀ m ∈ w.dirMoves, m.2 ≠ w.key origin) ∧ w.stood d (w.key origin) = false) ∨
        (∃ k ∈ w.deletions.keys,
          isUnder k (w.key target) = true ∨ isUnder (w.key target) k = true) ∨
        ∃ m ∈ w.moves, isUnder m.1 (w.key target) = true)
  | _ => False

instance (w : Workspace) (d : Disk) : (c : Call) → Decidable (w.Misses d c)
  | .delete path _ =>
    inferInstanceAs (Decidable (∃ k ∈ w.addedDeletions d (w.key path), w.stood d k = false ∨
      ∃ j ∈ w.deletions.keys ++ w.addedDeletions d (w.key path), j ≠ k ∧
        (isUnder k j = true ∨ isUnder j k = true)))
  | .moveDir origin target =>
    inferInstanceAs (Decidable ((w.moveDir d origin target).toOption.isSome = true ∧
      ((∃ m ∈ w.dirMoves.dropLast, m.2 = w.key origin) ∨
        ((∀ m ∈ w.dirMoves, m.2 ≠ w.key origin) ∧ w.stood d (w.key origin) = false) ∨
        (∃ k ∈ w.deletions.keys,
          isUnder k (w.key target) = true ∨ isUnder (w.key target) k = true) ∨
        ∃ m ∈ w.moves, isUnder m.1 (w.key target) = true)))
  | .put .. | .save .. | .mkdir .. | .moveFile .. | .content .. | .invalidate .. =>
    inferInstanceAs (Decidable False)

/-- Fewer deletions find what they are for if the moves are the same. -/
theorem Found.mono {v : Workspace} (h : w.Found d) (hroot : v.root = w.root)
    (hmoves : v.moves = w.moves) (hdirMoves : v.dirMoves = w.dirMoves)
    (hdeletions : ∀ k ∈ v.deletions.keys, k ∈ w.deletions.keys) : v.Found d := by
  have hplace : v.place = w.place := place_congr hroot
  refine ⟨?_, fun k hk => ?_,
    fun k hk j hj => h.apart k (hdeletions k hk) j (hdeletions j hj), hmoves ▸ h.origins, ?_, ?_⟩
  · rw [hdirMoves, hplace]
    exact h.dirMoves
  · rw [stood, hdirMoves, hplace]
    exact h.deletions k (hdeletions k hk)
  · rw [hmoves, hdirMoves, hplace]
    exact h.files
  · exact h.spares.mono (fun m hm => hmoves ▸ hm) hdeletions

/-- A deletion of what was on disk, apart from other deletions, finds
it. -/
theorem Found.delete (h : w.Found d) {path : String} {mode : DeleteMode}
    (hsafe : ¬ w.Endangers d (.delete path mode)) (hc : ¬ w.Misses d (.delete path mode)) :
    (w.apply d (.delete path mode)).Found d := by
  have hspares := (spares_delete_iff (d := d) h.spares path mode).mpr hsafe
  obtain ⟨deletions, hdelete, hkeys⟩ := w.delete_eq d path mode
  rw [apply] at hspares ⊢
  rw [hdelete] at hspares ⊢
  have hmoves : ∀ m ∈ (w.dropped (w.key path)).moves, m ∈ w.moves :=
    fun m hm => List.mem_of_mem_filter hm
  -- A key that is newly deleted was there, and no other deletion is nested with it.
  have hnew : ∀ k, w.Deletes d (w.key path) k → w.stood d k = true ∧
      ∀ j, (j ∈ w.deletions.keys ∨ w.Deletes d (w.key path) j) → j ≠ k →
        isUnder k j = false ∧ isUnder j k = false := by
    intro k hk
    have hk := mem_addedDeletions.mpr hk
    constructor
    · by_contra hstood
      exact hc ⟨k, hk, .inl (Bool.eq_false_iff.mpr hstood)⟩
    · intro j hj hne
      rw [← mem_addedDeletions, ← List.mem_append] at hj
      by_contra hunder
      rw [← Bool.not_eq_true, ← Bool.not_eq_true, ← not_or, not_not] at hunder
      exact hc ⟨k, hk, .inr ⟨j, hj, hne, hunder⟩⟩
  refine ⟨h.dirMoves, fun k hk => ?_, fun k hk j hj hne => ?_,
    h.origins.sublist (List.filter_sublist.map _), fun m hm => h.files m (hmoves m hm), hspares⟩
  · -- Each deletion is an old or a new one.
    rcases (hkeys k).mp hk with hk | hk
    · exact h.deletions k hk
    · exact (hnew k hk).1
  · -- Of two deletions, both are old, or `hnew` speaks of one of them.
    rcases (hkeys k).mp hk with hk | hk
    · rcases (hkeys j).mp hj with hj | hj
      · exact h.apart k hk j hj hne
      · exact ((hnew j hj).2 k (.inl hk) (Ne.symm hne)).2
    · exact ((hnew k hk).2 j ((hkeys j).mp hj) hne).1

/-- Where nothing was moved to a key, its content comes from where the
directory moves took it. -/
theorem diskKey?_of_not_target (h : ∀ m ∈ w.moves, m.2 ≠ key) :
    w.diskKey? key = beforeDirMoves w.dirMoves.reverse key := by
  have hfind : (w.moves.find? fun m => m.2 = key) = none :=
    List.find?_eq_none.mpr fun m hm => by simpa using h m hm
  rw [diskKey?, hfind]

/-- A file move that no deletion endangers finds its file. -/
theorem Found.moveFile (h : w.Found d) {origin target : String}
    (hsafe : ¬ w.Endangers d (.moveFile origin target)) :
    (w.apply d (.moveFile origin target)).Found d := by
  have hspares := (spares_moveFile_iff h.spares origin target).mpr hsafe
  rcases apply_moveFile_cases d w origin target with ⟨-, happly⟩ | ⟨-, happly⟩
  · rw [happly] at hspares ⊢
    refine ⟨h.dirMoves, h.deletions, h.apart, ?_, ?_, hspares⟩
    · -- A recorded move is redirected, or one is added for a file that no move has as target.
      rcases movedMoves_cases w d (w.key origin) (w.key target) with
        ⟨before, m, after, hmoves, -, hmoved⟩ | ⟨-, hmoved⟩
      · have horigins := h.origins
        show ((w.movedMoves d _ _).map Prod.fst).Nodup
        rw [hmoved]
        rw [hmoves] at horigins
        split
        · refine horigins.sublist (List.Sublist.map _ ?_)
          exact (List.sublist_cons_self m after).append_left before
        · rw [List.map_append, List.map_cons] at horigins ⊢
          exact horigins
      · show ((w.movedMoves d _ _).map Prod.fst).Nodup
        rw [hmoved]
        split
        · rename_i hreal
          rw [List.map_append, List.nodup_append]
          refine ⟨h.origins, List.nodup_singleton _, ?_⟩
          rintro k hk j hj rfl
          obtain ⟨m, hm, rfl⟩ := List.mem_map.mp hk
          -- A new move has an origin of its own: no recorded move left the same place.
          exact ne_fst_of_isReal hreal m hm (List.mem_singleton.mp hj)
        · exact h.origins
    · intro n hn
      rcases mem_movedMoves hn with hn | ⟨-, ⟨m, hm, heq⟩ | ⟨heq, hnone, hreal⟩⟩
      · exact h.files n hn
      · rw [← heq]
        exact h.files m hm
      · -- A file really on disk was seen through the directory moves, at the key before them.
        rw [isReal, Bool.and_eq_true, onDisk, diskKey?_of_not_target hnone, ← heq] at hreal
        show (beforeDirMoves w.dirMoves.reverse n.1).any (fun k => d.isFile (w.place k)) = true
        cases hbefore : beforeDirMoves w.dirMoves.reverse n.1 with
        | none =>
            rw [hbefore] at hreal
            cases hreal.2
        | some k =>
            rw [hbefore] at hreal
            exact hreal.2
  · rw [happly]
    exact h

/-! ### Keys carried along with a directory -/

section Carried

variable {a : String} {moves : List (String × String)} (ho : Inside o) (ht : Inside t)
  (hkey : Inside key)

/-- A key that is not under a directory does not begin with it. -/
theorem replacePrefix?_of_not_under (h : isUnder key o = false) (new : String) :
    replacePrefix? key o new = none := by
  rw [isUnder, Option.isSome_eq_false_iff, Option.isNone_iff_eq_none] at h
  rw [replacePrefix?, h, Option.map_none]

/-- A key under a directory begins with it. -/
theorem replacePrefix?_of_isUnder (h : isUnder key o = true) (new : String) :
    replacePrefix? key o new = some (carried o new key) := by
  obtain ⟨rest, hrest⟩ := Option.isSome_iff_exists.mp h
  rw [carried, replacePrefix?, hrest]
  rfl

include ho ht hkey

/-- What is carried along to one directory and from there to another is
carried to the latter. -/
theorem carried_carried (ha : Inside a) (h : isUnder key o = true) :
    carried t a (carried o t key) = carried o a key := by
  obtain ⟨names, -, hnames, rfl⟩ := hkey
  obtain ⟨os, hosne, hos, rfl⟩ := ho
  obtain ⟨ts, htsne, hts, rfl⟩ := ht
  obtain ⟨as, hasne, has, rfl⟩ := ha
  obtain ⟨rest, rfl⟩ := (isUnder_ofNames hnames hos).mp h
  have hall : ∀ n ∈ ts ++ rest, IsName n :=
    List.forall_mem_append.mpr ⟨hts, (List.forall_mem_append.mp hnames).2⟩
  rw [carried_ofNames hosne hos htsne hts hnames, carried_ofNames hosne hos hasne has hnames,
    if_pos (List.prefix_append _ _), if_pos (List.prefix_append _ _), List.drop_left,
    carried_ofNames htsne hts hasne has hall, if_pos (List.prefix_append _ _), List.drop_left]

/-- A move of a directory that goes on to another target takes the keys
along from where they came, also if it goes back and is dropped. -/
theorem beforeDirMoves_carried (ha : Inside a)
    (hfree : isUnder key o = false → isUnder key t = false) :
    beforeDirMoves ((a, t) :: moves) (carried o t key) = beforeDirMoves ((a, o) :: moves) key ∧
      (a = t → beforeDirMoves moves (carried o t key) = beforeDirMoves ((a, o) :: moves) key) := by
  cases hunder : isUnder key o with
  | true =>
      have hbelow := isUnder_carried ho ht hkey hunder
      rw [beforeDirMoves, beforeDirMoves, replacePrefix?_of_isUnder hunder,
        replacePrefix?_of_isUnder hbelow, carried_carried ho ht hkey ha hunder]
      exact ⟨rfl, fun hback => by rw [hback]⟩
  | false =>
      rw [carried_of_not_under hunder, beforeDirMoves, beforeDirMoves,
        replacePrefix?_of_not_under hunder, replacePrefix?_of_not_under (hfree hunder)]
      refine ⟨rfl, ?_⟩
      rintro rfl
      dsimp only
      rw [hfree hunder]
      rfl

omit ht in
/-- A move of a directory to itself says nothing. -/
theorem beforeDirMoves_self : beforeDirMoves ((o, o) :: moves) key = beforeDirMoves moves key := by
  cases hunder : isUnder key o with
  | true =>
      have hself : carried o o key = key := by
        obtain ⟨names, -, hnames, rfl⟩ := hkey
        obtain ⟨os, hosne, hos, rfl⟩ := ho
        rw [carried_ofNames hosne hos hosne hos hnames]
        obtain ⟨rest, rfl⟩ := (isUnder_ofNames hnames hos).mp hunder
        rw [if_pos (List.prefix_append _ _), List.drop_left]
      rw [beforeDirMoves, replacePrefix?_of_isUnder hunder, hself]
  | false =>
      rw [beforeDirMoves, replacePrefix?_of_not_under hunder]
      dsimp only
      rw [hunder]
      rfl

/-- Two keys of which neither is below the other stay so if neither is
above or below the target. -/
theorem not_isUnder_carried {j : String} (hj : Inside j) (hnot : isUnder key j = false)
    (hfree : ∀ k, k = key ∨ k = j → isUnder k t = false ∧ isUnder t k = false) :
    isUnder (carried o t key) (carried o t j) = false := by
  obtain ⟨hkt, -⟩ := hfree key (.inl rfl)
  obtain ⟨hjt, htj⟩ := hfree j (.inr rfl)
  cases hko : isUnder key o with
  | true =>
      obtain ⟨names, -, hnames, rfl⟩ := hkey
      obtain ⟨js, -, hjs, rfl⟩ := hj
      obtain ⟨os, hosne, hos, rfl⟩ := ho
      obtain ⟨ts, htsne, hts, rfl⟩ := ht
      obtain ⟨rest, rfl⟩ := (isUnder_ofNames hnames hos).mp hko
      have hrest : ∀ n ∈ ts ++ rest, IsName n :=
        List.forall_mem_append.mpr ⟨hts, (List.forall_mem_append.mp hnames).2⟩
      rw [carried_ofNames hosne hos htsne hts hnames, carried_ofNames hosne hos htsne hts hjs,
        if_pos (List.prefix_append _ _), List.drop_left]
      rw [Bool.eq_false_iff, Ne, isUnder_ofNames hnames hjs] at hnot
      rw [Bool.eq_false_iff, Ne, isUnder_ofNames hjs hts] at hjt
      rw [Bool.eq_false_iff, Ne, isUnder_ofNames hts hjs] at htj
      split
      · -- Both go below the target, with their names behind the origin.
        rename_i hjo
        obtain ⟨rest', rfl⟩ := hjo
        have hrest' : ∀ n ∈ ts ++ rest', IsName n :=
          List.forall_mem_append.mpr ⟨hts, (List.forall_mem_append.mp hjs).2⟩
        rw [List.drop_left, Bool.eq_false_iff, Ne, isUnder_ofNames hrest hrest']
        rw [List.prefix_append_right_inj] at hnot ⊢
        exact hnot
      · rw [Bool.eq_false_iff, Ne, isUnder_ofNames hrest hjs]
        intro hpre
        rcases List.prefix_or_prefix_of_prefix hpre (List.prefix_append ts rest) with h | h
        · exact htj h
        · exact hjt h
  | false =>
      rw [carried_of_not_under hko]
      cases hjo : isUnder j o with
      | true =>
          refine Bool.eq_false_iff.mpr fun hunder => ?_
          rw [isUnder_trans hunder (isUnder_carried ho ht hj hjo)] at hkt
          cases hkt
      | false =>
          rw [carried_of_not_under hjo]
          exact hnot

end Carried

/-- Files that are not moved twice are not when a directory is moved to
where none was moved away. -/
theorem nodup_carried {moves : List (String × String)} (ho : Inside o) (ht : Inside t)
    (h : (moves.map Prod.fst).Nodup) (hinside : ∀ m ∈ moves, Inside m.1)
    (hfree : ∀ m ∈ moves, isUnder m.1 t = false) :
    ((moves.map fun m => (carried o t m.1, carried o t m.2)).map Prod.fst).Nodup := by
  rw [List.nodup_iff_pairwise_ne, List.pairwise_map] at h ⊢
  rw [List.pairwise_map]
  refine h.imp_of_mem fun {m n} hm hn hne heq => ?_
  have hnot : ∀ k, k ∈ moves.map Prod.fst → isUnder k t ≠ true := by
    intro k hk hunder
    obtain ⟨m, hm, rfl⟩ := List.mem_map.mp hk
    rw [hfree m hm] at hunder
    cases hunder
  have hm1 := hinside m hm
  have hn1 := hinside n hn
  rcases ((merges_iff ho ht hm1 hn1).mp ⟨hne, heq⟩).2 with ⟨hunder, -, hto⟩ | ⟨hunder, -, hto⟩
  · exact hnot n.1 (List.mem_map_of_mem hn) (hto ▸ isUnder_carried ho ht hm1 hunder)
  · exact hnot m.1 (List.mem_map_of_mem hm) (hto ▸ isUnder_carried ho ht hn1 hunder)

/-- A directory move that goes on from the last one, or is a new one of
something that was there, is the last one, or goes back and is dropped. -/
theorem Found.exists_last (h : w.Found d) (ho : Inside o) (hin : KeysInside w)
    (hlast : ∀ m ∈ w.dirMoves.dropLast, m.2 ≠ o)
    (hnew : (∀ m ∈ w.dirMoves, m.2 ≠ o) → w.stood d o = true) :
    ∃ before a, Inside a ∧ before <+: w.dirMoves ∧
      (beforeDirMoves before.reverse a).any (fun k => d.occupied (w.place k)) = true ∧
      (∀ key, Inside key → beforeDirMoves w.dirMoves.reverse key
        = beforeDirMoves ((a, o) :: before.reverse) key) ∧
      (w.movedDirMoves o t = before ++ [(a, t)] ∨ (a = t ∧ w.movedDirMoves o t = before)) := by
  unfold movedDirMoves
  cases hcontinue : continueMove w.dirMoves o t with
  | none =>
      -- No move ended at the origin, so this is a new one.
      have hnone := continueMove_eq_none_iff.mp hcontinue
      exact ⟨w.dirMoves, o, ho, List.prefix_rfl, hnew hnone,
        fun key hkey => (beforeDirMoves_self ho hkey).symm, .inl rfl⟩
  | some moves =>
      obtain ⟨before, ⟨a, o'⟩, after, hmoves, rfl, hmoved⟩ := continueMove_eq_some hcontinue
      -- The continued move is the last one, as no earlier one ends at the origin.
      have hafter : after = [] := by
        by_contra hne
        refine hlast (a, o') ?_ rfl
        rw [hmoves, List.dropLast_append_of_ne_nil (List.cons_ne_nil _ _)]
        refine List.mem_append_right _ ?_
        rw [List.dropLast_cons_of_ne_nil hne]
        exact List.mem_cons_self
      subst hafter
      have hprefix : before ++ [(a, o')] <+: w.dirMoves := by rw [hmoves]
      refine ⟨before, a, (hin.dirMoves (a, o') (by rw [hmoves]; simp)).1,
        (List.prefix_append _ _).trans hprefix, h.dirMoves _ _ hprefix, fun key _ => ?_, ?_⟩
      · rw [hmoves, List.reverse_append]
        rfl
      · dsimp only
        rw [hmoved]
        -- A move back to where it began is dropped.
        by_cases hback : a = t
        · rw [if_pos hback]
          exact .inr ⟨hback, List.append_nil _⟩
        · rw [if_neg hback]
          exact .inl rfl

/-- What a directory move carries along comes from where it came from
before. -/
theorem any_beforeDirMoves_carried {before : List (String × String)} {a : String} (ho : Inside o)
    (ht : Inside t) (ha : Inside a)
    (hsame : ∀ key, Inside key → beforeDirMoves w.dirMoves.reverse key
      = beforeDirMoves ((a, o) :: before.reverse) key)
    (hmoved : w.movedDirMoves o t = before ++ [(a, t)] ∨ (a = t ∧ w.movedDirMoves o t = before))
    (hkey : Inside key) (hfree : isUnder key o = false → isUnder key t = false)
    {p : String → Bool} (hp : (beforeDirMoves w.dirMoves.reverse key).any p = true) :
    (beforeDirMoves (w.movedDirMoves o t).reverse (carried o t key)).any p = true := by
  obtain ⟨k, hk, hp⟩ := (Option.any_eq_true _ _).mp hp
  rw [hsame key hkey] at hk
  obtain ⟨hon, hback⟩ := @beforeDirMoves_carried _ _ _ _ before.reverse ho ht hkey ha hfree
  refine (Option.any_eq_true _ _).mpr ⟨k, ?_, hp⟩
  rcases hmoved with hmoved | ⟨heq, hmoved⟩
  · rw [hmoved, List.reverse_append]
    exact hon.trans hk
  · rw [hmoved]
    exact (hback heq).trans hk

/-- A directory move that misses nothing, and lets nothing be missed, finds
its directory. -/
theorem Found.moveDir (h : w.Found d) (hin : KeysInside w) {origin target : String}
    (ho : Inside (w.key origin)) (ht : Inside (w.key target))
    (hsafe : ¬ w.Endangers d (.moveDir origin target))
    (hc : ¬ w.Misses d (.moveDir origin target)) :
    (w.apply d (.moveDir origin target)).Found d := by
  have hspares := (spares_moveDir_iff h.spares origin target).mpr hsafe
  rcases apply_moveDir_cases d w origin target with ⟨hok, happly⟩ | ⟨-, happly⟩
  · rw [happly] at hspares ⊢
    rw [Misses, hok] at hc
    simp only [not_and, not_or, not_exists, Except.toOption, Option.isSome_some, true_implies] at hc
    obtain ⟨hlast, hnew, hdeletions, hmoves⟩ := hc
    obtain ⟨before, a, ha, hbefore, hstood, hsame, hmoved⟩ := h.exists_last (t := w.key target) ho
      hin hlast fun hnone => by simpa using hnew hnone
    have hfree : ∀ k ∈ w.deletions.keys,
        isUnder k (w.key target) = false ∧ isUnder (w.key target) k = false := fun k hk => by
      simpa using hdeletions k hk
    refine ⟨?_, fun k hk => ?_, fun k hk j hj hne => ?_, ?_, fun n hn => ?_, hspares⟩
    · -- A recorded move is one from before, or the last one, which starts at what stood.
      intro front m hfront
      have hfront : front ++ [m] <+: w.movedDirMoves (w.key origin) (w.key target) := hfront
      rcases hmoved with hmoved | ⟨-, hmoved⟩
      · rw [hmoved, List.prefix_concat_iff] at hfront
        rcases hfront with hfront | hfront
        · obtain ⟨rfl, hm⟩ := List.append_inj' hfront rfl
          cases hm
          exact hstood
        · exact h.dirMoves front m (hfront.trans hbefore)
      · exact h.dirMoves front m (hmoved ▸ hfront |>.trans hbefore)
    · obtain ⟨j, hj, rfl⟩ := (Table.mem_keys_mapKeys _ _ _).mp hk
      exact any_beforeDirMoves_carried ho ht ha hsame hmoved (hin.deletions j hj)
        (fun _ => (hfree j hj).1) (h.deletions j hj)
    · -- Deletions are re-keyed together, so none comes above another.
      obtain ⟨k, hk', rfl⟩ := (Table.mem_keys_mapKeys _ _ _).mp hk
      obtain ⟨j, hj', rfl⟩ := (Table.mem_keys_mapKeys _ _ _).mp hj
      have hjk : j ≠ k := fun heq => hne (by rw [heq])
      refine not_isUnder_carried ho ht (hin.deletions k hk') (hin.deletions j hj')
        (h.apart k hk' j hj' hjk) ?_
      rintro i (rfl | rfl)
      · exact hfree i hk'
      · exact hfree i hj'
    · exact nodup_carried ho ht h.origins (fun m hm => (hin.moves m hm).1) fun m hm => by
        simpa using hmoves m hm
    · obtain ⟨m, hm, rfl⟩ := List.mem_map.mp hn
      exact any_beforeDirMoves_carried ho ht ha hsame hmoved (hin.moves m hm).1
        (fun _ => by simpa using hmoves m hm) (h.files m hm)
  · rw [happly]
    exact h

/-- A call that misses nothing, and lets nothing be missed, keeps what is
recorded found. -/
theorem Found.apply (h : w.Found d) (hin : KeysInside w) {c : Call}
    (hpaths : ∀ p ∈ c.paths, Inside (w.key p)) (hsafe : ¬ w.Endangers d c)
    (hc : ¬ w.Misses d c) : (w.apply d c).Found d := by
  -- A call that neither moves nor deletes takes back a deletion at most.
  have hothers := moves_apply (w := w) (d := d) (c := c)
  cases c with
  | delete path mode => exact h.delete hsafe hc
  | moveFile origin target => exact h.moveFile hsafe
  | moveDir origin target =>
      exact h.moveDir hin (hpaths _ (by simp [Call.paths])) (hpaths _ (by simp [Call.paths]))
        hsafe hc
  | put path text =>
      obtain ⟨hmoves, hdirMoves, hdeletions⟩ := hothers rfl rfl
      exact h.mono (root_apply ..) hmoves hdirMoves hdeletions
  | save path text =>
      obtain ⟨hmoves, hdirMoves, hdeletions⟩ := hothers rfl rfl
      exact h.mono (root_apply ..) hmoves hdirMoves hdeletions
  | mkdir path =>
      obtain ⟨hmoves, hdirMoves, hdeletions⟩ := hothers rfl rfl
      exact h.mono (root_apply ..) hmoves hdirMoves hdeletions
  | content path =>
      obtain ⟨text, -, happly⟩ | happly := apply_content_cases d w path
      · rw [happly]
        exact h.mono rfl rfl rfl fun k hk => hk
      · rw [happly]
        exact h
  | invalidate path =>
      rw [Workspace.apply, invalidate]
      split
      · exact h
      · exact h.mono rfl rfl rfl fun k hk => hk

/-! ### Flushes without warnings -/

/-- A key stands behind moves where something stood where it came from. -/
theorem standsBehind_of_before {base : String → Bool} {moves : List (String × String)} {k : String}
    (h : beforeDirMoves moves key = some k) (hbase : base k = true) :
    standsBehind base moves key = true := by
  induction moves generalizing key with
  | nil =>
      cases h
      exact hbase
  | cons m moves ih =>
      rw [beforeDirMoves] at h
      rw [standsBehind]
      cases hkey : replacePrefix? key m.2 m.1 with
      | some k' =>
          rw [hkey] at h
          exact ih h
      | none =>
          rw [hkey] at h
          dsimp only at h ⊢
          split at h
          · cases h
          · rename_i hout
            simp [hout, ih h]

/-- No move is lost if each finds something behind those before it. -/
theorem lost_eq_nil {base : String → Bool} {found moves : List (String × String)}
    (h : ∀ before m, before ++ [m] <+: moves →
      standsBehind base (before.reverse ++ found) m.1 = true) :
    lost base found moves = [] ∧
      moves.foldl (withFound base) found = moves.reverse ++ found := by
  induction moves generalizing found with
  | nil => exact ⟨rfl, rfl⟩
  | cons m moves ih =>
      have hfirst : standsBehind base found m.1 = true := by simpa using h [] m (by simp)
      have hrest : ∀ before n, before ++ [n] <+: moves →
          standsBehind base (before.reverse ++ m :: found) n.1 = true := by
        intro before n hn
        have hnext := h (m :: before) n (by simpa using hn)
        rw [List.reverse_cons, List.append_assoc, List.singleton_append] at hnext
        exact hnext
      obtain ⟨hnil, hall⟩ := ih hrest
      have hwith : withFound base found m = m :: found := if_pos hfirst
      rw [lost, List.foldl_cons, hwith, if_pos hfirst, hall]
      exact ⟨hnil, by simp⟩

/-- A file that is there still is behind the move of another file. -/
theorem isSome_bytes?_movedOn {m : String × String} {bytes : List UInt8} {q : Place}
    (hd : d.IsTree) (hfile : d.bytes? (w.place m.1) = some bytes) (hne : q ≠ w.place m.1)
    (h : w.movedOn d m = some d') (hq : (d.bytes? q).isSome = true) :
    (d'.bytes? q).isSome = true := by
  by_cases hself : w.place m.1 = w.place m.2
  · rw [movedOn, if_pos (Disk.occupied_of_bytes? hfile)] at h
    obtain ⟨d₁, hparent, hrename⟩ := Option.bind_eq_some_iff.mp h
    rw [Disk.rename, if_pos hself] at hrename
    split at hrename <;> cases hrename
    rw [Disk.bytes?_makeDirs hparent]
    exact hq
  · rw [(bytes?_movedOn hd hfile hself h).2 q]
    split
    · rfl
    · exact hq

/-- Moves of files that are all there do not warn. -/
theorem told_moves_of_files {moves : List (String × String)} (hd : d.IsTree)
    (hinside : ∀ m ∈ moves, Inside m.1) (hnodup : (moves.map Prod.fst).Nodup)
    (hfiles : ∀ m ∈ moves, (d.bytes? (w.place m.1)).isSome = true) :
    told w.movedOn w.moveWarning d moves = [] := by
  induction moves generalizing d with
  | nil => rfl
  | cons m moves ih =>
      obtain ⟨hm, hinside⟩ := List.forall_mem_cons.mp hinside
      obtain ⟨hfile, hfiles⟩ := List.forall_mem_cons.mp hfiles
      obtain ⟨hnot, hnodup⟩ := List.nodup_cons.mp hnodup
      obtain ⟨bytes, hbytes⟩ := Option.isSome_iff_exists.mp hfile
      rw [told, moveWarning, if_pos (Disk.occupied_of_bytes? hbytes), List.nil_append]
      cases hmoved : w.movedOn d m with
      | none => rfl
      | some d' =>
          refine ih (isTree_movedOn hd hmoved) hinside hnodup fun n hn => ?_
          refine isSome_bytes?_movedOn hd hbytes (fun heq => hnot ?_) hmoved (hfiles n hn)
          rw [← (w.place_inj (hinside n hn).within hm.within).mp heq]
          exact List.mem_map_of_mem hn

/-- Where what is recorded is found, a flush does not warn. -/
theorem Found.warnings_eq_nil (h : w.Found d) (hin : KeysInside w)
    (hdirs : ∀ k ∈ w.dirs.toList, Inside k) (hascending : w.deletions.IsAscending)
    (hd : d.IsTree) {report : Report}
    (hreport : (w.flush d).report? = some report) : report.warnings = [] := by
  -- What is found before the directory moves is still found behind them.
  have hbefore : ∀ moves key, (beforeDirMoves moves key).any (fun k => d.occupied (w.place k)) →
      standsBehind (w.standsFirst d) moves key = true := by
    intro moves key hany
    obtain ⟨k, hk, hocc⟩ := (Option.any_eq_true _ _).mp hany
    exact standsBehind_of_before hk (by rw [standsFirst, hocc, Bool.true_or])
  obtain ⟨hlost, hall⟩ := @lost_eq_nil (w.standsFirst d) [] w.dirMoves fun before m hm => by
    rw [List.append_nil]
    exact hbefore _ _ (h.dirMoves before m hm)
  obtain ⟨d₁, d₂, hcreated, hdirMoved, -, hwarnings⟩ := warnings_flush hreport
  obtain ⟨hstand, htold⟩ := stand_dirMoves hin hdirs hd hcreated hdirMoved
  -- A deletion is told only if its key is gone or another deletion takes it along.
  have hdeletions : w.deletions.keys.filter (fun k => w.isBelowDeletion k || !w.standsMoved d k)
      = [] := by
    refine List.filter_eq_nil_iff.mpr fun k hk => ?_
    have hthere : w.standsMoved d k = true := by
      rw [standsMoved, hall, List.append_nil]
      exact hbefore _ _ (h.deletions k hk)
    have hbelow : w.isBelowDeletion k = false := by
      refine List.any_eq_false.mpr fun j hj hunder => ?_
      obtain ⟨hne, hunder⟩ := Bool.and_eq_true_iff.mp hunder
      rw [h.apart k hk j hj (of_decide_eq_true hne)] at hunder
      cases hunder
    simp [hthere, hbelow]
  have hcleared : w.cleared d = some (w.deletions.keys.foldl w.deletedOn d₂) := by
    rw [cleared, hcreated, Option.bind_eq_bind, Option.bind_some, hdirMoved]
    rfl
  obtain ⟨htree, hfiles⟩ := hin.bytes?_cleared hd hcleared
  -- Each file is there when its move comes: it was found, and no deletion is above it.
  have hmoves : told w.movedOn w.moveWarning (w.deletions.keys.foldl w.deletedOn d₂) w.moves
      = [] := by
    refine told_moves_of_files htree (fun m hm => (hin.moves m hm).1) h.origins fun m hm => ?_
    obtain ⟨k, hk, hfile⟩ := (Option.any_eq_true _ _).mp (h.files m hm)
    obtain ⟨bytes, hbytes⟩ := Option.isSome_iff_exists.mp hfile
    have hspared : w.deletions.keys.any (isUnder m.1) = false :=
      List.any_eq_false.mpr fun j hj => by simp [h.spares m hm j hj]
    rw [hfiles m.1 k bytes (hin.moves m hm).1 hk hbytes, hspared]
    rfl
  rw [hwarnings, htold, hlost, hmoves, hstand.told_deletions hin.deletions hascending, hdeletions]
  rfl

/-! ### Runs -/

/-- Every call keeps the deletions in order. -/
theorem isAscending_apply (h : w.deletions.IsAscending) (c : Call) :
    (w.apply d c).deletions.IsAscending := by
  cases c with
  | delete path mode =>
      -- The origins of the files moved to below the key are deleted in their place.
      have hfold : ∀ (moves : List (String × String)) (t : Table DeleteMode), t.IsAscending →
          (moves.foldl (fun t m => t.insert m.1 mode) t).IsAscending := by
        intro moves
        induction moves with
        | nil => exact fun t ht => ht
        | cons m moves ih => exact fun t ht => ih _ (ht.insert m.1 mode)
      simp only [Workspace.apply, delete]
      split
      · exact hfold _ _ h
      · exact (hfold _ _ h).insert _ _
  | moveFile origin target =>
      rcases apply_moveFile_cases d w origin target with ⟨-, happly⟩ | ⟨-, happly⟩
      · rw [happly]
        exact h
      · rw [happly]
        exact h
  | moveDir origin target =>
      rcases apply_moveDir_cases d w origin target with ⟨-, happly⟩ | ⟨-, happly⟩
      · rw [happly]
        -- The table is built anew with the moved keys.
        exact Table.isAscending_mapKeys _ _
      · rw [happly]
        exact h
  | put path text => exact h.filterKeys _
  | save path text => exact h.filterKeys _
  | mkdir path => exact h.filterKeys _
  | content path =>
      obtain ⟨text, -, happly⟩ | happly := apply_content_cases d w path
      · rw [happly]
        exact h
      · rw [happly]
        exact h
  | invalidate path =>
      rw [Workspace.apply, invalidate]
      split
      · exact h
      · exact h

/-- What is recorded stays found in a run of which no call misses
something or lets something be missed. -/
theorem Found.run (h : w.Found d) (hin : KeysInside w) {calls : List Call}
    (hpaths : ∀ c ∈ calls, ∀ p ∈ c.paths, Inside (w.key p))
    (hfinds : ∀ before c, before ++ [c] <+: calls →
      ¬ (w.run d before).Endangers d c ∧ ¬ (w.run d before).Misses d c) :
    (w.run d calls).Found d := by
  induction calls generalizing w with
  | nil => exact h
  | cons c calls ih =>
      obtain ⟨hc, hpaths⟩ := List.forall_mem_cons.mp hpaths
      obtain ⟨hsafe, hfind⟩ := hfinds [] c (by simp)
      have hkey : (w.apply d c).key = w.key := key_congr (root_apply ..)
      refine ih (h.apply hin hc hsafe hfind) (hin.apply hc) ?_ fun before c' hpre => ?_
      · rw [hkey]
        exact hpaths
      · exact hfinds (c :: before) c' (by simpa using hpre)

/-- **A flush warns of what finds nothing, and of nothing where every call
finds what it is for.** Behind a run with paths inside the project, the
report of a flush that goes through has exactly the warnings that can be
told from the staged changes and the disk. It has none if no call of the
run endangers a file to be moved, deletes what was not on disk or what is
above or below another deletion, moves a directory that was not on disk,
goes on with another move of a directory than the last, or moves one to
where something is deleted or was moved away. -/
theorem warnings_flush_run {d : Disk} (hd : d.IsTree) (root : String) (settings : Settings)
    (filter : PathFilter) (calls : List Call) :
    let new := ofFilter root settings filter
    let w := new.run d calls
    (∀ c ∈ calls, ∀ p ∈ c.paths, new.key p ≠ "" ∧ leaves (new.key p) = false) →
    ∀ report, (w.flush d).report? = some report →
      report.warnings = w.unfound d ∧
      ((∀ before c, before ++ [c] <+: calls →
          ¬ (new.run d before).Endangers d c ∧ ¬ (new.run d before).Misses d c) →
        report.warnings = []) := by
  intro new w hpaths report hreport
  have hcalls : ∀ c ∈ calls, ∀ p ∈ c.paths, Inside (new.key p) :=
    fun c hc p hp => inside_key (hpaths c hc p hp).1 (hpaths c hc p hp).2
  have hnew : KeysInside new := keysInside_ofFilter root settings filter
  have hin : KeysInside w := keysInside_run hnew hcalls
  have hdirs := (stagedInside_run (d := d) (stagedInside_ofFilter root settings filter) hcalls).dirs
  have hascending : w.deletions.IsAscending :=
    run_induction (P := fun w => w.deletions.IsAscending)
      (fun v hv c _ => isAscending_apply hv c) Table.isAscending_empty
  refine ⟨warnings_eq_unfound hin hdirs hascending hd hreport, fun hfinds => ?_⟩
  have hfound := (found_ofFilter d root settings filter).run hnew hcalls hfinds
  exact hfound.warnings_eq_nil hin hdirs hascending hd hreport

/-- A project with two files in a directory, and one outside. -/
def threeScripts : Disk :=
  ⟨[(["root"], .dir), (["root", "a"], .dir),
    (["root", "a", "x.js"], .file (Disk.bytesOf "x\n")),
    (["root", "a", "y.js"], .file (Disk.bytesOf "y\n")),
    (["root", "c.js"], .file (Disk.bytesOf "c\n"))]⟩

/-- The directory is moved, a file is moved out of it and written, and both
others are deleted. -/
def carriedOut : List Call :=
  [.moveDir "a" "b", .moveFile "b/x.js" "x.js", .save "x.js" "z\n", .delete "c.js" .warn,
    .delete "b/y.js" .warn]

/-- All is found. -/
theorem warnings_flush_run_carriedOut :
    let w := (ofFilter "/root" Settings.default PathFilter.showAll).run threeScripts carriedOut
    threeScripts.IsTree ∧ ∃ report, (w.flush threeScripts).report? = some report ∧
      report.map Record.action = [.move, .delete, .delete, .move, .update] ∧
      report.warnings = [] := by
  intro w
  have htree : threeScripts.IsTree := by decide
  obtain ⟨report, hreport⟩ := Option.isSome_iff_exists.mp
    (show (w.flush threeScripts).report?.isSome = true by decide +kernel)
  have hactions : (w.flush threeScripts).report?.map (fun r => List.map Record.action r)
      = some [.move, .delete, .delete, .move, .update] := by decide +kernel
  rw [hreport] at hactions
  have hfinds := (forall_concat_prefix_iff carriedOut (P := fun before c =>
    let v := (ofFilter "/root" Settings.default PathFilter.showAll).run threeScripts before
    ¬ v.Endangers threeScripts c ∧ ¬ v.Misses threeScripts c)).mpr (by decide +kernel)
  exact ⟨htree, report, hreport, Option.some.inj hactions,
    (warnings_flush_run htree "/root" Settings.default PathFilter.showAll carriedOut
      (by decide +kernel) report hreport).2 hfinds⟩

/-- The call deletes what the view shows, or makes a move that goes
through, or neither deletes nor moves. -/
def Succeeds (w : Workspace) (d : Disk) : Call → Prop
  | .delete path _ => w.fileExists d (w.key path) = true ∨ w.dirExists d (w.key path) = true
  | .moveFile origin target => (w.moveFile d origin target).toOption.isSome = true
  | .moveDir origin target => (w.moveDir d origin target).toOption.isSome = true
  | _ => True

instance (w : Workspace) (d : Disk) : (c : Call) → Decidable (w.Succeeds d c)
  | .delete .. => inferInstanceAs (Decidable (_ ∨ _))
  | .moveFile .. | .moveDir .. => inferInstanceAs (Decidable (_ = true))
  | .put .. | .save .. | .mkdir .. | .content .. | .invalidate .. =>
    inferInstanceAs (Decidable True)

/-- A file and then its directory are deleted; a staged file is deleted; a
staged directory is moved; and a file is moved out of a directory, which is
deleted. -/
def warnedOf : List (List Call) :=
  [[.delete "a/x.js" .warn, .delete "a" .warn], [.save "n.js" "n\n", .delete "n.js" .warn],
    [.mkdir "n", .moveDir "n" "m"], [.moveFile "a/x.js" "y.js", .delete "a" .warn]]

/-- A flush warns although each deletion was of what the view showed, and
each move went through: below another deletion nothing is left to delete,
what was only staged was never on disk, and a deletion comes before the
move of a file. -/
theorem flush_warns_of_successes :
    let new := ofFilter "/root" Settings.default PathFilter.showAll
    oneFile.IsTree ∧
    (∀ calls ∈ warnedOf, ∀ i : Fin calls.length,
      (new.run oneFile (calls.take i)).Succeeds oneFile calls[i]) ∧
    warnedOf.map (fun calls => ((new.run oneFile calls).flush oneFile).report?.map Report.warnings)
      = [some [.ofPath .deleteMissing "a/x.js"], some [.ofPath .deleteMissing "n.js"],
        some [.ofMove .moveMissing "n" "m"], some [.ofMove .moveMissing "a/x.js" "y.js"]] := by
  decide +kernel

end ScriptRefactor.Workspace
