import ScriptRefactor.Proofs.Workspace.Course
import ScriptRefactor.Proofs.Workspace.FlushFinds
import ScriptRefactor.Proofs.Workspace.MovedView
import ScriptRefactor.Proofs.Workspace.ViewTree

/-!
# `ScriptRefactor.Proofs.Workspace.DirMoveView`: the view behind a directory move

What the view shows below a directory it shows below the target once the
directory is moved, and what it shows elsewhere stays
(`moveDir_translates`), as long as nothing that is recorded hinders the move
(`Unhindered`):

* nothing is deleted, and no file was moved away, where the directory goes,
  and what is deleted above the target is deleted above the directory too;
* if an earlier move to the directory goes on, the moves behind it keep away
  from both places, and the disk had nothing where it first went.

A move that goes on takes the place of the earlier one in the list, but the
moves behind it were recorded for what stood there before. So two directories
that are to change places are both lost (`moveDir_swap_loses_files`), and so
are files for other reasons (`moveDir_hindered_loses_files`).
-/

set_option autoImplicit false

namespace ScriptRefactor.Workspace

open ScriptRefactor.Path

variable {w : Workspace} {d : Disk} {o t key : String}

/-! ### Directories above a key -/

/-- Of two directories above a key one is above the other. -/
theorem isUnder_or_isUnder {a b : String} (hkey : Within key) (ha : isUnder key a = true)
    (hb : isUnder key b = true) : isUnder a b = true ∨ isUnder b a = true := by
  obtain ⟨names, hnames, rfl⟩ := hkey
  obtain ⟨as, hapre, rfl⟩ := exists_prefix_of_isUnder hnames ha
  obtain ⟨bs, hbpre, rfl⟩ := exists_prefix_of_isUnder hnames hb
  have has : ∀ n ∈ as, IsName n := fun n hn => hnames n (hapre.subset hn)
  have hbs : ∀ n ∈ bs, IsName n := fun n hn => hnames n (hbpre.subset hn)
  rw [isUnder_ofNames has hbs, isUnder_ofNames hbs has]
  exact (List.prefix_or_prefix_of_prefix hapre hbpre).symm

/-- Two keys that are above each other are one. -/
theorem isUnder_antisymm {a b : String} (ha : Within a) (hab : isUnder a b = true)
    (hba : isUnder b a = true) : a = b := by
  obtain ⟨as, has, rfl⟩ := ha
  obtain ⟨bs, hpre, rfl⟩ := exists_prefix_of_isUnder has hab
  have hbs : ∀ n ∈ bs, IsName n := fun n hn => has n (hpre.subset hn)
  have hlength := ((isUnder_ofNames hbs has).mp hba).length_le
  rw [hpre.eq_of_length_le hlength]

/-- Neither of two directories is above the other. -/
def Apart (a b : String) : Prop := isUnder a b = false ∧ isUnder b a = false

instance (a b : String) : Decidable (Apart a b) := inferInstanceAs (Decidable (_ ∧ _))

theorem Apart.symm {a b : String} (h : Apart a b) : Apart b a := ⟨h.2, h.1⟩

/-- A key is below one of them at most. -/
theorem Apart.not_under {a b : String} (h : Apart a b) (hkey : Within key)
    (ha : isUnder key a = true) : isUnder key b = false := by
  by_contra hb
  obtain hab | hba := isUnder_or_isUnder hkey ha (Bool.not_eq_false _ ▸ hb)
  · exact Bool.eq_false_iff.mp h.1 hab
  · exact Bool.eq_false_iff.mp h.2 hba

/-! ### Keys that a directory move leaves their places -/

/-- The place of the key is not taken when the directory is moved: it is not
where the directory goes, or goes along. -/
def Untaken (o t key : String) : Prop := isUnder key t = true → isUnder key o = true

/-- What does not go along is not where the directory goes. -/
theorem Untaken.not_under (h : Untaken o t key) (hout : isUnder key o = false) :
    isUnder key t = false := by
  rw [← Bool.not_eq_true] at hout ⊢
  exact mt h hout

section Untaken

variable (ho : Inside o) (ht : Inside t)

include ho ht

/-- Keys whose places are not taken are told apart where they are carried. -/
theorem carried_inj_of_untaken {j k : String} (hj : Inside j) (hk : Inside k)
    (hjfree : Untaken o t j) (hkfree : Untaken o t k) :
    carried o t j = carried o t k ↔ j = k := by
  refine ⟨not_merges_iff.mp fun hmerges => ?_, congrArg _⟩
  obtain ⟨-, ⟨hunder, hnot, heq⟩ | ⟨hunder, hnot, heq⟩⟩ := (merges_iff ho ht hj hk).mp hmerges
  · have hk' := hkfree (heq ▸ isUnder_carried ho ht hj hunder)
    exact Bool.eq_false_iff.mp hnot hk'
  · have hj' := hjfree (heq ▸ isUnder_carried ho ht hk hunder)
    exact Bool.eq_false_iff.mp hnot hj'

/-- Such a key is among others if it is among them where they are carried. -/
theorem exists_carried_eq_iff {keys : List String} (hkeys : ∀ j ∈ keys, Inside j ∧ Untaken o t j)
    (hkey : Inside key) (hfree : Untaken o t key) :
    (∃ j ∈ keys, carried o t j = carried o t key) ↔ key ∈ keys := by
  constructor
  · rintro ⟨j, hj, heq⟩
    obtain ⟨hjin, hjfree⟩ := hkeys j hj
    exact (carried_inj_of_untaken ho ht hjin hkey hjfree hfree).mp heq ▸ hj
  · exact fun hmem => ⟨key, hmem, rfl⟩

/-- Two keys that are carried along are above each other as before. -/
theorem isUnder_carried_carried {j k : String} (hj : Inside j) (hk : Inside k)
    (hjo : isUnder j o = true) (hko : isUnder k o = true) :
    isUnder (carried o t k) (carried o t j) = isUnder k j := by
  obtain ⟨ks, -, hks, rfl⟩ := hk
  obtain ⟨js, -, hjs, rfl⟩ := hj
  obtain ⟨os, hosne, hos, rfl⟩ := ho
  obtain ⟨ts, htsne, hts, rfl⟩ := ht
  obtain ⟨js, rfl⟩ := (isUnder_ofNames hjs hos).mp hjo
  obtain ⟨ks, rfl⟩ := (isUnder_ofNames hks hos).mp hko
  have hall : ∀ as : List (List Char), (∀ n ∈ os ++ as, IsName n) → ∀ n ∈ ts ++ as, IsName n :=
    fun as has => List.forall_mem_append.mpr ⟨hts, (List.forall_mem_append.mp has).2⟩
  rw [carried_ofNames hosne hos htsne hts hjs, carried_ofNames hosne hos htsne hts hks,
    if_pos (List.prefix_append _ _), if_pos (List.prefix_append _ _), List.drop_left,
    List.drop_left, Bool.eq_iff_iff, isUnder_ofNames (hall ks hks) (hall js hjs),
    isUnder_ofNames hks hjs, List.prefix_append_right_inj, List.prefix_append_right_inj]

/-- A key that is not below the target is among others where they are
carried only if it is among them and is not carried itself. -/
theorem not_under_of_carried_eq {j : String} (hj : Inside j) (hkey : isUnder key t = false)
    (h : carried o t j = key) : isUnder j o = false ∧ j = key := by
  cases hjo : isUnder j o with
  | true =>
    have hunder := isUnder_carried ho ht hj hjo
    rw [h, hkey] at hunder
    cases hunder
  | false => exact ⟨rfl, (carried_of_not_under hjo).symm.trans h⟩

end Untaken

/-! ### Where a move goes on -/

/-- The directory moves ahead of the first one to a key. -/
def movesAhead (w : Workspace) (key : String) : List (String × String) :=
  w.dirMoves.takeWhile (·.2 ≠ key)

/-- The directory moves behind the first one to a key. -/
def movesBehind (w : Workspace) (key : String) : List (String × String) :=
  (w.dirMoves.dropWhile (·.2 ≠ key)).tail

/-- The first move to a key goes on in its place, or goes away when it goes
back. -/
theorem continueMove_eq_takeWhile {moves : List (String × String)} (h : ∃ m ∈ moves, m.2 = o) :
    ∃ a, moves = moves.takeWhile (·.2 ≠ o) ++ (a, o) :: (moves.dropWhile (·.2 ≠ o)).tail ∧
      continueMove moves o t = some (moves.takeWhile (·.2 ≠ o) ++
        if a = t then (moves.dropWhile (·.2 ≠ o)).tail
        else (a, t) :: (moves.dropWhile (·.2 ≠ o)).tail) := by
  induction moves with
  | nil =>
    obtain ⟨m, hm, -⟩ := h
    cases hm
  | cons m moves ih =>
    by_cases hm : m.2 = o
    · obtain ⟨a, o'⟩ := m
      obtain rfl : o' = o := hm
      refine ⟨a, ?_, ?_⟩
      · simp
      · simp [continueMove]
    · have hrest : ∃ n ∈ moves, n.2 = o := by
        obtain ⟨n, hn, hno⟩ := h
        obtain rfl | hn := List.mem_cons.mp hn
        · exact absurd hno hm
        · exact ⟨n, hn, hno⟩
      obtain ⟨a, hmoves, hcontinue⟩ := ih hrest
      refine ⟨a, ?_, ?_⟩
      · rw [List.takeWhile_cons_of_pos (by simpa using hm),
          List.dropWhile_cons_of_pos (by simpa using hm), List.cons_append, ← hmoves]
      · rw [continueMove, if_neg hm, hcontinue, List.takeWhile_cons_of_pos (by simpa using hm),
          List.dropWhile_cons_of_pos (by simpa using hm)]
        rfl

/-- The directory moves behind one more: it is the last one, or goes on from
the first one to its origin, in the place of that. -/
theorem movedDirMoves_cases (w : Workspace) (o t : String) :
    ((∀ m ∈ w.dirMoves, m.2 ≠ o) ∧ w.movedDirMoves o t = w.dirMoves ++ [(o, t)]) ∨
    ((∃ m ∈ w.dirMoves, m.2 = o) ∧ ∃ a,
      w.dirMoves = w.movesAhead o ++ (a, o) :: w.movesBehind o ∧
      w.movedDirMoves o t = w.movesAhead o ++
        if a = t then w.movesBehind o else (a, t) :: w.movesBehind o) := by
  rw [movedDirMoves]
  by_cases h : ∃ m ∈ w.dirMoves, m.2 = o
  · obtain ⟨a, hmoves, hcontinue⟩ := continueMove_eq_takeWhile (t := t) h
    rw [hcontinue]
    exact .inr ⟨h, a, hmoves, rfl⟩
  · have hnone : ∀ m ∈ w.dirMoves, m.2 ≠ o := fun m hm hmo => h ⟨m, hm, hmo⟩
    rw [continueMove_eq_none_iff.mpr hnone]
    exact .inl ⟨hnone, rfl⟩

/-! ### Keys before moves that keep away -/

/-- The moves keep away from a directory: they bring nothing into it, and
take nothing out of it. -/
def KeepAway (moves : List (String × String)) (dir : String) : Prop :=
  ∀ m ∈ moves, Apart m.1 dir ∧ Apart m.2 dir

instance (moves : List (String × String)) (dir : String) : Decidable (KeepAway moves dir) :=
  inferInstanceAs (Decidable (∀ m ∈ moves, _))

/-- What is in the directory was there before. -/
theorem KeepAway.beforeDirMoves_eq {moves : List (String × String)} {dir : String}
    (h : KeepAway moves dir) (hkey : Within key) (hunder : isUnder key dir = true) :
    beforeDirMoves moves key = some key :=
  beforeDirMoves_of_not_under fun m hm =>
    ⟨(h m hm).1.symm.not_under hkey hunder, (h m hm).2.symm.not_under hkey hunder⟩

/-- What is not in the directory was not there before. -/
theorem KeepAway.not_under_before {moves : List (String × String)} {dir k : String}
    (h : KeepAway moves dir) (hmoves : ∀ m ∈ moves, Inside m.1 ∧ Inside m.2) (hkey : Inside key)
    (hunder : isUnder key dir = false) (hk : beforeDirMoves moves key = some k) :
    isUnder k dir = false := by
  induction moves generalizing key with
  | nil =>
    cases hk
    exact hunder
  | cons m moves ih =>
    obtain ⟨hm, hmoves⟩ := List.forall_mem_cons.mp hmoves
    obtain ⟨haway, hrest⟩ := List.forall_mem_cons.mp h
    rw [beforeDirMoves] at hk
    cases hto : isUnder key m.2 with
    | true =>
      -- The move brought the key to its target, from its origin.
      rw [replacePrefix?_of_isUnder hto] at hk
      have hinside := inside_carried hm.2 hm.1 hkey
      refine ih hrest hmoves hinside ?_ hk
      exact haway.1.not_under hinside.within (isUnder_carried hm.2 hm.1 hkey hto)
    | false =>
      rw [replacePrefix?_of_not_under hto] at hk
      dsimp only at hk
      split at hk
      · cases hk
      · exact ih hrest hmoves hkey hunder hk

/-- Moves that keep away from both places of a directory leave the keys
where they are carried. -/
theorem KeepAway.beforeDirMoves_carried {moves : List (String × String)} (hfrom : KeepAway moves o)
    (hto : KeepAway moves t) (hmoves : ∀ m ∈ moves, Inside m.1 ∧ Inside m.2) (ho : Inside o)
    (ht : Inside t) (hkey : Inside key) (hfree : Untaken o t key) :
    beforeDirMoves moves (carried o t key) = (beforeDirMoves moves key).map (carried o t) ∧
      ∀ k, beforeDirMoves moves key = some k → Inside k ∧ Untaken o t k := by
  cases hunder : isUnder key o with
  | true =>
    rw [hfrom.beforeDirMoves_eq hkey.within hunder,
      hto.beforeDirMoves_eq (inside_carried ho ht hkey).within (isUnder_carried ho ht hkey hunder)]
    exact ⟨rfl, fun k hk => Option.some.inj hk ▸ ⟨hkey, hfree⟩⟩
  | false =>
    have hout := hfree.not_under hunder
    rw [carried_of_not_under hunder]
    cases hbefore : beforeDirMoves moves key with
    | none => exact ⟨rfl, fun k hk => by cases hk⟩
    | some k =>
      have hko := hfrom.not_under_before hmoves hkey hunder hbefore
      have hkt := hto.not_under_before hmoves hkey hout hbefore
      rw [Option.map_some, carried_of_not_under hko]
      refine ⟨rfl, fun k' hk' => ?_⟩
      obtain rfl := Option.some.inj hk'
      exact ⟨inside_beforeDirMoves hmoves hkey hbefore,
        fun htrue => absurd htrue (Bool.eq_false_iff.mp hkt)⟩

/-! ### Moves that nothing hinders -/

/-- Nothing that is recorded stands in the way of a directory move. -/
structure Unhindered (w : Workspace) (d : Disk) (o t : String) : Prop where
  /-- Nothing is deleted where the directory goes. -/
  deletions : ∀ k ∈ w.deletions.keys, Untaken o t k
  /-- It goes out of a deleted directory only into one. -/
  above : w.isBelowDeletion t = w.isBelowDeletion o
  /-- No file was moved away from where the directory goes. -/
  origins : ∀ m ∈ w.moves, Untaken o t m.1
  /-- The moves behind an earlier one that goes on keep away from where the
  directory is. -/
  awayFrom : KeepAway (w.movesBehind o) o
  /-- They keep away from where it goes. -/
  awayTo : KeepAway (w.movesBehind o) t
  /-- Nothing on disk was where the earlier move went. -/
  bare : (∃ m ∈ w.dirMoves, m.2 = o) → ∀ p ∈ [] :: d.entries.map Prod.fst,
    ¬ w.place o <+: Place.behind (w.placesOf (w.movesAhead o)) p

section Unhindered

variable (h : w.Unhindered d o t) (hin : KeysInside w) (ho : Inside o) (ht : Inside t)
  (hkey : Inside key)

include h hin ho ht hkey

/-- What is carried along is found where it was found before. -/
theorem Unhindered.beforeDirMoves_eq (hfree : Untaken o t key) :
    beforeDirMoves (w.movedDirMoves o t).reverse (carried o t key)
      = beforeDirMoves w.dirMoves.reverse key := by
  obtain ⟨-, hmoved⟩ | ⟨-, a, hmoves, hmoved⟩ := movedDirMoves_cases w o t
  · rw [hmoved, List.reverse_append]
    exact (beforeDirMoves_carried ho ht hkey ho hfree.not_under).1.trans
      (beforeDirMoves_self ho hkey)
  · have haway {dir : String} (hdir : KeepAway (w.movesBehind o) dir) :
        KeepAway (w.movesBehind o).reverse dir := fun m hm => hdir m (List.mem_reverse.mp hm)
    have hfrom := haway h.awayFrom
    have hto := haway h.awayTo
    have hinside := hin.dirMoves
    rw [hmoved, hmoves]
    rw [hmoves] at hinside
    generalize w.movesAhead o = ahead at hinside ⊢
    generalize w.movesBehind o = behind at hfrom hto hinside ⊢
    have ha : Inside a := (hinside (a, o) (by simp)).1
    obtain ⟨hcarried, hbefore⟩ := hfrom.beforeDirMoves_carried hto
      (fun m hm => hinside m (by simp [List.mem_reverse.mp hm])) ho ht hkey hfree
    -- The moves behind the earlier one leave a key that it may have carried.
    have hboth (moves : List (String × String)) (hmoves : ∀ k, Inside k → Untaken o t k →
        beforeDirMoves moves (carried o t k) = beforeDirMoves ((a, o) :: ahead.reverse) k) :
        beforeDirMoves (behind.reverse ++ moves) (carried o t key)
          = beforeDirMoves (behind.reverse ++ (a, o) :: ahead.reverse) key := by
      rw [beforeDirMoves_append, beforeDirMoves_append, hcarried]
      cases hk : beforeDirMoves behind.reverse key with
      | none => rfl
      | some k => exact hmoves k (hbefore k hk).1 (hbefore k hk).2
    rw [List.reverse_append, List.reverse_append, List.reverse_cons, List.append_assoc]
    split
    · rename_i hback
      exact hboth _ fun k hk hkfree => (beforeDirMoves_carried ho ht hk ha hkfree.not_under).2 hback
    · rw [List.reverse_cons, List.append_assoc]
      exact hboth _ fun k hk hkfree => (beforeDirMoves_carried ho ht hk ha hkfree.not_under).1

omit ht in
/-- Where the directory was, nothing is found any more. -/
theorem Unhindered.not_occupied (hunder : isUnder key o = true) (hout : isUnder key t = false) :
    (beforeDirMoves (w.movedDirMoves o t).reverse key).any (fun k => d.occupied (w.place k))
      = false := by
  obtain ⟨-, hmoved⟩ | ⟨hgoes, a, hmoves, hmoved⟩ := movedDirMoves_cases w o t
  · rw [hmoved, List.reverse_append, List.reverse_singleton, List.singleton_append, beforeDirMoves,
      replacePrefix?_of_not_under hout]
    dsimp only
    rw [hunder]
    rfl
  · have haway : KeepAway (w.movesBehind o).reverse o :=
      fun m hm => h.awayFrom m (List.mem_reverse.mp hm)
    have hahead : ∀ m ∈ (w.movesAhead o).reverse, Inside m.1 ∧ Inside m.2 := fun m hm =>
      hin.dirMoves m (by rw [hmoves]; exact List.mem_append_left _ (List.mem_reverse.mp hm))
    -- Ahead of the earlier move nothing on disk was brought to the directory.
    have hbare : (beforeDirMoves (w.movesAhead o).reverse key).any
        (fun k => d.occupied (w.place k)) = false := by
      by_contra hany
      obtain ⟨k, hk, hocc⟩ := (Option.any_eq_true _ _).mp (Bool.not_eq_false _ ▸ hany)
      have hplace := w.map_place_beforeDirMoves hahead hkey.within
      rw [hk, Option.map_some, placesOf, List.map_reverse] at hplace
      have hbehind : Place.behind (w.placesOf (w.movesAhead o)) (w.place k) = w.place key :=
        Place.behind_of_before hplace.symm
      refine h.bare hgoes (w.place k) ?_ ?_
      · by_cases htop : w.place k = []
        · rw [htop]
          exact List.mem_cons_self
        · obtain ⟨e, he, heq⟩ := (Disk.occupied_iff_mem htop).mp hocc
          exact List.mem_cons_of_mem _ (heq ▸ List.mem_map_of_mem he)
      · rw [hbehind]
        exact (w.prefix_place_iff hkey.within ho.within).mpr hunder
    rw [hmoved, List.reverse_append]
    split
    · rw [beforeDirMoves_append, haway.beforeDirMoves_eq hkey.within hunder]
      exact hbare
    · rw [List.reverse_cons, List.append_assoc, beforeDirMoves_append,
        haway.beforeDirMoves_eq hkey.within hunder, Option.bind_some, List.singleton_append,
        beforeDirMoves, replacePrefix?_of_not_under hout]
      dsimp only
      split
      · rfl
      · exact hbare

end Unhindered

/-! ### The view behind the move -/

/-- Where files came from is carried along, too. -/
theorem originOf_map_carried {moves : List (String × String)}
    (h : ∀ m ∈ moves, carried o t m.2 = carried o t key ↔ m.2 = key) :
    originOf (moves.map fun m => (carried o t m.1, carried o t m.2)) (carried o t key)
      = carried o t (originOf moves key) := by
  induction moves with
  | nil => rfl
  | cons m moves ih =>
    obtain ⟨hm, hmoves⟩ := List.forall_mem_cons.mp h
    have ih := ih hmoves
    rw [originOf, originOf] at ih ⊢
    rw [List.map_cons, List.find?_cons, List.find?_cons]
    by_cases hkey : m.2 = key
    · simp [hkey]
    · simpa [hkey, hm] using ih

/-- Texts and targets of file moves where the directory goes are none, if it
is free and not deleted. -/
theorem not_under_of_free (hfile : w.fileExists d t = false) (hdir : w.dirExists d t = false)
    (hkept : t ∉ w.deletions.keys) : ∀ k ∈ w.stagedFiles, isUnder k t = false := by
  intro k hk
  rw [← Bool.not_eq_true]
  intro hunder
  by_cases heq : k = t
  · subst heq
    rw [fileExists_eq_true_iff.mpr ⟨hkept, .inl hk⟩] at hfile
    cases hfile
  · rw [dirExists_eq_true_iff.mpr (.inr ⟨hkept, .inr (.inl ⟨k, hk, heq, hunder⟩)⟩)] at hdir
    cases hdir

/-- Staged files are carried along. -/
theorem mem_stagedFiles_withDirMove {file : String} :
    file ∈ (w.withDirMove o t).stagedFiles ↔ ∃ k ∈ w.stagedFiles, carried o t k = file := by
  change file ∈ (w.texts.mapKeys (carried o t)).keys
    ++ (w.moves.map fun m => (carried o t m.1, carried o t m.2)).map Prod.snd ↔ _
  rw [List.mem_append, Table.mem_keys_mapKeys, List.map_map, List.mem_map]
  constructor
  · rintro (⟨k, hk, rfl⟩ | ⟨m, hm, rfl⟩)
    · exact ⟨k, List.mem_append_left _ hk, rfl⟩
    · exact ⟨m.2, List.mem_append_right _ (List.mem_map_of_mem hm), rfl⟩
  · rintro ⟨k, hk, rfl⟩
    obtain hk | hk := List.mem_append.mp hk
    · exact .inl ⟨k, hk, rfl⟩
    · obtain ⟨m, hm, rfl⟩ := List.mem_map.mp hk
      exact .inr ⟨m, hm, rfl⟩

/-- Two reads tell the same, but for the name of a file that is not there. -/
def SameRead (a b : Except WorkspaceError String) : Prop :=
  a = b ∨ ∃ p q, a = .error (.notFound p) ∧ b = .error (.notFound q)

/-- A key is below a deletion if a directory above it is deleted. -/
theorem isBelowDeletion_iff : w.isBelowDeletion key = true ↔
    ∃ k ∈ w.deletions.keys, k ≠ key ∧ isUnder key k = true := by
  simp [isBelowDeletion]

/-- What is below a directory that is below a deletion is, too. -/
theorem isBelowDeletion_of_isUnder {dir : String} (hkey : Within key)
    (hunder : isUnder key dir = true) (h : w.isBelowDeletion dir = true) :
    w.isBelowDeletion key = true := by
  obtain ⟨k, hk, hne, habove⟩ := isBelowDeletion_iff.mp h
  refine isBelowDeletion_iff.mpr ⟨k, hk, ?_, isUnder_trans hunder habove⟩
  rintro rfl
  exact hne (isUnder_antisymm hkey hunder habove)

/-- A deletion above the target, if there is one above the directory, stays
when that is moved. -/
theorem Unhindered.exists_deletion_above (h : w.Unhindered d o t) (hapart : isUnder t o = false)
    (habove : w.isBelowDeletion o = true) :
    ∃ k ∈ (w.withDirMove o t).deletions.keys, k ≠ t ∧ isUnder t k = true := by
  obtain ⟨k, hk, hne, hunder⟩ := isBelowDeletion_iff.mp (h.above.trans habove)
  have hko : isUnder k o = false := by
    rw [← Bool.not_eq_true] at hapart ⊢
    exact fun htrue => hapart (isUnder_trans hunder htrue)
  exact ⟨k, (Table.mem_keys_mapKeys _ _ _).mpr ⟨k, hk, carried_of_not_under hko⟩, hne, hunder⟩

section View

variable (h : w.Unhindered d o t) (hin : KeysInside w) (ho : Inside o) (ht : Inside t)
  (hkey : Inside key) (hfree : Untaken o t key)

include h hin ho ht hkey hfree

/-- The same is deleted. -/
theorem Unhindered.mem_deletions :
    carried o t key ∈ (w.withDirMove o t).deletions.keys ↔ key ∈ w.deletions.keys :=
  (Table.mem_keys_mapKeys _ _ _).trans (exists_carried_eq_iff ho ht
    (fun k hk => ⟨hin.deletions k hk, h.deletions k hk⟩) hkey hfree)

/-- Files were moved away from the same places. -/
theorem Unhindered.isMoveOrigin_eq :
    (w.withDirMove o t).isMoveOrigin (carried o t key) = w.isMoveOrigin key := by
  rw [isMoveOrigin, isMoveOrigin, withDirMove, List.any_map, Bool.eq_iff_iff]
  have horigins : ∀ k ∈ w.moves.map Prod.fst, Inside k ∧ Untaken o t k := fun k hk => by
    obtain ⟨m, hm, rfl⟩ := List.mem_map.mp hk
    exact ⟨(hin.moves m hm).1, h.origins m hm⟩
  simpa using exists_carried_eq_iff ho ht horigins hkey hfree

/-- What goes along with the directory is below a deletion as before. -/
theorem Unhindered.isBelowDeletion_carried (hapart : isUnder t o = false)
    (hunder : isUnder key o = true) :
    (w.withDirMove o t).isBelowDeletion (carried o t key) = true ↔
      w.isBelowDeletion key = true := by
  have hto := isUnder_carried ho ht hkey hunder
  have hcarried := (inside_carried ho ht hkey).within
  constructor
  · intro hbelow
    obtain ⟨k, hk, hne, habove⟩ := isBelowDeletion_iff.mp hbelow
    obtain ⟨j, hj, rfl⟩ := (Table.mem_keys_mapKeys _ _ _).mp hk
    have hjin := hin.deletions j hj
    cases hjo : isUnder j o with
    | true =>
      rw [isUnder_carried_carried ho ht hjin hkey hjo hunder] at habove
      exact isBelowDeletion_iff.mpr ⟨j, hj, fun heq => hne (heq ▸ rfl), habove⟩
    | false =>
      -- The deletion is above the target, so one is above the directory.
      rw [carried_of_not_under hjo] at hne habove
      have hjt := (h.deletions j hj).not_under hjo
      obtain hunder' | hunder' := isUnder_or_isUnder hcarried hto habove
      · refine isBelowDeletion_of_isUnder hkey.within hunder (h.above ▸ ?_)
        refine isBelowDeletion_iff.mpr ⟨j, hj, ?_, hunder'⟩
        rintro rfl
        exact Bool.eq_false_iff.mp hjt (isUnder_self j)
      · exact absurd hunder' (Bool.eq_false_iff.mp hjt)
  · intro hbelow
    obtain ⟨j, hj, hne, habove⟩ := isBelowDeletion_iff.mp hbelow
    have hjin := hin.deletions j hj
    cases hjo : isUnder j o with
    | true =>
      refine isBelowDeletion_iff.mpr ⟨carried o t j,
        (Table.mem_keys_mapKeys _ _ _).mpr ⟨j, hj, rfl⟩, ?_, ?_⟩
      · rwa [Ne, carried_inj_of_untaken ho ht hjin hkey (h.deletions j hj) hfree]
      · rwa [isUnder_carried_carried ho ht hjin hkey hjo hunder]
    | false =>
      -- The deletion is above the directory, so one is above the target.
      have hoj : isUnder o j = true :=
        (isUnder_or_isUnder hkey.within hunder habove).resolve_right
          (Bool.eq_false_iff.mp hjo)
      have habove' : w.isBelowDeletion o = true := by
        refine isBelowDeletion_iff.mpr ⟨j, hj, ?_, hoj⟩
        rintro rfl
        exact Bool.eq_false_iff.mp hjo (isUnder_self j)
      obtain ⟨k, hk, hkt, htk⟩ := h.exists_deletion_above hapart habove'
      refine isBelowDeletion_iff.mpr ⟨k, hk, ?_, isUnder_trans hto htk⟩
      rintro rfl
      exact hkt (isUnder_antisymm hcarried hto htk)

omit h hkey in
/-- What is left is below a deletion as before. -/
theorem isBelowDeletion_left (hout : isUnder key o = false) :
    (w.withDirMove o t).isBelowDeletion key = true ↔ w.isBelowDeletion key = true := by
  rw [isBelowDeletion_iff, isBelowDeletion_iff]
  constructor
  · rintro ⟨k, hk, hne, habove⟩
    obtain ⟨j, hj, rfl⟩ := (Table.mem_keys_mapKeys _ _ _).mp hk
    have hjo : isUnder j o = false := by
      rw [← Bool.not_eq_true]
      intro hjo
      have hkt := isUnder_trans habove (isUnder_carried ho ht (hin.deletions j hj) hjo)
      exact Bool.eq_false_iff.mp hout (hfree hkt)
    rw [carried_of_not_under hjo] at hne habove
    exact ⟨j, hj, hne, habove⟩
  · rintro ⟨j, hj, hne, habove⟩
    have hjo : isUnder j o = false := by
      rw [← Bool.not_eq_true] at hout ⊢
      exact fun hjo => hout (isUnder_trans habove hjo)
    exact ⟨j, (Table.mem_keys_mapKeys _ _ _).mpr ⟨j, hj, carried_of_not_under hjo⟩, hne, habove⟩

/-- The same is below a deletion. -/
theorem Unhindered.isBelowDeletion_eq (hapart : isUnder t o = false) :
    (w.withDirMove o t).isBelowDeletion (carried o t key) = w.isBelowDeletion key := by
  rw [Bool.eq_iff_iff]
  cases hunder : isUnder key o with
  | true => exact h.isBelowDeletion_carried hin ho ht hkey hfree hapart hunder
  | false =>
    rw [carried_of_not_under hunder]
    exact isBelowDeletion_left hin ho ht hfree hunder

/-- The content of the key stands at the same place on disk. -/
theorem Unhindered.diskKey?_eq (htargets : ∀ m ∈ w.moves, isUnder m.2 t = false) :
    (w.withDirMove o t).diskKey? (carried o t key) = w.diskKey? key := by
  have hmoves : ∀ m ∈ w.moves, carried o t m.2 = carried o t key ↔ m.2 = key := fun m hm =>
    carried_inj_of_untaken ho ht (hin.moves m hm).2 hkey
      (fun htrue => absurd htrue (Bool.eq_false_iff.mp (htargets m hm))) hfree
  have horigin : Inside (originOf w.moves key) ∧ Untaken o t (originOf w.moves key) := by
    rw [originOf]
    split
    · rename_i m hm
      have hm := List.mem_of_find?_eq_some hm
      exact ⟨(hin.moves m hm).1, h.origins m hm⟩
    · exact ⟨hkey, hfree⟩
  change beforeDirMoves (w.movedDirMoves o t).reverse
    (originOf (w.moves.map fun m => (carried o t m.1, carried o t m.2)) (carried o t key)) = _
  rw [originOf_map_carried hmoves]
  exact h.beforeDirMoves_eq hin ho ht horigin.1 horigin.2

end View

section Files

variable (h : w.Unhindered d o t) (hin : KeysInside w) (hst : StagedInside w) (ho : Inside o)
  (ht : Inside t) (hapart : isUnder t o = false)
  (hstaged : ∀ k ∈ w.stagedFiles, isUnder k t = false) (hkey : Inside key) (hfree : Untaken o t key)

include h hin hst ho ht hapart hstaged hkey hfree

omit h hapart in
/-- The same is staged. -/
theorem mem_stagedFiles_carried :
    carried o t key ∈ (w.withDirMove o t).stagedFiles ↔ key ∈ w.stagedFiles := by
  rw [mem_stagedFiles_withDirMove]
  exact exists_carried_eq_iff ho ht (fun k hk => ⟨(inside_of_staged hin hst).1 k hk,
    fun htrue => absurd htrue (Bool.eq_false_iff.mp (hstaged k hk))⟩) hkey hfree

/-- The same files are there. -/
theorem Unhindered.fileExists_eq :
    (w.withDirMove o t).fileExists d (carried o t key) = w.fileExists d key := by
  have htargets : ∀ m ∈ w.moves, isUnder m.2 t = false := fun m hm =>
    hstaged m.2 (List.mem_append_right _ (List.mem_map_of_mem hm))
  have hondisk : (w.withDirMove o t).onDisk (carried o t key) d.isFile
      = w.onDisk key d.isFile := by
    rw [onDisk, onDisk, h.diskKey?_eq hin ho ht hkey hfree htargets]
    rfl
  rw [Bool.eq_iff_iff, fileExists_eq_true_iff, fileExists_eq_true_iff,
    h.mem_deletions hin ho ht hkey hfree,
    mem_stagedFiles_carried hin hst ho ht hstaged hkey hfree,
    h.isBelowDeletion_eq hin ho ht hkey hfree hapart, h.isMoveOrigin_eq hin ho ht hkey hfree,
    hondisk]

omit h hin hapart in
/-- The same texts are kept. -/
theorem find?_texts_withDirMove (hascending : w.texts.IsAscending) :
    (w.withDirMove o t).texts.find? (carried o t key) = w.texts.find? key := by
  have htexts : ∀ k ∈ w.texts.keys, Inside k ∧ Untaken o t k := fun k hk =>
    ⟨hst.texts k hk, fun htrue =>
      absurd htrue (Bool.eq_false_iff.mp (hstaged k (List.mem_append_left _ hk)))⟩
  change (w.texts.mapKeys (carried o t)).find? (carried o t key) = w.texts.find? key
  by_cases hmem : key ∈ w.texts.keys
  · exact Table.find?_mapKeys hascending (fun a ha b hb => (carried_inj_of_untaken ho ht
      (htexts a ha).1 (htexts b hb).1 (htexts a ha).2 (htexts b hb).2).mp) hmem
  · rw [(Table.find?_eq_none_iff _ _).mpr hmem, Table.find?_eq_none_iff, Table.mem_keys_mapKeys,
      exists_carried_eq_iff ho ht htexts hkey hfree]
    exact hmem

/-- They say the same. -/
theorem Unhindered.textOf_eq (hascending : w.texts.IsAscending) :
    SameRead ((w.withDirMove o t).textOf d (carried o t key)) (w.textOf d key) := by
  have hexists := h.fileExists_eq hin hst ho ht hapart hstaged hkey hfree
  have htext := find?_texts_withDirMove hst ho ht hstaged hkey hfree hascending
  have hdisk := h.diskKey?_eq hin ho ht hkey hfree fun m hm =>
    hstaged m.2 (List.mem_append_right _ (List.mem_map_of_mem hm))
  rw [textOf, textOf, hexists, htext, hdisk]
  cases w.fileExists d key with
  | false => exact .inr ⟨_, _, rfl, rfl⟩
  | true =>
    cases w.texts.find? key with
    | some text => exact .inl rfl
    | none =>
      cases w.diskKey? key with
      | some k => exact .inl rfl
      | none => exact .inr ⟨_, _, rfl, rfl⟩

end Files

/-! ### What is left of the directory -/

section Left

variable (h : w.Unhindered d o t) (hin : KeysInside w) (hst : StagedInside w) (ho : Inside o)
  (ht : Inside t) (hapart : isUnder t o = false) (hkey : Inside key)
  (hunder : isUnder key o = true) (hout : isUnder key t = false)

include ho ht hkey hunder hout

/-- No key is carried to where the directory was. -/
theorem not_carried_eq {k : String} (hk : Inside k) : carried o t k ≠ key := by
  intro heq
  obtain ⟨hko, rfl⟩ := not_under_of_carried_eq ho ht hk hout heq
  rw [hunder] at hko
  cases hko

include hin hst

omit hkey in
/-- No file is staged where the directory was. -/
theorem not_mem_stagedFiles_left (hapart : isUnder t o = false) {file : String}
    (hfile : isUnder file key = true) : file ∉ (w.withDirMove o t).stagedFiles := by
  intro hmem
  obtain ⟨k, hk, rfl⟩ := mem_stagedFiles_withDirMove.mp hmem
  have hkin := (inside_of_staged hin hst).1 k hk
  rw [← Bool.not_eq_true] at hapart hout
  cases hko : isUnder k o with
  | true =>
    obtain h | h := isUnder_or_isUnder (inside_carried ho ht hkin).within hfile
      (isUnder_carried ho ht hkin hko)
    · exact hout h
    · exact hapart (isUnder_trans h hunder)
  | false =>
    rw [carried_of_not_under hko] at hfile
    exact Bool.eq_false_iff.mp hko (isUnder_trans hfile hunder)

include h

/-- Where the directory was, no file is there any more, and no directory but
those to which others were moved. -/
theorem Unhindered.left (hapart : isUnder t o = false) :
    (w.withDirMove o t).fileExists d key = false ∧
      ((w.withDirMove o t).dirExists d key = true →
        ∃ m ∈ (w.withDirMove o t).dirMoves, m.2 = key) := by
  have hstaged {file : String} (hfile : isUnder file key = true) :=
    not_mem_stagedFiles_left hin hst ho ht hunder hout hapart hfile
  have hself := hstaged (isUnder_self key)
  have hdisk : (w.withDirMove o t).diskKey? key
      = beforeDirMoves (w.movedDirMoves o t).reverse key :=
    diskKey?_of_not_target fun m hm heq =>
      hself (heq ▸ List.mem_append_right _ (List.mem_map_of_mem hm))
  have hnothing := h.not_occupied hin ho hkey hunder hout
  have hondisk (p : Place → Bool) (hp : ∀ q, p q = true → d.occupied q = true) :
      (w.withDirMove o t).onDisk key p = false := by
    rw [onDisk, hdisk]
    cases hbefore : beforeDirMoves (w.movedDirMoves o t).reverse key with
    | none => rfl
    | some k =>
      rw [hbefore, Option.any_some] at hnothing
      rw [← Bool.not_eq_true] at hnothing ⊢
      exact mt (hp _) hnothing
  constructor
  · rw [← Bool.not_eq_true, fileExists_eq_true_iff]
    rintro ⟨-, hmem | ⟨-, -, hthere⟩⟩
    · exact hself hmem
    · have hfile (q : Place) (hq : d.isFile q = true) : d.occupied q = true := by
        obtain ⟨bytes, hbytes⟩ := Option.isSome_iff_exists.mp hq
        exact Disk.occupied_of_bytes? hbytes
      rw [hondisk _ hfile] at hthere
      cases hthere
  · -- Of what can make a directory there, only the target of a move is left.
    rw [dirExists_eq_true_iff]
    rintro (hempty | ⟨-, hdirs | ⟨file, hmem, -, hfile⟩ | ⟨-, hthere⟩⟩)
    · exact absurd hempty hkey.ne_empty
    · obtain hdirs | hdirs := List.mem_append.mp hdirs
      · obtain ⟨k, hk, heq⟩ := (KeySet.mem_map _ _ _).mp hdirs
        exact absurd heq (not_carried_eq ho ht hkey hunder hout (hst.dirs k hk))
      · exact List.mem_map.mp hdirs
    · exact absurd hmem (hstaged hfile)
    · have hdir (q : Place) (hq : d.isDir q = true) : d.occupied q = true := by
        rw [Disk.occupied, Disk.isDir_iff.mp hq]
        rfl
      rw [hondisk _ hdir] at hthere
      cases hthere

end Left

/-! ### The move -/

instance (o t key : String) : Decidable (Untaken o t key) :=
  inferInstanceAs (Decidable (_ → _))

instance (w : Workspace) (d : Disk) (o t : String) : Decidable (w.Unhindered d o t) :=
  decidable_of_iff ((∀ k ∈ w.deletions.keys, Untaken o t k) ∧
      w.isBelowDeletion t = w.isBelowDeletion o ∧ (∀ m ∈ w.moves, Untaken o t m.1) ∧
      KeepAway (w.movesBehind o) o ∧ KeepAway (w.movesBehind o) t ∧
      ((∃ m ∈ w.dirMoves, m.2 = o) → ∀ p ∈ [] :: d.entries.map Prod.fst,
        ¬ w.place o <+: Place.behind (w.placesOf (w.movesAhead o)) p))
    ⟨fun ⟨h1, h2, h3, h4, h5, h6⟩ => ⟨h1, h2, h3, h4, h5, h6⟩,
      fun h => ⟨h.deletions, h.above, h.origins, h.awayFrom, h.awayTo, h.bare⟩⟩

/-- A directory that is there can be moved to a free target. -/
theorem moveDir_of_free {originPath targetPath : String}
    (horigin : w.dirExists d (w.key originPath) = true)
    (hfile : w.fileExists d (w.key targetPath) = false)
    (hdir : w.dirExists d (w.key targetPath) = false) :
    w.moveDir d originPath targetPath
      = .ok (w.withDirMove (w.key originPath) (w.key targetPath)) := by
  rw [moveDir, horigin, hfile, hdir]
  rfl

/-- **A directory move that nothing hinders translates the view.** In a state
of a run with paths inside the project, let a directory be moved to a target
that is not below it. If the move is accepted, the same files are there
behind it, below the target what was below the directory, and elsewhere what
was there, and they say the same; where the directory was, no file is left,
and no directory but those to which others were moved. If it is refused,
nothing changes. -/
theorem moveDir_translates (d : Disk) (root : String) (settings : Settings) (filter : PathFilter)
    (calls : List Call) (origin target : String) :
    let new := ofFilter root settings filter
    let w := new.run d calls
    let o := new.key origin
    let t := new.key target
    (∀ c ∈ .moveDir origin target :: calls, ∀ p ∈ c.paths,
      new.key p ≠ "" ∧ leaves (new.key p) = false) →
    isUnder t o = false →
    (∀ w', w.moveDir d origin target = .ok w' → w.Unhindered d o t →
      (∀ key, Inside key → (isUnder key t = true → isUnder key o = true) →
        w'.fileExists d (carried o t key) = w.fileExists d key ∧
        SameRead (w'.textOf d (carried o t key)) (w.textOf d key)) ∧
      ∀ key, Inside key → isUnder key o = true → isUnder key t = false →
        w'.fileExists d key = false ∧
        (w'.dirExists d key = true → ∃ m ∈ w'.dirMoves, m.2 = key)) ∧
    ((w.moveDir d origin target).toOption = none → w.apply d (.moveDir origin target) = w) := by
  intro new w o t hpaths hapart
  obtain ⟨hmove, hcalls⟩ := List.forall_mem_cons.mp fun c hc p hp =>
    inside_key (hpaths c hc p hp).1 (hpaths c hc p hp).2
  have ho : Inside o := hmove origin (by simp [Call.paths])
  have ht : Inside t := hmove target (by simp [Call.paths])
  have hin : KeysInside w := keysInside_run (keysInside_ofFilter root settings filter) hcalls
  have hst : StagedInside w := stagedInside_run (stagedInside_ofFilter root settings filter) hcalls
  have hordered : w.IsOrdered := (isOrdered_ofFilter root settings filter).run calls
  have hkey : w.key = new.key := key_congr (root_run d new calls)
  refine ⟨fun w' hok h => ?_, fun hnone => ?_⟩
  · obtain ⟨-, ⟨hfile, hdir⟩, rfl⟩ := moveDir_eq_ok hok
    rw [hkey] at hfile hdir ⊢
    -- A deletion of the target would be below the directory, and so would the target.
    have hkept : t ∉ w.deletions.keys := fun hmem =>
      Bool.eq_false_iff.mp hapart (h.deletions t hmem (isUnder_self t))
    have hstaged := not_under_of_free hfile hdir hkept
    exact ⟨fun key hinside hfree =>
        ⟨h.fileExists_eq hin hst ho ht hapart hstaged hinside hfree,
          h.textOf_eq hin hst ho ht hapart hstaged hinside hfree hordered.texts⟩,
      fun key hinside hunder hout => h.left hin hst ho ht hinside hunder hout hapart⟩
  · rw [apply, hnone]
    rfl

/-- Two directories with files, and a file beside them. -/
def twoDirs : Disk :=
  ⟨[(["root"], .dir), (["root", "a"], .dir), (["root", "a", "x.js"], .file (Disk.bytesOf "x\n")),
    (["root", "a", "s"], .dir), (["root", "a", "s", "z.js"], .file (Disk.bytesOf "z\n")),
    (["root", "b"], .dir), (["root", "b", "y.js"], .file (Disk.bytesOf "y\n")),
    (["root", "c.js"], .file (Disk.bytesOf "c\n"))]⟩

/-- A directory is moved, a file is moved into it and one in it is deleted,
and the other directory is moved. -/
def movedApart : List Call :=
  [.moveDir "a" "o", .moveFile "c.js" "o/c.js", .delete "o/s/z.js" .warn, .moveDir "b" "e"]

/-- Moved on, the directory takes along the file moved into it, and leaves
the other one. -/
theorem moveDir_translates_movedApart :
    let w := (ofFilter "/root" Settings.default PathFilter.showAll).run twoDirs movedApart
    let w' := w.withDirMove "o" "t"
    w.moveDir twoDirs "o" "t" = .ok w' ∧ w'.dirMoves = [("a", "t"), ("b", "e")] ∧
      w'.fileExists twoDirs "t/x.js" = true ∧ w'.fileExists twoDirs "t/s/z.js" = false ∧
      SameRead (w'.textOf twoDirs "t/c.js") (.ok "c\n") ∧
      w'.fileExists twoDirs "e/y.js" = true ∧ w'.fileExists twoDirs "o/x.js" = false := by
  intro w w'
  have hok : w.moveDir twoDirs "o" "t" = .ok w' :=
    moveDir_of_free (by decide +kernel) (by decide +kernel) (by decide +kernel)
  obtain ⟨hview, hleft⟩ := (moveDir_translates twoDirs "/root" Settings.default PathFilter.showAll
    movedApart "o" "t" (by decide +kernel) (by decide +kernel)).1 w' hok (by decide +kernel)
  have hinside : ∀ key ∈ ["o/x.js", "o/s/z.js", "o/c.js", "e/y.js"], Inside key := by
    have hkeys : ∀ key ∈ ["o/x.js", "o/s/z.js", "o/c.js", "e/y.js"],
        w.key key = key ∧ w.key key ≠ "" ∧ leaves (w.key key) = false := by decide +kernel
    exact fun key hmem =>
      (hkeys key hmem).1 ▸ inside_key (hkeys key hmem).2.1 (hkeys key hmem).2.2
  have hx := hview "o/x.js" (hinside _ (by simp)) (by decide +kernel)
  have hz := hview "o/s/z.js" (hinside _ (by simp)) (by decide +kernel)
  have hc := hview "o/c.js" (hinside _ (by simp)) (by decide +kernel)
  have hy := hview "e/y.js" (hinside _ (by simp)) (by decide +kernel)
  have ho := hleft "o/x.js" (hinside _ (by simp)) (by decide +kernel) (by decide +kernel)
  have htext : w.textOf twoDirs "o/c.js" = .ok "c\n" := by decide +kernel
  exact ⟨hok, by decide +kernel, hx.1.trans (by decide +kernel), hz.1.trans (by decide +kernel),
    htext ▸ hc.2, hy.1.trans (by decide +kernel), ho.1⟩

/-- A directory is moved out of the way, and another one to its place. -/
def swap : List Call := [.moveDir "a" "t", .moveDir "b" "a"]

/-- Moved on to the place of the other one, the directory is lost from the
view, and so is the other one: the move from `t` goes on in the place of the
one from `a`, ahead of the one to `a`. -/
theorem moveDir_swap_loses_files :
    let w := (ofFilter "/root" Settings.default PathFilter.showAll).run twoDirs swap
    let w' := w.apply twoDirs (.moveDir "t" "b")
    twoDirs.IsTree ∧ (w.moveDir twoDirs "t" "b").toOption.isSome = true ∧
    isUnder "b" "t" = false ∧ carried "t" "b" "t/x.js" = "b/x.js" ∧
    w.textOf twoDirs "t/x.js" = .ok "x\n" ∧ w'.fileExists twoDirs "b/x.js" = false ∧
    w.textOf twoDirs "a/y.js" = .ok "y\n" ∧ w'.fileExists twoDirs "a/y.js" = false := by
  decide +kernel

/-- Directory moves that something hinders, behind the calls that do, and a
file that is there: the target is deleted, or the directory that is to hold
it; a directory was moved into the one that is moved on, or out of it. -/
def hinderedMoves : List (List Call × (String × String) × String) :=
  [([.delete "b" .warn], ("a", "b"), "a/x.js"), ([.delete "b" .warn], ("a", "b/n"), "a/x.js"),
    ([.moveDir "a" "o", .moveDir "b" "o/n"], ("o", "t"), "o/n/y.js"),
    ([.moveDir "a" "o", .moveDir "o/s" "e"], ("o", "t"), "e/z.js")]

/-- They are accepted, and lose the file. -/
theorem moveDir_hindered_loses_files :
    ∀ r ∈ hinderedMoves,
      let w := (ofFilter "/root" Settings.default PathFilter.showAll).run twoDirs r.1
      (w.moveDir twoDirs r.2.1.1 r.2.1.2).toOption.isSome = true ∧
        w.fileExists twoDirs r.2.2 = true ∧
        (w.apply twoDirs (.moveDir r.2.1.1 r.2.1.2)).fileExists twoDirs
          (carried r.2.1.1 r.2.1.2 r.2.2) = false := by
  decide +kernel

end ScriptRefactor.Workspace
