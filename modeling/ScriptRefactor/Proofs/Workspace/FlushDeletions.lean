import ScriptRefactor.Proofs.Workspace.FlushFiles
import ScriptRefactor.Proofs.Workspace.InsideKeys

/-!
# `ScriptRefactor.Proofs.Workspace.FlushDeletions`: moved files and deletions

What a flush does to a file that is to be moved, phase by phase: the
directory moves bring it to the origin of its move
(`bytes?_foldlM_movedOn_of_before`), the deletions leave it there
unless one is at or above the origin (`bytes?_foldl_deletedOn`), and
the moves carry it to the target.
-/

set_option autoImplicit false

namespace ScriptRefactor.Workspace

open ScriptRefactor.Path

variable {w : Workspace} {d d' : Disk}

/-! ### Places of keys inside -/

/-- Keys within are told apart. -/
theorem tellsApart_of_within {keys : List String} (h : ∀ k ∈ keys, Within k) :
    w.TellsApart keys :=
  fun a ha b hb hplace => (w.place_inj (h a ha) (h b hb)).mp hplace

/-! ### Directories created -/

/-- A staged directory created: all on the way to it are directories,
unless there was a file in its place. -/
theorem isDir_createdOn {k : String} (hd : d.IsTree) (h : w.createdOn d k = some d') :
    d'.IsTree ∧ (∀ q, d'.bytes? q = d.bytes? q) ∧ ∀ q, d'.isDir q = true ↔
      d.isDir q = true ∨ (d.isFile (w.place k) = false ∧ q <+: w.place k) := by
  unfold createdOn at h
  split at h
  · rename_i hocc
    cases h
    refine ⟨hd, fun q => rfl, fun q => (or_iff_left_of_imp ?_).symm⟩
    rintro ⟨hfile, hq⟩
    -- What is there and is no file is a directory, with all above it.
    by_cases hne : q = w.place k
    · rw [hne, Disk.isDir_iff]
      exact (Disk.isFile_eq_false_iff.mp hfile).resolve_left (Option.isSome_iff_ne_none.mp hocc)
    · exact hd.isDir_of_prefix hq hne hocc
  · rename_i hfree
    refine ⟨hd.makeDirs h, Disk.bytes?_makeDirs h, fun q => ?_⟩
    rw [Bool.not_eq_true] at hfree
    rw [Disk.isDir_makeDirs_iff h, Disk.isFile, Disk.bytes?_eq_none_of_not_occupied hfree]
    simp

/-- Creating the staged directories changes no file. -/
theorem bytes?_foldlM_createdOn {dirs : List String} (hd : d.IsTree)
    (h : dirs.foldlM w.createdOn d = some d') :
    d'.IsTree ∧ ∀ q, d'.bytes? q = d.bytes? q := by
  induction dirs generalizing d with
  | nil =>
      cases h
      exact ⟨hd, fun q => rfl⟩
  | cons key dirs ih =>
      obtain ⟨d₁, hfirst, hrest⟩ := Option.bind_eq_some_iff.mp h
      obtain ⟨hd₁, hbytes, -⟩ := isDir_createdOn hd hfirst
      obtain ⟨hd', hall⟩ := ih hd₁ hrest
      exact ⟨hd', fun q => (hall q).trans (hbytes q)⟩

/-- The directories behind the creation of the staged ones. -/
theorem isDir_foldlM_createdOn {dirs : List String} (hd : d.IsTree)
    (h : dirs.foldlM w.createdOn d = some d') (q : Place) :
    d'.isDir q = true ↔
      d.isDir q = true ∨ ∃ k ∈ dirs, d.isFile (w.place k) = false ∧ q <+: w.place k := by
  induction dirs generalizing d with
  | nil =>
      cases h
      simp
  | cons key dirs ih =>
      obtain ⟨d₁, hfirst, hrest⟩ := Option.bind_eq_some_iff.mp h
      obtain ⟨hd₁, hbytes, hdirs⟩ := isDir_createdOn hd hfirst
      have hfile : ∀ q, d₁.isFile q = d.isFile q := fun q => by rw [Disk.isFile, hbytes, Disk.isFile]
      simp only [ih hd₁ hrest, hdirs, hfile, List.mem_cons, exists_eq_or_imp, or_assoc]

/-! ### Places deleted -/

/-- The places behind one deletion. -/
theorem find?_deletedOn {k : String} (hk : Inside k) (hd : d.IsTree) :
    (w.deletedOn d k).IsTree ∧ ∀ key, Within key → (w.deletedOn d k).find? (w.place key) =
      if isUnder key k then none else d.find? (w.place key) := by
  unfold deletedOn
  split
  · refine ⟨hd.remove (w.place_ne_nil hk), fun key hkey => ?_⟩
    have hfind := Disk.find?_remove d (w.place_ne_nil hk) (w.place key)
    simpa only [w.prefix_place_iff hkey hk.within] using hfind
  · rename_i hfree
    refine ⟨hd, fun key hkey => ?_⟩
    split
    · rename_i hunder
      -- Where there is nothing, there is nothing below it either.
      rw [← Option.not_isSome_iff_eq_none]
      exact fun hocc =>
        hfree (hd.occupied_of_prefix ((w.prefix_place_iff hkey hk.within).mpr hunder) hocc)
    · rfl

/-- The places behind all deletions: those that no deletion is at or
above. -/
theorem find?_foldl_deletedOn {deletions : List String} (hinside : ∀ k ∈ deletions, Inside k)
    (hd : d.IsTree) :
    (deletions.foldl w.deletedOn d).IsTree ∧ ∀ key, Within key →
      (deletions.foldl w.deletedOn d).find? (w.place key) =
        if deletions.any (isUnder key) then none else d.find? (w.place key) := by
  induction deletions generalizing d with
  | nil =>
      rw [List.foldl_nil]
      exact ⟨hd, fun key _ => by simp⟩
  | cons k deletions ih =>
      obtain ⟨hk, hinside⟩ := List.forall_mem_cons.mp hinside
      obtain ⟨hd₁, hfirst⟩ := find?_deletedOn hk hd
      obtain ⟨hd', hrest⟩ := ih hinside hd₁
      rw [List.foldl_cons]
      refine ⟨hd', fun key hkey => ?_⟩
      rw [hrest key hkey, hfirst key hkey, List.any_cons]
      cases isUnder key k <;> simp

/-- The files behind all deletions. -/
theorem bytes?_foldl_deletedOn {deletions : List String} (hinside : ∀ k ∈ deletions, Inside k)
    (hd : d.IsTree) {key : String} (hkey : Within key) :
    (deletions.foldl w.deletedOn d).bytes? (w.place key) =
      if deletions.any (isUnder key) then none else d.bytes? (w.place key) := by
  have hfind := (find?_foldl_deletedOn (w := w) hinside hd).2 key hkey
  split
  · rename_i hgone
    rw [if_pos hgone] at hfind
    rw [Disk.bytes?, hfind]
  · rename_i hkept
    rw [if_neg hkept] at hfind
    exact Disk.bytes?_congr hfind

/-! ### Places moved -/

/-- What a rename does to what is neither at nor below its origin and
its target: nothing. -/
theorem bytes?_movedOn_of_outside {m : String × String} (hd : d.IsTree)
    (h : w.movedOn d m = some d') {q : Place} (horigin : ¬ w.place m.1 <+: q)
    (htarget : ¬ w.place m.2 <+: q) : d'.bytes? q = d.bytes? q := by
  unfold movedOn at h
  split at h
  · obtain ⟨d₁, hparent, hrename⟩ := Option.bind_eq_some_iff.mp h
    rw [← Disk.bytes?_makeDirs hparent]
    by_cases hne : w.place m.1 = w.place m.2
    · rw [Disk.rename, if_pos hne] at hrename
      split at hrename <;> cases hrename
      rfl
    · refine Disk.bytes?_congr ?_
      rw [Disk.find?_rename (hd.makeDirs hparent) hne hrename, if_neg htarget, if_neg horigin]
  · cases h
    rfl

/-- What a rename does to a file at or below its origin: it stands
there at or below its target. -/
theorem bytes?_movedOn_append {m : String × String} (hd : d.IsTree)
    (h : w.movedOn d m = some d') {rest : Place} {bytes : List UInt8}
    (hfile : d.bytes? (w.place m.1 ++ rest) = some bytes) :
    d'.bytes? (w.place m.2 ++ rest) = some bytes := by
  have hoccupied := hd.occupied_of_prefix (List.prefix_append (w.place m.1) rest)
    (Disk.occupied_of_bytes? hfile)
  rw [movedOn, if_pos hoccupied] at h
  obtain ⟨d₁, hparent, hrename⟩ := Option.bind_eq_some_iff.mp h
  rw [← Disk.bytes?_makeDirs hparent] at hfile
  by_cases hne : w.place m.1 = w.place m.2
  · -- Renaming a place to itself leaves everything.
    rw [Disk.rename, if_pos hne] at hrename
    split at hrename <;> cases hrename
    rw [← hne]
    exact hfile
  · rw [← hfile]
    refine Disk.bytes?_congr ?_
    rw [Disk.find?_rename (hd.makeDirs hparent) hne hrename,
      if_pos (List.prefix_append (w.place m.2) rest), List.drop_left]

/-- A tree stays one behind a move. -/
theorem isTree_movedOn {m : String × String} (hd : d.IsTree) (h : w.movedOn d m = some d') :
    d'.IsTree := by
  unfold movedOn at h
  split at h
  · obtain ⟨d₁, hparent, hrename⟩ := Option.bind_eq_some_iff.mp h
    exact (hd.makeDirs hparent).rename hrename
  · cases h
    exact hd

/-- A file that stood where the view takes the content of a key from,
stands at the key behind a move. -/
theorem bytes?_movedOn_of_before {m : String × String} (hm : Inside m.1 ∧ Inside m.2)
    (hd : d.IsTree) (h : w.movedOn d m = some d') {key k : String} {bytes : List UInt8}
    (hkey : Inside key) (hbefore : beforeDirMoves [m] key = some k)
    (hfile : d.bytes? (w.place k) = some bytes) :
    d'.bytes? (w.place key) = some bytes := by
  obtain ⟨origin, target⟩ := m
  obtain ⟨horigin, htarget⟩ := hm
  have hunder := w.prefix_place_iff hkey.within horigin.within
  have htunder := w.prefix_place_iff hkey.within htarget.within
  obtain ⟨names, as, bs, rfl, rfl, rfl, hnames, ⟨-, has⟩, ⟨-, hbs⟩, hreplace⟩ :=
    replacePrefix?_inside hkey htarget horigin
  rw [beforeDirMoves, hreplace] at hbefore
  rw [isUnder_ofNames hnames has] at htunder
  split at hbefore
  · -- The key is at or below the target: its file stood below the origin.
    rename_i j hj
    split at hj
    · rename_i hpre
      cases hj
      cases hbefore
      obtain ⟨rest, rfl⟩ := hpre
      have hrest : ∀ n ∈ rest, IsName n := fun n hn => hnames n (by simp [hn])
      rw [List.drop_left, w.place_ofNames_append hbs hrest] at hfile
      rw [w.place_ofNames_append has hrest]
      exact bytes?_movedOn_append hd h hfile
    · cases hj
  · rename_i hnone
    split at hnone
    · cases hnone
    · rename_i hpre
      -- The key is not below the target; below the origin nothing would be left of it.
      split at hbefore
      · cases hbefore
      · rename_i hout
        cases hbefore
        rw [bytes?_movedOn_of_outside hd h (mt hunder.mp hout) (mt htunder.mp hpre)]
        exact hfile

/-- The key before some moves, the last one first, is the key before
the last one, before the others. -/
theorem beforeDirMoves_append (later earlier : List (String × String)) (key : String) :
    beforeDirMoves (later ++ earlier) key =
      (beforeDirMoves later key).bind (beforeDirMoves earlier) := by
  induction later generalizing key with
  | nil => rfl
  | cons m later ih =>
      rw [List.cons_append, beforeDirMoves, beforeDirMoves]
      split
      · exact ih _
      · split
        · rfl
        · exact ih _

/-- Where a key inside stood before a move is inside. -/
theorem inside_beforeDirMoves {moves : List (String × String)}
    (hmoves : ∀ m ∈ moves, Inside m.1 ∧ Inside m.2) {key k : String} (hkey : Inside key)
    (h : beforeDirMoves moves key = some k) : Inside k := by
  induction moves generalizing key with
  | nil =>
      cases h
      exact hkey
  | cons m moves ih =>
      obtain ⟨hm, hmoves⟩ := List.forall_mem_cons.mp hmoves
      rw [beforeDirMoves] at h
      split at h
      · rename_i j hj
        refine ih hmoves ?_ h
        have hcarried := inside_carried hm.2 hm.1 hkey
        rw [carried, hj, Option.getD_some] at hcarried
        exact hcarried
      · split at h
        · cases h
        · exact ih hmoves hkey h

/-- A file that stood where the view takes the content of a key from,
stands at the key behind the moves. -/
theorem bytes?_foldlM_movedOn_of_before {moves : List (String × String)}
    (hmoves : ∀ m ∈ moves, Inside m.1 ∧ Inside m.2) (hd : d.IsTree)
    (h : moves.foldlM w.movedOn d = some d') :
    d'.IsTree ∧ ∀ key k bytes, Inside key → beforeDirMoves moves.reverse key = some k →
      d.bytes? (w.place k) = some bytes → d'.bytes? (w.place key) = some bytes := by
  -- The last move is the last one on disk, and the first one that the view goes back over.
  induction moves using List.reverseRecOn generalizing d' with
  | nil =>
      cases h
      refine ⟨hd, fun key k bytes _ hbefore hfile => ?_⟩
      cases hbefore
      exact hfile
  | append_singleton moves m ih =>
      have hm := hmoves m (by simp)
      have hothers : ∀ n ∈ moves, Inside n.1 ∧ Inside n.2 := fun n hn => hmoves n (by simp [hn])
      rw [List.foldlM_append] at h
      obtain ⟨d₁, hfirst, hlast⟩ := Option.bind_eq_some_iff.mp h
      rw [List.foldlM_cons] at hlast
      obtain ⟨d₂, hlast, hnil⟩ := Option.bind_eq_some_iff.mp hlast
      cases hnil
      obtain ⟨hd₁, hall⟩ := ih hothers hfirst
      refine ⟨isTree_movedOn hd₁ hlast, fun key k bytes hkey hbefore hfile => ?_⟩
      rw [List.reverse_append, List.reverse_singleton, beforeDirMoves_append] at hbefore
      obtain ⟨j, hj, hbefore⟩ := Option.bind_eq_some_iff.mp hbefore
      have hinside : Inside j := inside_beforeDirMoves (by simpa using hm) hkey hj
      exact bytes?_movedOn_of_before hm hd₁ hlast hkey hj (hall j k bytes hinside hbefore hfile)

/-! ### A move that no other one crosses -/

/-- No other move crosses the way of a move: those before it do not
come from or go to its origin or a place above, and those behind it do
not come from or go to its target or a place above. -/
def Uncrossed (moves : List (String × String)) (m : String × String) : Prop :=
  ∃ before behind, moves = before ++ m :: behind ∧
    (∀ e ∈ before, isUnder m.1 e.1 = false ∧ isUnder m.1 e.2 = false) ∧
    ∀ e ∈ behind, isUnder m.2 e.1 = false ∧ isUnder m.2 e.2 = false

/-- Moves at whose ends nothing is a key or above it do not concern
it. -/
theorem beforeDirMoves_of_not_under {moves : List (String × String)} {key : String}
    (h : ∀ e ∈ moves, isUnder key e.1 = false ∧ isUnder key e.2 = false) :
    beforeDirMoves moves key = some key := by
  induction moves with
  | nil => rfl
  | cons m moves ih =>
      obtain ⟨⟨horigin, htarget⟩, hmoves⟩ := List.forall_mem_cons.mp h
      have hnone : replacePrefix? key m.2 m.1 = none := by
        rw [isUnder, Option.isSome_eq_false_iff, Option.isNone_iff_eq_none] at htarget
        rw [replacePrefix?, htarget, Option.map_none]
      rw [beforeDirMoves, hnone, horigin]
      exact ih hmoves

/-- The file at the target of an uncrossed move comes from its
origin. -/
theorem Uncrossed.beforeDirMoves_eq {moves : List (String × String)} {m : String × String}
    (h : Uncrossed moves m) (hm : Inside m.1 ∧ Inside m.2) :
    beforeDirMoves moves.reverse m.2 = some m.1 := by
  obtain ⟨before, behind, rfl, hbefore, hbehind⟩ := h
  obtain ⟨origin, target⟩ := m
  have hmove : replacePrefix? target target origin = some origin := by
    obtain ⟨names, as, bs, rfl, heq, rfl, hnames, ⟨-, has⟩, ⟨-, hbs⟩, hreplace⟩ :=
      replacePrefix?_inside hm.2 hm.2 hm.1
    rw [(ofNames_inj hnames has).mp heq] at hreplace ⊢
    rw [hreplace, if_pos List.prefix_rfl, List.drop_length, List.append_nil]
  rw [List.reverse_append, List.reverse_cons, List.append_assoc, beforeDirMoves_append,
    beforeDirMoves_of_not_under fun e he => hbehind e (List.mem_reverse.mp he), Option.bind_some,
    List.singleton_append, beforeDirMoves, hmove]
  exact beforeDirMoves_of_not_under fun e he => hbefore e (List.mem_reverse.mp he)

/-! ### The flush -/

/-- The disk on which a flush moves the files: its directories are
created and moved, and the deletions are done. -/
def cleared (w : Workspace) (d : Disk) : Option Disk := do
  let d ← w.dirs.toList.foldlM w.createdOn d
  let d ← w.dirMoves.foldlM w.movedOn d
  return w.deletions.keys.foldl w.deletedOn d

/-- A file that the view shows at a key is there when the files are
moved, unless a deletion is at the key or above it. -/
theorem KeysInside.bytes?_cleared (h : KeysInside w) (hd : d.IsTree) {d₂ : Disk}
    (hcleared : w.cleared d = some d₂) :
    d₂.IsTree ∧ ∀ key k bytes, Inside key → beforeDirMoves w.dirMoves.reverse key = some k →
      d.bytes? (w.place k) = some bytes → d₂.bytes? (w.place key) =
        if w.deletions.keys.any (isUnder key) then none else some bytes := by
  obtain ⟨d₀, hdirs, hcleared⟩ := Option.bind_eq_some_iff.mp hcleared
  obtain ⟨d₁, hdirMoves, hcleared⟩ := Option.bind_eq_some_iff.mp hcleared
  cases hcleared
  obtain ⟨hd₀, hcreated⟩ := bytes?_foldlM_createdOn hd hdirs
  obtain ⟨hd₁, hmoved⟩ := bytes?_foldlM_movedOn_of_before h.dirMoves hd₀ hdirMoves
  refine ⟨(find?_foldl_deletedOn h.deletions hd₁).1, fun key k bytes hkey hbefore hfile => ?_⟩
  rw [bytes?_foldl_deletedOn h.deletions hd₁ hkey.within,
    hmoved key k bytes hkey hbefore ((hcreated _).trans hfile)]

/-- The file at the target of an uncrossed move behind a flush, if it
was there to be moved. -/
theorem KeysInside.bytes?_flush (h : KeysInside w)
    (hok : (w.flush d).report?.isSome = true) :
    ∃ d₂, w.cleared d = some d₂ ∧ (d₂.IsTree → ∀ m ∈ w.moves, Uncrossed w.moves m →
      ∀ bytes, d₂.bytes? (w.place m.1) = some bytes →
        (w.flush d).disk.bytes? (w.place m.2) =
          if m.2 ∈ w.saves.toList then written (some bytes) (w.texts.find? m.2)
          else some bytes) := by
  obtain ⟨d₀, d₁, d₃, hdirs, hdirMoves, hmoves, hsaves⟩ :=
    w.phases_eq_some (w.phases_of_report hok)
  refine ⟨w.deletions.keys.foldl w.deletedOn d₁, ?_, fun hd₂ m hm hcross bytes hfile => ?_⟩
  · rw [cleared, hdirs, Option.bind_eq_bind, Option.bind_some, hdirMoves]
    rfl
  · obtain ⟨hd₃, hmoved⟩ := bytes?_foldlM_movedOn_of_before h.moves hd₂ hmoves
    have hinside := h.moves m hm
    have hapart : w.TellsApart (m.2 :: w.saves.toList) :=
      tellsApart_of_within
        (List.forall_mem_cons.mpr ⟨hinside.2.within, fun k hk => (h.saves k hk).within⟩)
    have hsaved := bytes?_foldlM_savedOn hapart (fun k hk => List.mem_cons_of_mem _ hk) hd₃ hsaves
      m.2 (List.mem_cons_self ..)
    -- The texts are written behind the moves.
    rw [hsaved, hmoved m.2 m.1 bytes hinside.2 (hcross.beforeDirMoves_eq hinside) hfile]

/-- **Deletions spare the files to be moved exactly if no call
endangers one, and then a flush keeps these files.** In all states of a
run no deletion is at or above the origin of a recorded move if and
only if no call of the run endangers a move.

Now let the paths of the calls lie inside the project, and take a file
that the view finds on disk for the target of a move. Behind the
deletions of a flush, the file stands at the origin of the move if no
deletion is there or above, and nothing does if one is. If the
deletions spare the moves, and no other move crosses this one, then a
flush that goes through leaves the file at the target, with the text
that was saved for it, if one was. -/
theorem spares_iff_and_flush_keeps {d : Disk} (hd : d.IsTree) (root : String)
    (settings : Settings) (filter : PathFilter) (calls : List Call) :
    let new := ofFilter root settings filter
    let w := new.run d calls
    ((∀ before, before <+: calls → (new.run d before).Spares) ↔
      ∀ before c, before ++ [c] <+: calls → ¬ (new.run d before).Endangers d c) ∧
    ((∀ c ∈ calls, ∀ p ∈ c.paths, new.key p ≠ "" ∧ leaves (new.key p) = false) →
      (w.flush d).report?.isSome = true →
      ∀ m k bytes, w.moves.find? (fun e => e.2 = m.2) = some m → w.diskKey? m.2 = some k →
        d.bytes? (w.place k) = some bytes →
        (∃ d₂, w.cleared d = some d₂ ∧ d₂.bytes? (w.place m.1) =
          if w.deletions.keys.any (isUnder m.1) then none else some bytes) ∧
        (w.Spares → Uncrossed w.moves m → (w.flush d).disk.bytes? (w.place m.2) =
          if m.2 ∈ w.saves.toList then written (some bytes) (w.texts.find? m.2)
          else some bytes)) := by
  intro new w
  refine ⟨forall_prefix_spares_iff (spares_ofFilter root settings filter) calls, ?_⟩
  intro hpaths hok m k bytes hfind hkey hfile
  have hinside : KeysInside w := keysInside_run (keysInside_ofFilter root settings filter)
    fun c hc p hp => inside_key (hpaths c hc p hp).1 (hpaths c hc p hp).2
  have hm : m ∈ w.moves := List.mem_of_find?_eq_some hfind
  have hbefore : beforeDirMoves w.dirMoves.reverse m.1 = some k := by
    rw [diskKey?, hfind] at hkey
    exact hkey
  obtain ⟨d₂, hcleared, hflush⟩ := hinside.bytes?_flush hok
  obtain ⟨hd₂, hshown⟩ := hinside.bytes?_cleared hd hcleared
  -- The view takes the content of the target from the origin of its move, through the
  -- directory moves.
  have hstands := hshown m.1 k bytes (hinside.moves m hm).1 hbefore hfile
  refine ⟨⟨d₂, hcleared, hstands⟩, fun hspares hcross => ?_⟩
  refine hflush hd₂ m hm hcross bytes ?_
  have hnone : w.deletions.keys.any (isUnder m.1) = false :=
    List.any_eq_false.mpr fun j hj => by rw [hspares m hm j hj]; simp
  rw [hstands, hnone]
  rfl

/-- A project with one file in a directory. -/
def oneFile : Disk :=
  ⟨[(["root"], .dir), (["root", "a"], .dir),
    (["root", "a", "x.js"], .file (Disk.bytesOf "x\n"))]⟩

/-- The file is moved out of the directory, and another one there is
deleted again. -/
def tidied : List Call :=
  [.moveFile "a/x.js" "b.js", .save "a/y.js" "y\n", .delete "a/y.js" .warn]

/-- The moved file is kept. -/
theorem spares_iff_and_flush_keeps_tidied :
    let w := (ofFilter "/root" Settings.default PathFilter.showAll).run oneFile tidied
    oneFile.IsTree ∧ w.Spares ∧ w.deletions.keys = ["a/y.js"] ∧
      (w.flush oneFile).disk.bytes? (w.place "b.js") = some (Disk.bytesOf "x\n") := by
  have htree : oneFile.IsTree := by decide
  have hflush := (spares_iff_and_flush_keeps htree "/root" Settings.default PathFilter.showAll
    tidied).2 (by decide +kernel) (by decide +kernel) ("a/x.js", "b.js") "a/x.js"
    (Disk.bytesOf "x\n") (by decide +kernel) (by decide +kernel) (by decide +kernel)
  exact ⟨htree, by decide +kernel, by decide +kernel,
    hflush.2 (by decide +kernel) ⟨[], [], by decide +kernel, by simp, by simp⟩⟩

/-- The file is moved out of the directory, and that is deleted. -/
def emptied : List Call := [.moveFile "a/x.js" "b.js", .delete "a" .warn]

/-- The view shows the moved file, but the flush deletes it where it
stands, and leaves none. -/
theorem flush_emptied_loses_file :
    let w := (ofFilter "/root" Settings.default PathFilter.showAll).run oneFile emptied
    let after := (w.flush oneFile).disk
    ((w.flush oneFile).report?.isSome = true ∧ w.moves = [("a/x.js", "b.js")] ∧
      w.deletions.keys = ["a"] ∧ w.fileExists oneFile (w.key "b.js") = true ∧
      (w.content oneFile "b.js").1 = .ok "x\n") ∧
      ¬ w.Spares ∧ after.isFile (w.place (w.key "b.js")) = false := by
  decide +kernel

end ScriptRefactor.Workspace
