import ScriptRefactor.Proofs.Session.ModuleWalk
import ScriptRefactor.Proofs.Workspace.MovedView

/-!
# `ScriptRefactor.Proofs.Session.MovedWalk`: the walk before and behind a move

Where nothing is deleted and no directory was moved, the walk over all
modules comes by the same other modules before and behind a file move
(`others_moduleFiles`), as long as neither key of the move has a file
above or below it (`IsClear`).

The walks may take different ways: a directory is shown as long as it
holds something, so it may appear or vanish with the moved file. But the
part of the walk below such a directory comes by no other module
(`others_found_of_vanished`), and a directory that still holds one is a
member of the same listing in both views (`mem_members_of_found`). The
walks go deep enough both, so their depths make no difference
(`modulesBelow_eq_of_le`).
-/

set_option autoImplicit false

namespace ScriptRefactor

open ScriptRefactor.Path Syntax

/-- Everything on disk goes by names that are segments of paths. -/
def Disk.IsNamed (d : Disk) : Prop := ∀ e ∈ d.entries, ∀ name ∈ e.1, IsName name.toList

instance (d : Disk) : Decidable d.IsNamed :=
  inferInstanceAs (Decidable (∀ e ∈ d.entries, _))

/-- The names in a directory are names. -/
theorem Disk.IsNamed.isName {d : Disk} (hd : d.IsNamed) {p : Place} {name : String}
    (h : name ∈ d.names p) : IsName name.toList := by
  unfold Disk.names at h
  split at h
  · obtain ⟨e, he, hname⟩ := List.mem_filterMap.mp h
    unfold nameIn? at hname
    split at hname
    · split at hname
      · rename_i last _ heq
        obtain rfl := Option.some.inj hname
        exact hd e he last (by rw [heq]; simp)
      · cases hname
    · cases hname
  · exact absurd h List.not_mem_nil

namespace Session

open Workspace

variable {w v : Workspace} {d : Disk} {o t : String} {b : List (List Char)} {depth : Nat}

/-! ### Lists put together -/

/-- What is made of some members of a list is made of all, if the others
make nothing. -/
theorem flatMap_filter {α β : Type} (p : α → Bool) (f : α → List β) (l : List α) :
    (l.filter p).flatMap f = l.flatMap fun a => if p a then f a else [] := by
  induction l with
  | nil => rfl
  | cons a l ih => by_cases h : p a = true <;> simp [h, ih]

/-- Of two lists in ascending order the same is made if all members of
which something is made are in both. -/
theorem flatMap_eq_of_ascending {β : Type} {l l' : List String} {f g : String → List β}
    (hl : l.Pairwise (· < ·)) (hl' : l'.Pairwise (· < ·)) (hfg : ∀ a, a ∈ l ∨ a ∈ l' → f a = g a)
    (hmem : ∀ a, f a ≠ [] → a ∈ l → a ∈ l') (hmem' : ∀ a, g a ≠ [] → a ∈ l' → a ∈ l) :
    l.flatMap f = l'.flatMap g := by
  have hdrop : ∀ (h : String → List β) (l : List String),
      (l.filter fun a => !(h a).isEmpty).flatMap h = l.flatMap h := by
    intro h l
    rw [flatMap_filter]
    refine List.flatMap_congr fun a _ => ?_
    cases h a <;> rfl
  have hsame : (l.filter fun a => !(f a).isEmpty) = l'.filter fun a => !(g a).isEmpty := by
    refine List.Pairwise.eq_of_mem_iff (hl.filter _) (hl'.filter _) fun a => ?_
    simp only [List.mem_filter, Bool.not_eq_true', List.isEmpty_eq_false_iff]
    constructor
    · rintro ⟨ha, hf⟩
      exact ⟨hmem a hf ha, hfg a (.inl ha) ▸ hf⟩
    · rintro ⟨ha, hg⟩
      exact ⟨hmem' a hg ha, (hfg a (.inr ha)).symm ▸ hg⟩
  rw [← hdrop f, ← hdrop g, hsame]
  refine List.flatMap_congr fun a ha => hfg a (.inr (List.mem_filter.mp ha).1)

/-! ### What a walk comes by -/

/-- All staged keys are inside. -/
theorem inside_of_mem_stagedKeys (hin : KeysInside w) (hst : StagedInside w) :
    ∀ k ∈ w.stagedKeys, Inside k := by
  intro k hk
  simp only [stagedKeys, List.mem_append, List.mem_map] at hk
  rcases hk with (((hk | hk) | hk) | ⟨m, hm, rfl⟩) | ⟨m, hm, rfl⟩
  · exact hst.texts k hk
  · exact hin.saves k hk
  · exact hst.dirs k hk
  · exact (hin.moves m hm).2
  · exact (hin.dirMoves m hm).2

/-- A member of a directory is reached by one more name. -/
theorem exists_name_of_mem_members (hd : d.IsNamed) (hw : ∀ k ∈ w.stagedKeys, Inside k)
    (hb : ∀ m ∈ b, IsName m) {path : String} (h : path ∈ (w.members d (ofNames b)).toList) :
    ∃ n, IsName n ∧ path = ofNames (b ++ [n]) := by
  rcases List.mem_append.mp ((KeySet.mem_ofList _ _).mp h) with h | h
  · split at h
    · obtain ⟨name, hname, rfl⟩ := List.mem_map.mp h
      have hn := hd.isName hname
      refine ⟨name.toList, hn, ?_⟩
      rw [← join_ofNames hb hn, String.ofList_toList]
    · exact absurd h List.not_mem_nil
  · obtain ⟨k, hk, hmember⟩ := List.mem_filterMap.mp h
    obtain ⟨hup, hne, hparent⟩ := (memberOf?_eq_some_iff (hw k hk)).mp hmember
    obtain ⟨names, hnames, rfl⟩ := (hw k hk).within.of_isUnder (mem_upwards.mp hup)
    have hnil : names ≠ [] := by
      rintro rfl
      exact hne rfl
    rw [← List.dropLast_concat_getLast hnil] at hnames hparent ⊢
    have hlast := hnames (names.getLast hnil) (by simp)
    rw [parent_ofNames hlast, ofNames_inj (fun m hm => hnames m (by simp [hm])) hb] at hparent
    exact ⟨_, hlast, by rw [hparent]⟩

/-- What the walk comes by at a member of a directory, if it is
listed. -/
def found (w : Workspace) (d : Disk) (depth : Nat) (path : String) : List String :=
  if w.isListed d path then
    if w.dirExists d path then
      if isSkippedDir (fileName path) then [] else modulesBelow w d depth path
    else if (Dialect.ofPath? path).isSome && w.fileExists d path then [path]
    else []
  else []

/-- A walk comes by what it comes by at each member of the directory. -/
theorem modulesBelow_succ (hb : ∀ m ∈ b, IsName m) (depth : Nat) :
    modulesBelow w d (depth + 1) (ofNames b)
      = (w.members d (ofNames b)).toList.flatMap (found w d depth) := by
  rw [modulesBelow, list, w.key_within ⟨b, hb, rfl⟩, flatMap_filter]
  rfl

/-- A walk comes by files that lie below the directory, and not
deeper than it goes. -/
theorem of_mem_modulesBelow (hd : d.IsNamed) (hw : ∀ k ∈ w.stagedKeys, Inside k)
    (hb : ∀ m ∈ b, IsName m) {file : String} (h : file ∈ modulesBelow w d depth (ofNames b)) :
    w.fileExists d file = true ∧ ∃ rest, rest ≠ [] ∧ rest.length ≤ depth
      ∧ (∀ m ∈ b ++ rest, IsName m) ∧ file = ofNames (b ++ rest) := by
  induction depth generalizing b with
  | zero => exact absurd h List.not_mem_nil
  | succ depth ih =>
      rw [modulesBelow_succ hb, List.mem_flatMap] at h
      obtain ⟨path, hpath, h⟩ := h
      obtain ⟨n, hn, rfl⟩ := exists_name_of_mem_members hd hw hb hpath
      have hall : ∀ m ∈ b ++ [n], IsName m :=
        List.forall_mem_append.mpr ⟨hb, List.forall_mem_singleton.mpr hn⟩
      -- The member is a directory that is walked, a module, or nothing that the walk comes by.
      unfold found at h
      split at h
      · split at h
        · split at h
          · exact absurd h List.not_mem_nil
          · obtain ⟨hfile, rest, -, hlen, hrest, rfl⟩ := ih hall h
            rw [List.append_assoc] at hrest
            refine ⟨hfile, [n] ++ rest, by simp, ?_, hrest, by rw [List.append_assoc]⟩
            rw [List.length_append, List.length_singleton]
            omega
        · split at h
          · rename_i hmodule
            obtain rfl := List.mem_singleton.mp h
            exact ⟨(Bool.and_eq_true_iff.mp hmodule).2, [n], by simp, by simp, hall, rfl⟩
          · exact absurd h List.not_mem_nil
      · exact absurd h List.not_mem_nil

/-- At a member of a directory, the walk comes by the member, if it is a
file, or by files below it. -/
theorem of_mem_found (hd : d.IsNamed) (hw : ∀ k ∈ w.stagedKeys, Inside k) {path file : String}
    (hpath : Inside path) (h : file ∈ found w d depth path) :
    w.fileExists d file = true ∧ Inside file ∧ isUnder file path = true
      ∧ (w.dirExists d path = true → file ≠ path) := by
  obtain ⟨names, hne, hnames, rfl⟩ := hpath
  unfold found at h
  split at h
  · split at h
    · split at h
      · exact absurd h List.not_mem_nil
      · obtain ⟨hfile, rest, hrest, -, hall, rfl⟩ := of_mem_modulesBelow hd hw hnames h
        refine ⟨hfile, ⟨_, by simp [hne], hall, rfl⟩,
          (isUnder_ofNames hall hnames).mpr (List.prefix_append _ _), fun _ => ?_⟩
        rw [Ne, ofNames_inj hall hnames]
        simpa using hrest
    · split at h
      · rename_i hdir hmodule
        obtain rfl := List.mem_singleton.mp h
        exact ⟨(Bool.and_eq_true_iff.mp hmodule).2, ⟨names, hne, hnames, rfl⟩, isUnder_self _,
          fun hdir' => absurd hdir' hdir⟩
      · exact absurd h List.not_mem_nil
  · exact absurd h List.not_mem_nil

/-! ### Depth -/

/-- A walk that is as deep as the view comes by the same modules as a
deeper one. -/
theorem modulesBelow_eq_of_le (hd : d.IsNamed) (hw : ∀ k ∈ w.stagedKeys, Inside k) {bound : Nat}
    (hbound : ∀ names : List (List Char), (∀ m ∈ names, IsName m) →
      w.fileExists d (ofNames names) = true → names.length ≤ bound)
    (hb : ∀ m ∈ b, IsName m) {deep : Nat} (hdepth : bound ≤ b.length + depth)
    (hdeep : depth ≤ deep) :
    modulesBelow w d deep (ofNames b) = modulesBelow w d depth (ofNames b) := by
  induction depth generalizing b deep with
  | zero =>
      refine List.eq_nil_iff_forall_not_mem.mpr fun file hfile => ?_
      obtain ⟨hexists, rest, hrest, -, hall, rfl⟩ := of_mem_modulesBelow hd hw hb hfile
      have hlen := hbound _ hall hexists
      rw [List.length_append] at hlen
      have hpos := List.length_pos_iff.mpr hrest
      omega
  | succ depth ih =>
      obtain ⟨deep, rfl⟩ : ∃ k, deep = k + 1 := ⟨deep - 1, by omega⟩
      rw [modulesBelow_succ hb, modulesBelow_succ hb]
      refine List.flatMap_congr fun path hpath => ?_
      obtain ⟨n, hn, rfl⟩ := exists_name_of_mem_members hd hw hb hpath
      have hall : ∀ m ∈ b ++ [n], IsName m :=
        List.forall_mem_append.mpr ⟨hb, List.forall_mem_singleton.mpr hn⟩
      unfold found
      rw [ih hall (by simp; omega) (Nat.le_of_succ_le_succ hdeep)]

/-- However deep the walk goes, provided that it goes deep enough, it comes
by the modules of the view. -/
theorem modulesBelow_eq (hd : d.IsNamed) (hin : KeysInside w) (hst : StagedInside w)
    (hdepth : depthOf w d ≤ depth) : modulesBelow w d depth "" = modulesBelow w d (depthOf w d) "" :=
  modulesBelow_eq_of_le hd (inside_of_mem_stagedKeys hin hst) (b := [])
    (fun _ hnames hfile => length_le_depthOf hin hnames hfile) (by simp) (by simp) hdepth

/-! ### The other modules -/

/-- The files but two. -/
def others (o t : String) (files : List String) : List String :=
  files.filter fun f => f ≠ o && f ≠ t

/-- A file but two. -/
theorem mem_others {files : List String} {file : String} :
    file ∈ others o t files ↔ file ∈ files ∧ file ≠ o ∧ file ≠ t := by
  simp [others]

/-- The view is plain, and no file is above or below the two keys. -/
structure IsClear (w : Workspace) (d : Disk) (o t : String) : Prop where
  /-- Nothing is deleted, and no directory was moved. -/
  plain : w.Plain
  /-- All staged keys are inside. -/
  keys : ∀ k ∈ w.stagedKeys, Inside k
  /-- No file is above. -/
  above : ∀ key dir, key = o ∨ key = t → dir ≠ key → isUnder key dir = true →
    w.fileExists d dir = false
  /-- No file is below. -/
  below : ∀ key file, key = o ∨ key = t → Inside file → file ≠ key → isUnder file key = true →
    w.fileExists d file = false

section Walks

variable (hw : IsClear w d o t) (hv : IsClear v d o t) (hwv : AgreesBeside w v d o t)
  (hd : d.IsTree) (hnamed : d.IsNamed)

include hw hnamed in
/-- At one of the two keys, a walk comes by no other module. -/
theorem others_found_eq_nil {path : String} (hpath : Inside path) (heq : path = o ∨ path = t) :
    others o t (found w d depth path) = [] := by
  refine List.eq_nil_iff_forall_not_mem.mpr fun file hfile => ?_
  obtain ⟨hmem, ho, ht⟩ := mem_others.mp hfile
  obtain ⟨hexists, hinside, hunder, -⟩ := of_mem_found hnamed hw.keys hpath hmem
  have hne : file ≠ path := by
    rcases heq with rfl | rfl
    · exact ho
    · exact ht
  rw [hw.below path file heq hinside hne hunder] at hexists
  cases hexists

include hw hv hwv hd hnamed in
/-- At a directory that only one of the views shows, a walk comes by no
other module. -/
theorem others_found_of_vanished {path : String} (hpath : Inside path)
    (hfile : w.fileExists d path = false) (hdir : w.dirExists d path = false)
    (hdir' : v.dirExists d path = true) : others o t (found v d depth path) = [] := by
  refine List.eq_nil_iff_forall_not_mem.mpr fun file hmem => ?_
  obtain ⟨hmem, ho, ht⟩ := mem_others.mp hmem
  obtain ⟨hexists, hinside, hunder, hne⟩ := of_mem_found hnamed hv.keys hpath hmem
  -- The other view shows the file, too, and so the directory above it.
  rw [hwv.file file ho ht] at hexists
  have habove := hw.plain.dirExists_of_file hd hinside hexists (hne hdir') hunder hfile
  exact absurd (habove.symm.trans hdir) (by decide)

include hw hv hwv hd hnamed in
/-- The walks come by the same other modules at a member of a directory if
they do so below it. -/
theorem others_found_eq {path : String} (hpath : Inside path)
    (hbelow : path ≠ o → path ≠ t →
      others o t (modulesBelow w d depth path) = others o t (modulesBelow v d depth path)) :
    others o t (found w d depth path) = others o t (found v d depth path) := by
  by_cases heq : path = o ∨ path = t
  · rw [others_found_eq_nil hw hnamed hpath heq, others_found_eq_nil hv hnamed hpath heq]
  obtain ⟨ho, ht⟩ := not_or.mp heq
  have hfile := hwv.file path ho ht
  by_cases hdir : v.dirExists d path = w.dirExists d path
  · have hlisted : v.isListed d path = w.isListed d path := by
      rw [isListed, isListed, hfile, hdir, hwv.filter]
    unfold found
    rw [hlisted, hdir, hfile]
    split
    · split
      · split
        · rfl
        · exact hbelow ho ht
      · rfl
    · rfl
  · -- One of the keys lies below a directory that is shown in one view only.
    have hnofile : w.fileExists d path = false := by
      by_contra hexists
      have hclear : ∀ key, key = o ∨ key = t → path ≠ key → isUnder key path = false := by
        intro key hkey hne
        refine Bool.eq_false_iff.mpr fun hunder => hexists ?_
        exact hw.above key path hkey hne hunder
      exact hdir (hwv.dirExists hw.plain hv.plain (hclear o (.inl rfl) ho)
        (hclear t (.inr rfl) ht))
    have hnofile' : v.fileExists d path = false := hfile.trans hnofile
    have hnil : ∀ u : Workspace, u.fileExists d path = false → u.dirExists d path = false →
        others o t (found u d depth path) = [] := by
      intro u hf hn
      rw [found, isListed, hf, hn]
      rfl
    cases hdirw : w.dirExists d path with
    | false =>
        have hdirv : v.dirExists d path = true := by
          rw [hdirw] at hdir
          simpa using hdir
        rw [hnil w hnofile hdirw,
          others_found_of_vanished hw hv hwv hd hnamed hpath hnofile hdirw hdirv]
    | true =>
        have hdirv : v.dirExists d path = false := by
          rw [hdirw] at hdir
          simpa using hdir
        rw [hnil v hnofile' hdirv,
          others_found_of_vanished hv hw hwv.symm hd hnamed hpath hnofile' hdirv hdirw]

include hw hv hwv hd hnamed in
/-- A member of a directory at which a walk comes by another module is a
member in both views. -/
theorem mem_members_of_found (hb : ∀ m ∈ b, IsName m) (ho : ofNames b ≠ o) (ht : ofNames b ≠ t)
    {path : String} (hne : others o t (found w d depth path) ≠ [])
    (hmem : path ∈ (w.members d (ofNames b)).toList) :
    path ∈ (v.members d (ofNames b)).toList := by
  obtain ⟨n, hn, rfl⟩ := exists_name_of_mem_members hnamed hw.keys hb hmem
  have hall : ∀ m ∈ b ++ [n], IsName m :=
    List.forall_mem_append.mpr ⟨hb, List.forall_mem_singleton.mpr hn⟩
  have hinside : Inside (ofNames (b ++ [n])) := ⟨_, by simp, hall, rfl⟩
  have hparent := parent_ofNames (b := b) hn
  rcases List.mem_append.mp ((KeySet.mem_ofList _ _).mp hmem) with h | h
  · -- What is on disk in the directory is on disk there.
    refine (KeySet.mem_ofList _ _).mpr (List.mem_append_left _ ?_)
    rw [hwv.disk _ ho ht, place_congr hwv.root]
    exact h
  · obtain ⟨k, hk, hmember⟩ := List.mem_filterMap.mp h
    obtain ⟨hup, hroot, -⟩ := (memberOf?_eq_some_iff (hw.keys k hk)).mp hmember
    by_cases heq : k = o ∨ k = t
    · -- Another module lies below the member, and takes the place of `k`.
      obtain ⟨file, hfile⟩ := List.exists_mem_of_ne_nil _ hne
      obtain ⟨hfound, hfo, hft⟩ := mem_others.mp hfile
      obtain ⟨hexists, hfinside, hunder, -⟩ := of_mem_found hnamed hw.keys hinside hfound
      rw [← hwv.file file hfo hft] at hexists
      by_cases hstaged : file ∈ v.stagedFiles
      · have hmem := mem_members_of_upwards (d := d) (mem_stagedKeys_of_staged (.inl hstaged))
          hfinside (mem_upwards.mpr hunder) hroot
        rwa [hparent] at hmem
      · have hplace := hv.plain.isFile_place hexists hstaged
        obtain ⟨bytes, hbytes⟩ := Option.isSome_iff_exists.mp hplace
        have hocc := hd.occupied_of_prefix
          ((v.prefix_place_iff hfinside.within hinside.within).mpr hunder)
          (Disk.occupied_of_bytes? hbytes)
        have habove : isUnder k (ofNames b) = true := by
          refine isUnder_trans (mem_upwards.mp hup) ?_
          exact (isUnder_ofNames hall hb).mpr (List.prefix_append _ _)
        have hother : ofNames b ≠ k := by
          rcases heq with rfl | rfl
          · exact ho
          · exact ht
        have hself := hv.plain.diskKey?_eq_self (hv.above k _ heq hother habove)
        have hmem := mem_members_of_occupied hinside hd (by rwa [hparent]) hocc
        rwa [hparent] at hmem
    · obtain ⟨hko, hkt⟩ := not_or.mp heq
      have hmem := mem_members_of_upwards (d := d) ((hwv.keys k hko hkt).mpr hk) (hw.keys k hk)
        hup hroot
      rwa [hparent] at hmem

include hw hv hwv hd hnamed in
/-- Walks that are equally deep come by the same other modules. -/
theorem others_modulesBelow (hb : ∀ m ∈ b, IsName m) (ho : ofNames b ≠ o) (ht : ofNames b ≠ t) :
    others o t (modulesBelow w d depth (ofNames b))
      = others o t (modulesBelow v d depth (ofNames b)) := by
  induction depth generalizing b with
  | zero => rfl
  | succ depth ih =>
      rw [modulesBelow_succ hb, modulesBelow_succ hb, others, others, List.filter_flatMap,
        List.filter_flatMap]
      refine flatMap_eq_of_ascending (KeySet.pairwise_ofList _) (KeySet.pairwise_ofList _) ?_
        (fun path hne => mem_members_of_found hw hv hwv hd hnamed hb ho ht hne)
        fun path hne => mem_members_of_found hv hw hwv.symm hd hnamed hb ho ht hne
      intro path hpath
      obtain ⟨n, hn, rfl⟩ := hpath.elim (exists_name_of_mem_members hnamed hw.keys hb)
        (exists_name_of_mem_members hnamed hv.keys hb)
      have hall : ∀ m ∈ b ++ [n], IsName m :=
        List.forall_mem_append.mpr ⟨hb, List.forall_mem_singleton.mpr hn⟩
      exact others_found_eq hw hv hwv hd hnamed ⟨_, by simp, hall, rfl⟩ fun ho ht => ih hall ho ht

include hw hv hwv hd hnamed in
/-- The same other modules are found in both views, in the same
order. -/
theorem others_moduleFiles (hwin : KeysInside w) (hwst : StagedInside w) (hvin : KeysInside v)
    (hvst : StagedInside v) (ho : o ≠ "") (ht : t ≠ "") :
    others o t (moduleFiles w d) = others o t (moduleFiles v d) := by
  have hbelow : others o t (modulesBelow w d (depthOf w d) "")
      = others o t (modulesBelow v d (depthOf v d) "") := by
    rw [← modulesBelow_eq hnamed hwin hwst (Nat.le_max_left (depthOf w d) (depthOf v d)),
      ← modulesBelow_eq hnamed hvin hvst (Nat.le_max_right (depthOf w d) (depthOf v d))]
    exact others_modulesBelow hw hv hwv hd hnamed (b := []) (by simp) ho.symm ht.symm
  have hsorted : ∀ files : List String,
      (files.mergeSort fun a b => a ≤ b).Pairwise (· ≤ ·) := fun files => by
    simpa using @List.pairwise_mergeSort String (fun a b => decide (a ≤ b))
      (fun a b c => by simpa using String.le_trans) (fun a b => by simpa using String.le_total a b)
      files
  have hperm : (others o t (moduleFiles w d)).Perm (others o t (moduleFiles v d)) :=
    ((List.mergeSort_perm ..).filter _).trans
      ((List.Perm.of_eq hbelow).trans ((List.mergeSort_perm ..).filter _).symm)
  exact hperm.eq_of_pairwise (fun _ _ _ _ => String.le_antisymm) ((hsorted _).filter _)
    ((hsorted _).filter _)

end Walks

end Session

end ScriptRefactor
