import Mathlib.Algebra.Order.BigOperators.Group.List
import Mathlib.Algebra.Order.Group.Nat
import ScriptRefactor.Proofs.Workspace.ViewTree

/-!
# `ScriptRefactor.Proofs.Session.ModuleWalk`: the walk over all modules

The modules of a view are found by a walk over its listings. When the
view is whole, the walk comes by every module that is in no skipped
directory (`mem_modulesBelow`), and it goes deep enough, because no key
has more names than the disk and the staged keys allow
(`length_le_depthOf`).

A view need not be whole, and then modules are missed
(`walk_misses_restored_module`).
-/

set_option autoImplicit false

namespace ScriptRefactor.Session

open ScriptRefactor.Path Syntax Workspace

variable {d : Disk} {w : Workspace}

/-! ### Depth -/

/-- The greatest of some numbers is no less than each. -/
theorem le_foldl_max {α : Type} (f : α → Nat) (l : List α) (n : Nat) :
    n ≤ l.foldl (fun n a => Nat.max n (f a)) n
      ∧ ∀ a ∈ l, f a ≤ l.foldl (fun n a => Nat.max n (f a)) n := by
  induction l generalizing n with
  | nil => exact ⟨Nat.le_refl n, fun _ h => absurd h List.not_mem_nil⟩
  | cons a l ih =>
      obtain ⟨hn, hl⟩ := ih (Nat.max n (f a))
      rw [List.foldl_cons]
      refine ⟨Nat.le_trans (Nat.le_max_left ..) hn, List.forall_mem_cons.mpr ⟨?_, hl⟩⟩
      exact Nat.le_trans (Nat.le_max_right ..) hn

/-- Numbers added up are their sum. -/
theorem foldl_add_eq_sum {α : Type} (f : α → Nat) (l : List α) (n : Nat) :
    l.foldl (fun n a => n + f a) n = n + (l.map f).sum := by
  induction l generalizing n with
  | nil => rfl
  | cons a l ih => rw [List.foldl_cons, ih, List.map_cons, List.sum_cons, Nat.add_assoc]

/-- A file of the view has no more names than the walk goes deep. -/
theorem length_le_depthOf (hin : KeysInside w) {names : List (List Char)}
    (hnames : ∀ n ∈ names, IsName n) (hfile : w.fileExists d (ofNames names) = true) :
    names.length ≤ depthOf w d := by
  have hsum : depthOf w d = d.entries.foldl (fun n e => Nat.max n e.1.length) 0
      + (w.stagedKeys.map String.length).sum + 2 := by
    rw [depthOf, foldl_add_eq_sum, Nat.zero_add]
  by_cases hstaged : ofNames names ∈ w.stagedFiles
  · have hkey := List.mem_map_of_mem (f := String.length) (mem_stagedKeys_of_staged (.inl hstaged))
    have hle := List.le_sum_of_mem hkey
    have hlength := length_le_ofNames hnames
    omega
  · -- The file stands on disk, below where the directory moves take it.
    obtain ⟨-, hstaged' | ⟨-, -, hon⟩⟩ := fileExists_eq_true_iff.mp hfile
    · exact absurd hstaged' hstaged
    · obtain ⟨k, hk, hisFile⟩ := exists_place_of_onDisk hstaged hon
      have hmoves : ∀ m ∈ w.dirMoves.reverse, Inside m.1 ∧ Inside m.2 := fun m hm =>
        hin.dirMoves m (List.mem_reverse.mp hm)
      obtain ⟨b, hb, rfl, hle⟩ := length_le_of_beforeDirMoves hmoves hnames hk
      have htargets : (w.dirMoves.reverse.map fun m => m.2.length).sum
          ≤ (w.stagedKeys.map String.length).sum := by
        rw [List.map_reverse, List.sum_reverse, stagedKeys, List.map_append, List.sum_append,
          List.map_map]
        exact Nat.le_add_left _ _
      have hdepth : b.length ≤ d.entries.foldl (fun n e => Nat.max n e.1.length) 0 := by
        by_cases hroot : w.place (ofNames b) = []
        · rw [w.place_ofNames hb, List.append_eq_nil_iff, List.map_eq_nil_iff] at hroot
          rw [hroot.2]
          exact Nat.zero_le _
        · obtain ⟨bytes, hbytes⟩ := Option.isSome_iff_exists.mp hisFile
          obtain ⟨e, he, heq⟩ := (Disk.occupied_iff_mem hroot).mp (Disk.occupied_of_bytes? hbytes)
          have hentry := (le_foldl_max (fun e : Place × Entry => e.1.length) d.entries 0).2 e he
          rw [heq, w.place_ofNames hb, List.length_append, List.length_map] at hentry
          omega
      omega

/-! ### The walk -/

/-- In a whole view, the walk from a directory comes by the modules below
that are in no skipped directory, if it goes deep enough. -/
theorem mem_modulesBelow (hwhole : w.IsWhole d) (b rest : List (List Char)) (hne : rest ≠ [])
    (hall : ∀ m ∈ b ++ rest, IsName m) (hfile : w.fileExists d (ofNames (b ++ rest)) = true)
    (hnodir : w.dirExists d (ofNames (b ++ rest)) = false)
    (hmodule : (Dialect.ofPath? (ofNames (b ++ rest))).isSome = true)
    (hskip : ∀ dir, dir ≠ ofNames (b ++ rest) → isUnder (ofNames (b ++ rest)) dir = true →
      isSkippedDir (fileName dir) = false) {depth : Nat} (hdepth : rest.length ≤ depth) :
    ofNames (b ++ rest) ∈ modulesBelow w d depth (ofNames b) := by
  have hshown : ∀ a n, a ++ [n] <+: b ++ rest → w.shows d (ofNames (a ++ [n])) = true →
      ofNames (a ++ [n]) ∈ w.list d (ofNames a) := by
    intro a n hpre hshows
    have hnames : ∀ m ∈ a ++ [n], IsName m := fun m hm => hall m (hpre.subset hm)
    have hlist := (hwhole _ ⟨a ++ [n], by simp, hnames, rfl⟩ hshows).2
    rwa [parent_ofNames (hnames n (by simp))] at hlist
  induction rest generalizing b depth with
  | nil => exact absurd rfl hne
  | cons n rest ih =>
      obtain ⟨depth, rfl⟩ : ∃ k, depth = k + 1 := ⟨depth - 1, by simp at hdepth; omega⟩
      rw [modulesBelow, List.mem_flatMap]
      have happend : b ++ n :: rest = b ++ [n] ++ rest := List.append_cons b n rest
      by_cases hrest : rest = []
      · -- The module itself is listed.
        subst hrest
        refine ⟨ofNames (b ++ [n]), hshown b n List.prefix_rfl ?_, ?_⟩
        · rw [shows, hfile, Bool.true_or]
        · rw [hnodir, hmodule, hfile]
          exact List.mem_singleton.mpr rfl
      · -- The directory on the way to the module is listed, and walked.
        have hpre : b ++ [n] <+: b ++ n :: rest := happend ▸ List.prefix_append _ _
        have hnames : ∀ m ∈ b ++ [n], IsName m := fun m hm => hall m (hpre.subset hm)
        have hbelow : isUnder (ofNames (b ++ n :: rest)) (ofNames (b ++ [n])) = true :=
          (isUnder_ofNames hall hnames).mpr hpre
        have hother : ofNames (b ++ [n]) ≠ ofNames (b ++ n :: rest) := by
          rw [Ne, ofNames_inj hnames hall]
          simpa using Ne.symm hrest
        have hshows : w.shows d (ofNames (b ++ n :: rest)) = true := by
          rw [shows, hfile, Bool.true_or]
        have hdir := (hwhole _ ⟨_, by simp, hall, rfl⟩ hshows).1 _ hother hbelow
        refine ⟨ofNames (b ++ [n]), hshown b n hpre ?_, ?_⟩
        · rw [shows, hdir, Bool.or_true]
        · rw [hdir, if_pos rfl, hskip _ hother hbelow, if_neg (by simp)]
          rw [happend] at hall hfile hnodir hmodule hskip hshown ⊢
          exact ih (b ++ [n]) hrest hall hfile hnodir hmodule hskip
            (by simpa using hdepth) hshown

/-- In a whole view, the walk finds every module that is in no skipped
directory. -/
theorem mem_moduleFiles (hwhole : w.IsWhole d) (hin : KeysInside w) {file : String}
    (hinside : Inside file) (hfile : w.fileExists d file = true)
    (hnodir : w.dirExists d file = false) (hmodule : (Dialect.ofPath? file).isSome = true)
    (hskip : ∀ dir, dir ≠ file → isUnder file dir = true → isSkippedDir (fileName dir) = false) :
    file ∈ moduleFiles w d := by
  obtain ⟨names, hne, hnames, rfl⟩ := hinside
  rw [moduleFiles, List.mem_mergeSort]
  exact mem_modulesBelow hwhole [] names hne hnames hfile hnodir hmodule hskip
    (length_le_depthOf hin hnames hfile)

/-! ### Runs -/

/-- **A view is a tree exactly if what is staged has directories above
it, and then the walk finds all modules.** Let the disk be a tree, the
listings show everything, and the paths of the calls lie inside the
project.

In every state of a run, all that the view shows has directories above it
and is listed, if and only if no staged file has a deleted directory on
its way, every staged directory stands in a directory, and what the view
shows where a moved directory arrives, or below the target of a moved
file, is listed. The walk over the listings then finds every module of
the view that is in no skipped directory and no directory itself. -/
theorem isWhole_iff_rooted_and_walk_finds {d : Disk} (hd : d.IsTree) (root : String)
    (settings : Settings) (filter : PathFilter) (hfilter : ∀ path, filter.shows path = true)
    (calls : List Call)
    (hpaths : ∀ c ∈ calls, ∀ p ∈ c.paths, (ofFilter root settings filter).key p ≠ ""
      ∧ leaves ((ofFilter root settings filter).key p) = false) :
    let w := (ofFilter root settings filter).run d calls
    (w.IsWhole d ↔ w.Rooted d) ∧
      (w.Rooted d → ∀ file, Inside file → w.fileExists d file = true →
        w.dirExists d file = false → (Dialect.ofPath? file).isSome = true →
        (∀ dir, dir ≠ file → isUnder file dir = true → isSkippedDir (fileName dir) = false) →
          file ∈ moduleFiles w d) := by
  intro w
  have hinside : ∀ c ∈ calls, ∀ p ∈ c.paths, Inside ((ofFilter root settings filter).key p) :=
    fun c hc p hp => inside_key (hpaths c hc p hp).1 (hpaths c hc p hp).2
  have hin : KeysInside w := keysInside_run (keysInside_ofFilter root settings filter) hinside
  have hst : StagedInside w :=
    stagedInside_run (stagedInside_ofFilter root settings filter) hinside
  have hshown : ∀ path, w.filter.shows path = true := by
    rw [filter_run]
    exact hfilter
  have hiff := isWhole_iff hd hin hst hshown
  exact ⟨hiff, fun hrooted file => mem_moduleFiles (hiff.mpr hrooted) hin⟩

/-- A project with a module in a directory. -/
def oneModule : Disk :=
  ⟨[(["root"], .dir), (["root", "a"], .dir),
    (["root", "a", "x.js"], .file (Disk.bytesOf "x\n"))]⟩

/-- The directory is moved, and another module is staged in it. -/
def movedModule : List Call := [.moveDir "a" "b", .save "b/y.js" "y\n"]

/-- The view is a tree, and the walk finds both modules. -/
theorem isWhole_iff_rooted_and_walk_finds_moved :
    let w := (ofFilter "/root" Settings.default PathFilter.showAll).run oneModule movedModule
    w.IsWhole oneModule ∧ "b/x.js" ∈ moduleFiles w oneModule ∧
      "b/y.js" ∈ moduleFiles w oneModule := by
  have h := isWhole_iff_rooted_and_walk_finds (d := oneModule) (by decide) "/root" Settings.default
    PathFilter.showAll (fun path => rfl) movedModule (by decide +kernel)
  have hrooted : ((ofFilter "/root" Settings.default PathFilter.showAll).run oneModule
      movedModule).Rooted oneModule := by decide +kernel
  have hskip : ∀ file ∈ ["b/x.js", "b/y.js"], ∀ dir, dir ≠ file → isUnder file dir = true →
      isSkippedDir (fileName dir) = false := by
    have hall : ∀ file ∈ ["b/x.js", "b/y.js"], ∀ dir ∈ upwards file, dir ≠ file →
        isSkippedDir (fileName dir) = false := by decide +kernel
    exact fun file hfile dir hne hunder => hall file hfile dir (mem_upwards.mpr hunder) hne
  exact ⟨h.1.mpr hrooted,
    h.2 hrooted "b/x.js" ⟨[['b'], ['x', '.', 'j', 's']], by decide, by decide, by decide⟩
      (by decide +kernel) (by decide +kernel) (by decide +kernel) (hskip _ (by decide)),
    h.2 hrooted "b/y.js" ⟨[['b'], ['y', '.', 'j', 's']], by decide, by decide, by decide⟩
      (by decide +kernel) (by decide +kernel) (by decide +kernel) (hskip _ (by decide))⟩

/-- A project without anything. -/
def nothing : Disk := ⟨[(["root"], .dir)]⟩

/-- A directory is staged below one that is not there. -/
def nestedDir : List Call := [.mkdir "a/b"]

/-- The directory is deleted, and its module is staged again. -/
def restoredModule : List Call := [.delete "a" .warn, .save "a/x.js" "y\n"]

/-- A view need not be a tree. A directory that is staged below none has
no directory above it, and is not reached by the listings. A module that
is staged in a deleted directory has none above it either, and the walk
misses it. -/
theorem walk_misses_restored_module :
    let new := ofFilter "/root" Settings.default PathFilter.showAll
    let nested := new.run nothing nestedDir
    let restored := new.run oneModule restoredModule
    (nested.dirExists nothing "a/b" = true ∧ nested.dirExists nothing "a" = false ∧
      nested.list nothing "" = [] ∧ ¬ nested.IsWhole nothing) ∧
    (restored.fileExists oneModule "a/x.js" = true ∧ restored.dirExists oneModule "a" = false ∧
      moduleFiles restored oneModule = [] ∧ ¬ restored.IsWhole oneModule) := by
  intro new nested restored
  have hwalk : modulesBelow restored oneModule (depthOf restored oneModule) "" = [] := by
    decide +kernel
  have hnested : nested.dirExists nothing "a" = false := by decide +kernel
  have hrestored : restored.dirExists oneModule "a" = false := by decide +kernel
  refine ⟨⟨by decide +kernel, hnested, by decide +kernel, fun h => ?_⟩,
    ⟨by decide +kernel, hrestored, ?_, fun h => ?_⟩⟩
  · have hup := (h "a/b" ⟨[['a'], ['b']], by decide, by decide, by decide⟩ (by decide +kernel)).1
      "a" (by decide) (by decide)
    exact absurd (hup.symm.trans hnested) (by decide)
  · rw [moduleFiles, hwalk, List.mergeSort_nil]
  · have hup := (h "a/x.js" ⟨[['a'], ['x', '.', 'j', 's']], by decide, by decide, by decide⟩
      (by decide +kernel)).1 "a" (by decide) (by decide)
    exact absurd (hup.symm.trans hrestored) (by decide)

end ScriptRefactor.Session
