import ScriptRefactor.Proofs.Session.RedirectReferences
import ScriptRefactor.Proofs.Workspace.Keys
import ScriptRefactor.Proofs.Workspace.Reads

/-!
# `ScriptRefactor.Proofs.Session.FailedUpdates`: what a failed update leaves

An update of references fails at the first module that cannot be read, or
that an edit leaves unparsable. Nothing is taken back then: the modules in
front of it in the walk have been updated, and stay so
(`updateReferences_error`).

What an update can stage at all is told by `Stages`: texts of some files
are saved, and everything else stays. This holds of each module that is
updated, whether its update goes through or not, and so of every part of a
walk.
-/

set_option autoImplicit false

namespace ScriptRefactor

open ScriptRefactor.Path ScriptRefactor.Text Syntax

/-- Nothing is erased under a key that is not there. -/
theorem Table.erase_of_not_mem {α : Type} {t : Table α} {k : String} (h : k ∉ t.keys) :
    t.erase k = t := by
  have hentries : t.entries.filter (fun e => decide (e.1 ≠ k)) = t.entries :=
    List.filter_eq_self.mpr fun e he => decide_eq_true fun hkey =>
      h (List.mem_map.mpr ⟨e, he, hkey⟩)
  rw [erase, filterKeys, hentries]

namespace Workspace

variable {w v u : Workspace} {d : Disk} {files more : List String} {file key text : String}

/-! ### The keys of a walk -/

/-- A path seen from a directory of the project is its own key. -/
theorem key_join {dir rest : String} (hdir : startsAtRoot dir = false)
    (hrest : startsAtRoot rest = false) :
    w.key (join dir rest) = join dir rest ∧ startsAtRoot (join dir rest) = false := by
  obtain ⟨path, hjoin, hpath⟩ : ∃ path, join dir rest = normalize path ∧
      startsAtRoot path = false := by
    unfold join
    split
    · exact ⟨rest, rfl, hrest⟩
    · rename_i hne
      refine ⟨dir ++ "/" ++ rest, rfl, ?_⟩
      have hchars : dir.toList ≠ [] := fun hnil =>
        hne (String.isEmpty_iff.mpr (String.toList_eq_nil_iff.mp hnil))
      obtain ⟨c, cs, hcs⟩ := List.exists_cons_of_ne_nil hchars
      rw [startsAtRoot, hcs] at hdir
      rw [startsAtRoot, String.toList_append, String.toList_append, hcs]
      exact hdir
  refine ⟨hjoin ▸ (key_normalize_of_not_startsAtRoot w hpath).2, ?_⟩
  rw [hjoin, ← isFromRoot_normalize, normalize_normalize, isFromRoot_normalize, hpath]

/-- A segment does not start at the root of the file system. -/
theorem startsAtRoot_segment {n : List Char} (hslash : '/' ∉ n) (hback : '\\' ∉ n) :
    startsAtRoot (String.ofList n) = false := by
  rw [startsAtRoot, String.toList_ofList]
  cases n with
  | nil => rfl
  | cons c cs =>
      have hsame : separator c = c := by
        rw [separator, if_neg]
        rintro rfl
        exact hback List.mem_cons_self
      rw [List.map_cons, isFromRoot, hsame, List.head?_cons]
      refine decide_eq_false fun hc => hslash ?_
      rw [Option.some.inj hc]
      exact List.mem_cons_self

/-- A member of a directory of the project is its own key. -/
theorem key_of_mem_members (hnamed : d.IsNamed) (hkeys : ∀ k ∈ w.stagedKeys, '\\' ∉ k.toList)
    {dir path : String} (hdir : startsAtRoot dir = false)
    (h : path ∈ (w.members d dir).toList) :
    w.key path = path ∧ startsAtRoot path = false := by
  rcases List.mem_append.mp ((KeySet.mem_ofList _ _).mp h) with h | h
  · -- A member on disk has one more name.
    split at h
    · obtain ⟨name, hname, rfl⟩ := List.mem_map.mp h
      have hn := hnamed.isName hname
      have hsegment := startsAtRoot_segment hn.2.1 hn.2.2
      rw [String.ofList_toList] at hsegment
      exact key_join hdir hsegment
    · exact absurd h List.not_mem_nil
  · -- A staged member is cut out of a staged key, which has no backslash.
    obtain ⟨k, hk, hmember⟩ := List.mem_filterMap.mp h
    unfold memberOf? at hmember
    split at hmember
    · cases hmember
    · obtain ⟨rest, hrest, rfl⟩ := Option.map_eq_some_iff.mp hmember
      refine key_join hdir ?_
      have hchars : ∀ c ∈ (if dir.isEmpty then rest else rest.drop 1), c ∈ k.toList := by
        rw [(below?_eq_some_iff.mp hrest).1]
        intro c hc
        split at hc
        · exact List.mem_append_right _ hc
        · exact List.mem_append_right _ (List.mem_of_mem_drop hc)
      generalize (if dir.isEmpty then rest else rest.drop 1) = inside at hchars
      obtain ⟨first, others, hsplit⟩ := List.exists_cons_of_ne_nil (splitOn_ne_nil '/' inside)
      obtain ⟨hslash, hfirst⟩ :=
        not_mem_of_mem_splitOn (hsplit ▸ List.mem_cons_self : first ∈ splitOn '/' inside)
      rw [hsplit]
      exact startsAtRoot_segment hslash fun hback => hkeys k hk (hchars _ (hfirst _ hback))

/-! ### What is staged -/

/-- The other workspace has texts of some files saved, and all else is
staged in both. -/
structure Stages (w v : Workspace) (d : Disk) (files : List String) : Prop where
  /-- They are workspaces of one project. -/
  root : v.root = w.root
  /-- The same is to be deleted. -/
  deletions : v.deletions = w.deletions
  /-- The same directories are to be created. -/
  dirs : v.dirs = w.dirs
  /-- The same files were moved. -/
  moves : v.moves = w.moves
  /-- The same directories were moved. -/
  dirMoves : v.dirMoves = w.dirMoves
  /-- Some of the files are to be written, too. -/
  saves : ∃ saved : List String, (∀ f ∈ saved, f ∈ files) ∧
    v.saves = saved.foldl KeySet.insert w.saves
  /-- No other text has changed. -/
  text : ∀ key, v.textOf d key = w.textOf d key ∨
    (key ∈ files ∧ key ∈ v.saves.toList ∧ ∃ text, v.textOf d key = .ok text)

namespace Stages

/-- Nothing has to be saved. -/
theorem refl (w : Workspace) (d : Disk) (files : List String) : Stages w w d files :=
  ⟨rfl, rfl, rfl, rfl, rfl, ⟨[], by simp, rfl⟩, fun _ => .inl rfl⟩

/-- More files may be saved. -/
theorem mono (h : Stages w v d files) (hsub : ∀ f ∈ files, f ∈ more) : Stages w v d more := by
  obtain ⟨saved, hsaved, heq⟩ := h.saves
  exact { h with
    saves := ⟨saved, fun f hf => hsub f (hsaved f hf), heq⟩
    text := fun key => (h.text key).imp_right (And.imp_left (hsub key)) }

/-- What is to be written stays so while more is saved. -/
theorem mem_saves_of_mem (h : Stages w v d files) (hkey : key ∈ w.saves.toList) :
    key ∈ v.saves.toList := by
  obtain ⟨saved, -, heq⟩ := h.saves
  rw [heq]
  clear heq
  generalize w.saves = saves at hkey
  induction saved generalizing saves with
  | nil => exact hkey
  | cons f saved ih => exact ih _ ((KeySet.mem_insert ..).mpr (.inr hkey))

/-- Texts can be saved behind others. -/
theorem trans (h : Stages w v d files) (h' : Stages v u d files) : Stages w u d files where
  root := h'.root.trans h.root
  deletions := h'.deletions.trans h.deletions
  dirs := h'.dirs.trans h.dirs
  moves := h'.moves.trans h.moves
  dirMoves := h'.dirMoves.trans h.dirMoves
  saves := by
    obtain ⟨saved, hsaved, heq⟩ := h.saves
    obtain ⟨saved', hsaved', heq'⟩ := h'.saves
    refine ⟨saved ++ saved', List.forall_mem_append.mpr ⟨hsaved, hsaved'⟩, ?_⟩
    rw [List.foldl_append, ← heq, heq']
  text key := by
    rcases h'.text key with hsame | hsaved
    · rw [hsame]
      exact (h.text key).imp_right fun ⟨hmem, hsaves, htext⟩ =>
        ⟨hmem, h'.mem_saves_of_mem hsaves, htext⟩
    · exact .inr hsaved

/-- A file that could be read can be read. -/
theorem readable (h : Stages w v d files) (hread : ∃ text, w.textOf d key = .ok text) :
    ∃ text, v.textOf d key = .ok text := by
  rcases h.text key with hsame | ⟨-, -, htext⟩
  · rwa [hsame]
  · exact htext

/-- A file that cannot be read could not be read. -/
theorem unreadable (h : Stages w v d files) {e : WorkspaceError} (he : v.textOf d key = .error e) :
    w.textOf d key = .error e := by
  rcases h.text key with hsame | ⟨-, -, text, htext⟩
  · rwa [← hsame]
  · rw [he] at htext
    cases htext

/-- If no file is saved, the same changes are pending and all paths say the
same. -/
theorem unchanged (h : Stages w v d []) :
    v.pending = w.pending ∧ ∀ path, (v.content d path).1 = (w.content d path).1 := by
  obtain ⟨saved, hsaved, heq⟩ := h.saves
  obtain rfl : saved = [] := List.eq_nil_iff_forall_not_mem.mpr fun f hf =>
    List.not_mem_nil (hsaved f hf)
  refine ⟨?_, fun path => ?_⟩
  · rw [pending, pending, heq, h.deletions, h.dirs, h.moves, h.dirMoves]
    rfl
  · rw [content_fst, content_fst, key_congr h.root]
    exact (h.text _).resolve_right fun hmem => by simpa using hmem.1

/-- A text is read and kept. -/
theorem content (hfile : w.key file = file) : Stages w (w.content d file).2 d [] := by
  cases htext : w.textOf d file with
  | error e =>
      rw [content_of_error hfile htext]
      exact refl w d []
  | ok text =>
      have hother (key : String) (hne : key ≠ file) :=
        (AgreesAt.content (d := d) hfile hne).textOf d
      have hkept := not_mem_deletions_of_textOf htext
      rw [content_of_textOf hfile htext] at hother ⊢
      refine { refl w d [] with text := fun key => .inl ?_ }
      by_cases hkey : key = file
      · subst hkey
        rw [htext]
        exact textOf_kept hkept ((w.texts.find?_insert ..).trans (if_pos rfl))
      · exact hother key hkey

/-- A text is saved for a file that is there. -/
theorem save (hfile : w.key file = file) (hkept : file ∉ w.deletions.keys) (text : String) :
    Stages w (w.save file text) d [file] := by
  have hother (key : String) (hne : key ≠ file) :=
    (AgreesAt.save hfile hne hkept text).textOf d
  have hsave : w.save file text = { w with
      texts := w.texts.insert file (Text.Utf8.foldLineBreaks text)
      saves := w.saves.insert file } := by
    rw [Workspace.save, hfile, put, hfile, putKey, Table.erase_of_not_mem hkept]
  rw [hsave] at hother ⊢
  refine { refl w d [file] with saves := ⟨[file], by simp, rfl⟩, text := fun key => ?_ }
  by_cases hkey : key = file
  · subst hkey
    exact .inr ⟨by simp, (KeySet.mem_insert ..).mpr (.inl rfl), _,
      textOf_kept hkept ((w.texts.find?_insert ..).trans (if_pos rfl))⟩
  · exact .inl (hother key hkey)

end Stages

end Workspace

namespace Session

open Workspace

variable {w : Workspace} {d : Disk} {s s' : Session} {files : List String}
  {file o target : String} {e : SessionError}

/-! ### What updates stage -/

/-- Between the two sessions nothing but texts of some files was saved, if
the file is its own key. -/
def StagesAt (d : Disk) (file : String) (files : List String) (s s' : Session) : Prop :=
  s.workspace.key file = file → Stages s.workspace s'.workspace d files

/-- Nothing is staged. -/
theorem StagesAt.refl (s : Session) : StagesAt d file files s s := fun _ => Stages.refl ..

/-- Texts can be saved behind others. -/
theorem StagesAt.trans {s'' : Session} (h : StagesAt d file files s s')
    (h' : StagesAt d file files s' s'') : StagesAt d file files s s'' := fun hfile =>
  (h hfile).trans (h' ((congrFun (key_congr (h hfile).root) file).trans hfile))

/-- To get the text of a file, nothing is saved. -/
theorem stages_content (hfile : s.workspace.key file = file) :
    Stages s.workspace (s.content d file).2.workspace d [] :=
  Stages.content hfile

/-- To get the tree of a module, nothing is saved. -/
theorem stages_tree (hfile : s.workspace.key file = file) :
    Stages s.workspace (s.tree d file).2.workspace d [] := by
  have hcontent := stages_content (d := d) hfile
  unfold tree
  rw [hfile]
  dsimp only
  cases Dialect.ofPath? file with
  | none => exact Stages.refl ..
  | some dialect =>
      dsimp only
      generalize s.content d file = r at hcontent ⊢
      obtain ⟨result | result, s'⟩ := r <;> exact hcontent

/-- To change a module, its text is saved. -/
theorem stages_update (refactoring : Tree → Changes) (s : Session) :
    StagesAt d file [file] s (s.update d file refactoring).session := by
  intro hfile
  have htree := (stages_tree (d := d) hfile).mono (by simp : ∀ f ∈ [], f ∈ [file])
  have hkept (t : Tree) (h : (s.tree d file).1 = .ok t) :
      file ∉ (s.tree d file).2.workspace.deletions.keys := by
    obtain ⟨dialect, text, hdialect, htext, -⟩ := tree_eq_ok hfile h
    have hkept := not_mem_deletions_of_textOf htext
    rwa [tree_of_textOf hfile hdialect htext]
  unfold update
  generalize s.tree d file = r at htree hkept ⊢
  obtain ⟨e | t, s'⟩ := r
  · exact htree
  · have hfile' : s'.workspace.key file = file :=
      (congrFun (key_congr htree.root) file).trans hfile
    refine htree.trans ?_
    dsimp only
    obtain ⟨-, ⟨-, hs⟩ | ⟨-, hs⟩⟩ := write_cases hfile' t.source (refactoring t)
    · rw [hs]
      exact Stages.refl ..
    · rw [hs]
      exact Stages.save hfile' (hkept t rfl) _

/-- To point sources elsewhere, the text of the module is saved. -/
theorem stages_redirectSources (names : String × String) (pairs : List (String × String))
    (x : Outcome Nat) :
    StagesAt d file [file] x.session (redirectSources d file names pairs x).session :=
  rel_redirectSources StagesAt.refl (fun _ _ _ => StagesAt.trans)
    (fun s refactoring => stages_update refactoring s) names pairs x

/-- To update the references of a module, its text is saved. -/
theorem stages_updateModule (s : Session) (o target : String) :
    StagesAt d file [file] s (updateModule s d o target file).session :=
  rel_updateModule StagesAt.refl (fun _ _ _ => StagesAt.trans)
    (fun s refactoring => stages_update refactoring s)
    (fun _ hfile => (stages_tree hfile).mono (by simp))
    (fun _ hfile => (stages_content hfile).mono (by simp)) s o target

/-- If there is nothing to update in a module, nothing is saved. -/
theorem stages_updateModule_none (hfile : s.workspace.key file = file)
    (h : (updateModule s d o target file).result = .ok none) :
    Stages s.workspace (updateModule s d o target file).session.workspace d [] := by
  have htree := stages_tree (d := d) hfile
  unfold updateModule at h ⊢
  generalize s.tree d file = r at h htree ⊢
  obtain ⟨(e | e | e) | t, s'⟩ := r
  · exact htree
  · exact htree
  · exact htree
  · dsimp only at h ⊢
    split
    · exact htree
    · rename_i hpairs
      rw [if_neg hpairs] at h
      generalize redirectSources d file _ _ _ = x at h
      obtain ⟨e | count, s, notices⟩ := x
      · cases h
      · dsimp only at h
        generalize s.content d file = r at h
        obtain ⟨e | text, s⟩ := r <;> cases h

/-- The modules that were updated stay in front. -/
theorem prefix_updateModules {done all : List FileUpdate} {notices : List Notice}
    (h : (updateModules d o target files ⟨.ok done, s, notices⟩).result = .ok all) :
    done <+: all := by
  induction files generalizing s done notices with
  | nil => exact (Except.ok.inj h) ▸ List.prefix_refl done
  | cons file files ih =>
      rw [updateModules] at h
      dsimp only at h
      generalize updateModule s d o target file = next at h
      obtain ⟨e | updates, s', more⟩ := next
      · rw [updateModules_of_error (e := e) rfl] at h
        cases h
      · exact (List.prefix_append ..).trans (ih h)

/-- To update the references of some modules, their texts are saved; and
nothing is saved if there was nothing to update. -/
theorem stages_updateModules (hfiles : ∀ f ∈ files, s.workspace.key f = f)
    (done : List FileUpdate) (notices : List Notice) :
    let x := updateModules d o target files ⟨.ok done, s, notices⟩
    Stages s.workspace x.session.workspace d files ∧
      (x.result = .ok [] → Stages s.workspace x.session.workspace d []) := by
  induction files generalizing s done notices with
  | nil => exact ⟨Stages.refl .., fun _ => Stages.refl ..⟩
  | cons file files ih =>
      obtain ⟨hfile, hfiles⟩ := List.forall_mem_cons.mp hfiles
      have hstep := stages_updateModule (d := d) s o target hfile
      have hnone := @stages_updateModule_none d s file o target hfile
      have hkey := key_congr hstep.root
      rw [updateModules]
      dsimp only
      generalize updateModule s d o target file = next at hstep hnone hkey ⊢
      obtain ⟨e | updates, s', more⟩ := next
      · refine ⟨?_, fun h => ?_⟩
        · exact (updateModules_of_error (x := ⟨.error e, s', notices ++ more⟩) rfl).symm ▸
            hstep.mono (by simp)
        · have hfailed := @updateModules_of_error d o target files
            ⟨.error e, s', notices ++ more⟩ e rfl ▸ h
          cases hfailed
      · obtain ⟨hrest, hrestNone⟩ :=
          ih (s := s') (fun f hf => (congrFun hkey f).trans (hfiles f hf)) (done ++ updates.toList)
            (notices ++ more)
        refine ⟨(hstep.mono (by simp)).trans (hrest.mono fun f hf => List.mem_cons_of_mem _ hf),
          fun h => ?_⟩
        have hempty := List.prefix_nil.mp (prefix_updateModules h)
        -- What was found before is still there, so nothing was.
        obtain rfl : updates = none := by
          cases updates with
          | none => rfl
          | some update => simp at hempty
        exact (hnone rfl).trans (hrestNone h)

/-! ### Failures -/

/-- What is shown at a path of a module breaks a rule of the grammar. -/
def Unparsable (d : Disk) (file : String) (s : Session) (cause : SyntaxError) : Prop :=
  ∃ dialect text, Dialect.ofPath? file = some dialect ∧ s.workspace.textOf d file = .ok text ∧
    Tree.parse dialect (some file) text = .error cause

/-- A cache gives an error if the parser does. -/
theorem parse_of_parseAs_error {c : TreeCache} {dialect : Dialect} {path text : String}
    {cause : SyntaxError} (h : (c.parseAs dialect path text).1 = .error cause) :
    Tree.parse dialect (some path) text = .error cause := by
  unfold TreeCache.parseAs at h
  split at h
  · cases h
  · split at h
    · cases h
    · rename_i hparse
      rw [hparse, ← Except.error.inj h]

/-- A module has no tree if it cannot be read, or cannot be parsed. -/
theorem tree_eq_error (hfile : s.workspace.key file = file)
    (hmodule : (Dialect.ofPath? file).isSome = true) (h : (s.tree d file).1 = .error e) :
    (∃ cause, e = .files cause ∧ s.workspace.textOf d file = .error cause ∧
      (s.tree d file).2 = s) ∨
    ∃ cause, e = .code cause ∧ Unparsable d file (s.tree d file).2 cause := by
  obtain ⟨dialect, hdialect⟩ := Option.isSome_iff_exists.mp hmodule
  cases htext : s.workspace.textOf d file with
  | error cause =>
      rw [tree_of_error hfile hdialect htext] at h ⊢
      exact .inl ⟨cause, (Except.error.inj h).symm, rfl, rfl⟩
  | ok text =>
      have hshown : (s.tree d file).2.workspace.textOf d file = .ok text := by
        rcases (stages_tree (d := d) hfile).text file with hsame | ⟨hmem, -⟩
        · rwa [hsame]
        · cases hmem
      rw [tree_of_textOf hfile hdialect htext] at h hshown ⊢
      cases hparse : (s.cache.parseAs dialect file text).1 with
      | ok t =>
          rw [hparse] at h
          cases h
      | error cause =>
          rw [hparse] at h
          exact .inr ⟨cause, (Except.error.inj h).symm, dialect, text, hdialect, hshown,
            parse_of_parseAs_error hparse⟩

section Readable

variable (hfile : s.workspace.key file = file) (hmodule : (Dialect.ofPath? file).isSome = true)
  (hread : ∃ text, s.workspace.textOf d file = .ok text)

include hfile hmodule hread

/-- A module that can be read fails to change if it cannot be parsed. -/
theorem update_eq_error (refactoring : Tree → Changes)
    (h : (s.update d file refactoring).result = .error e) :
    ∃ cause, e = .code cause ∧ Unparsable d file (s.update d file refactoring).session cause := by
  have herror := tree_eq_error (d := d) (e := e) hfile hmodule
  unfold update at h ⊢
  generalize s.tree d file = r at h herror ⊢
  obtain ⟨e | t, s'⟩ := r
  · obtain ⟨cause, -, hunread, -⟩ | hunparsable :=
      herror (congrArg Except.error (Except.error.inj h))
    · obtain ⟨text, htext⟩ := hread
      rw [htext] at hunread
      cases hunread
    · exact hunparsable
  · dsimp only at h
    unfold write at h
    dsimp only at h
    split at h <;> cases h

/-- So it does if one of its sources is to be redirected. -/
theorem redirectSource_eq_error (names p : String × String)
    (h : (redirectSource s d file names p).result = .error e) :
    ∃ cause, e = .code cause ∧
      Unparsable d file (redirectSource s d file names p).session cause := by
  have hrenamed := stages_update (d := d) (fun t =>
    .ofEdits (Refactoring.renameSource t p.1 p.2)) s hfile
  have hfirst := update_eq_error (e := e) hfile hmodule hread fun t =>
    .ofEdits (Refactoring.renameSource t p.1 p.2)
  unfold redirectSource at h ⊢
  generalize s.update d file _ = x at h hfirst hrenamed ⊢
  obtain ⟨e' | u, s', notices⟩ := x
  · exact hfirst (congrArg Except.error (Except.error.inj h))
  · dsimp only at h hrenamed ⊢
    split at h
    · cases h
    · rename_i hne
      have hsecond := update_eq_error (e := e)
        ((congrFun (key_congr hrenamed.root) file).trans hfile) hmodule (hrenamed.readable hread)
        fun t => .ofEdits (Refactoring.renameImported t names.1 names.2 (some p.2))
      rw [if_neg hne]
      generalize s'.update d file _ = y at h hsecond ⊢
      obtain ⟨e' | v, s'', more⟩ := y
      · exact hsecond (congrArg Except.error (Except.error.inj h))
      · cases h

/-- So it does if several are. -/
theorem redirectSources_eq_error (names : String × String) (pairs : List (String × String))
    (n : Nat) (notices : List Notice)
    (h : (redirectSources d file names pairs ⟨.ok n, s, notices⟩).result = .error e) :
    ∃ cause, e = .code cause ∧ Unparsable d file
      (redirectSources d file names pairs ⟨.ok n, s, notices⟩).session cause := by
  induction pairs generalizing s n notices with
  | nil => cases h
  | cons p pairs ih =>
      have hstep := rel_redirectSource (R := StagesAt d file [file]) (fun _ _ _ => StagesAt.trans)
        (fun s refactoring => stages_update refactoring s) s names p hfile
      have hfirst := redirectSource_eq_error (e := e) hfile hmodule hread names p
      rw [redirectSources] at h ⊢
      dsimp only at h ⊢
      generalize redirectSource s d file names p = next at h hfirst hstep ⊢
      obtain ⟨e' | m, s', more⟩ := next
      · cases pairs with
        | nil => exact hfirst (congrArg Except.error (Except.error.inj h))
        | cons q pairs => exact hfirst (congrArg Except.error (Except.error.inj h))
      · exact ih ((congrFun (key_congr hstep.root) file).trans hfile) (hstep.readable hread) _ _ h

end Readable

/-- **Why the update of a module fails.** It cannot be read, and then nothing
has changed; or a text that it was given breaks a rule of the grammar, and
then it has that text. -/
theorem updateModule_eq_error (hfile : s.workspace.key file = file)
    (hmodule : (Dialect.ofPath? file).isSome = true)
    (h : (updateModule s d o target file).result = .error e) :
    (∃ cause, e = .files cause ∧ s.workspace.textOf d file = .error cause ∧
      (updateModule s d o target file).session = s) ∨
    ∃ cause, e = .code cause ∧
      Unparsable d file (updateModule s d o target file).session cause := by
  have hstep := stages_tree (d := d) hfile
  have herror := fun e => tree_eq_error (d := d) (e := e) hfile hmodule
  have hread : ∀ t, (s.tree d file).1 = .ok t → ∃ text, s.workspace.textOf d file = .ok text :=
    fun t ht => by
      obtain ⟨dialect, text, -, htext, -⟩ := tree_eq_ok hfile ht
      exact ⟨text, htext⟩
  unfold updateModule at h ⊢
  generalize s.tree d file = r at h hstep herror hread ⊢
  -- A module that does not parse as it is is passed over, and a file of the walk is a module.
  obtain ⟨(e' | e' | e') | t, s'⟩ := r
  · obtain ⟨cause, heq, hunread, hsame⟩ | ⟨cause, heq, -⟩ := herror _ rfl
    · exact .inl ⟨cause, (Except.error.inj h).symm.trans heq, hunread, hsame⟩
    · cases heq
  · cases h
  · obtain ⟨cause, heq, -⟩ | ⟨cause, heq, -⟩ := herror _ rfl <;> cases heq
  · refine .inr ?_
    have hfile' : s'.workspace.key file = file :=
      (congrFun (key_congr hstep.root) file).trans hfile
    have hread' := hstep.readable (hread t rfl)
    dsimp only at h ⊢
    split at h
    · cases h
    · rename_i hpairs
      rw [if_neg hpairs]
      have hsources := redirectSources_eq_error (e := e) hfile' hmodule hread'
        (stemOf o, stemOf target) (redirects t file o target) 0 []
      have hall := stages_redirectSources (d := d) (stemOf o, stemOf target)
        (redirects t file o target) ⟨.ok 0, s', []⟩ hfile'
      generalize redirectSources d file _ _ _ = x at h hsources hall ⊢
      obtain ⟨e' | count, s'', notices⟩ := x
      · exact hsources (congrArg Except.error (Except.error.inj h))
      · -- The text that was given last can be read.
        obtain ⟨text, htext⟩ := hall.readable hread'
        have hcontent : (s''.content d file).1 = .ok text := by
          rw [Session.content_fst ((congrFun (key_congr hall.root) file).trans hfile'), htext]
          rfl
        dsimp only at h
        rw [show s''.content d file = (.ok text, (s''.content d file).2) from
          Prod.ext hcontent rfl] at h
        cases h

/-- A failed update of some modules fails at one of them: those in front
were updated, and those behind it are not looked at. -/
theorem updateModules_eq_error {done : List FileUpdate} {notices : List Notice}
    (h : (updateModules d o target files ⟨.ok done, s, notices⟩).result = .error e) :
    ∃ before file after, files = before ++ file :: after ∧
      let front := updateModules d o target before ⟨.ok done, s, notices⟩
      (∃ updates, front.result = .ok updates) ∧
        (updateModule front.session d o target file).result = .error e ∧
        (updateModules d o target files ⟨.ok done, s, notices⟩).session
          = (updateModule front.session d o target file).session := by
  induction files generalizing s done notices with
  | nil => cases h
  | cons file files ih =>
      rw [updateModules] at h ⊢
      dsimp only at h ⊢
      cases hnext : (updateModule s d o target file).result with
      | error e' =>
          rw [hnext] at h
          rw [updateModules_of_error (e := e') rfl] at h ⊢
          obtain rfl : e' = e := Except.error.inj h
          exact ⟨[], file, files, rfl, ⟨done, rfl⟩, hnext, rfl⟩
      | ok updates =>
          rw [hnext] at h
          obtain ⟨before, failed, after, rfl, hfront, hfailed, hsession⟩ := ih h
          refine ⟨file :: before, failed, after, rfl, ?_⟩
          rw [updateModules]
          dsimp only
          rw [hnext]
          exact ⟨hfront, hfailed, hsession⟩

/-! ### All references -/

/-- A walk comes by modules that are their own keys. -/
theorem of_mem_modulesBelow_key (hnamed : d.IsNamed)
    (hkeys : ∀ k ∈ w.stagedKeys, '\\' ∉ k.toList) {depth : Nat} {dir : String}
    (hdir : w.key dir = dir ∧ startsAtRoot dir = false) (h : file ∈ modulesBelow w d depth dir) :
    w.key file = file ∧ (Dialect.ofPath? file).isSome = true := by
  induction depth generalizing dir with
  | zero => cases h
  | succ depth ih =>
      obtain ⟨path, hpath, h⟩ := List.mem_flatMap.mp h
      rw [list, hdir.1] at hpath
      have hmember := key_of_mem_members hnamed hkeys hdir.2 (List.mem_filter.mp hpath).1
      split at h
      · split at h
        · cases h
        · exact ih hmember h
      · split at h
        · rename_i hmodule
          obtain rfl := List.mem_singleton.mp h
          exact ⟨hmember.1, (Bool.and_eq_true_iff.mp hmodule).1⟩
        · cases h

/-- **A failed update of the references takes nothing back.** It fails at a
module of the walk, behind others that have been updated as if they were
the whole walk. If the module cannot be read, nothing else has happened; or
else it was given a text that breaks a rule of the grammar, and has that
text. In both cases nothing but texts of these modules was saved, and where
no module in front had anything to update and the next one cannot be read,
nothing has changed. -/
theorem updateReferences_error (hnamed : d.IsNamed)
    (hkeys : ∀ k ∈ w.stagedKeys, '\\' ∉ k.toList) (cache : TreeCache) (src dest : String)
    (h : (updateReferences ⟨w, cache⟩ d src dest).result = .error e) :
    let x := updateReferences ⟨w, cache⟩ d src dest
    ∃ before file after,
      others (w.key src) (w.key dest) (moduleFiles w d) = before ++ file :: after ∧
      let front := updateModules d (w.key src) (w.key dest) before ⟨.ok [], ⟨w, cache⟩, []⟩
      (∃ updates, front.result = .ok updates) ∧
        Stages w front.session.workspace d before ∧
        ((∃ cause, e = .files cause ∧ w.textOf d file = .error cause ∧
            x.session = front.session) ∨
          ∃ cause, e = .code cause ∧ Unparsable d file x.session cause ∧
            Stages front.session.workspace x.session.workspace d [file]) ∧
        (front.result = .ok [] → (∃ cause, e = .files cause) →
          x.session.workspace.pending = w.pending ∧
            ∀ path, (x.session.workspace.content d path).1 = (w.content d path).1) := by
  intro x
  have hfiles : ∀ f ∈ others (w.key src) (w.key dest) (moduleFiles w d),
      w.key f = f ∧ (Dialect.ofPath? f).isSome = true := fun f hf => by
    have hmem := (mem_others.mp hf).1
    rw [moduleFiles, List.mem_mergeSort] at hmem
    exact of_mem_modulesBelow_key hnamed hkeys ⟨w.key_within ⟨[], by simp, rfl⟩, rfl⟩ hmem
  have hx : x = updateModules d (w.key src) (w.key dest)
      (others (w.key src) (w.key dest) (moduleFiles w d)) ⟨.ok [], ⟨w, cache⟩, []⟩ :=
    updateReferences_eq ..
  rw [updateReferences_eq] at h
  obtain ⟨before, file, after, heq, hfront, hfailed, hsession⟩ := updateModules_eq_error h
  rw [heq] at hfiles
  rw [← hx] at hsession
  refine ⟨before, file, after, heq, hfront, ?_⟩
  obtain ⟨hstages, hnone⟩ := @stages_updateModules d ⟨w, cache⟩ before (w.key src) (w.key dest)
    (fun f hf => (hfiles f (List.mem_append_left _ hf)).1) [] []
  obtain ⟨hkey, hmodule⟩ := hfiles file (by simp)
  generalize updateModules d (w.key src) (w.key dest) before ⟨.ok [], ⟨w, cache⟩, []⟩ = front
    at hfailed hsession hstages hnone ⊢
  have hkey' : front.session.workspace.key file = file :=
    (congrFun (key_congr hstages.root) file).trans hkey
  have hcause := updateModule_eq_error hkey' hmodule hfailed
  rw [← hsession] at hcause
  refine ⟨hstages, ?_, fun hempty hread => ?_⟩
  · -- What was saved can be read, so a module that cannot be was not.
    obtain ⟨cause, hread, hunread, hsame⟩ | ⟨cause, hcode, hunparsable⟩ := hcause
    · exact .inl ⟨cause, hread, hstages.unreadable hunread, hsame⟩
    · exact .inr ⟨cause, hcode, hunparsable,
        hsession ▸ stages_updateModule front.session (w.key src) (w.key dest) hkey'⟩
  · obtain ⟨-, -, -, hsame⟩ | ⟨_, hcode, -⟩ := hcause
    · rw [hsame]
      exact (hnone hempty).unchanged
    · obtain ⟨cause, hread⟩ := hread
      rw [hread] at hcode
      cases hcode

/-! ### A module that is no text -/

/-- A module that cannot be read is not updated. -/
theorem updateModule_of_unreadable (hfile : s.workspace.key file = file) {dialect : Dialect}
    (hdialect : Dialect.ofPath? file = some dialect) {cause : WorkspaceError}
    (htext : s.workspace.textOf d file = .error cause) :
    updateModule s d o target file = ⟨.error (.files cause), s, []⟩ := by
  unfold updateModule
  rw [tree_of_error hfile hdialect htext]

/-- A project with a module that names another one, and a module that is no
text. -/
def binaryBehind : Disk :=
  ⟨[(["root"], .dir),
    (["root", "a.js"], .file (Disk.bytesOf (Tree.ofBareImports "a.js" ["./x".toList]).source)),
    (["root", "b.js"], .file [0]), (["root", "x.js"], .file (Disk.bytesOf "x\n"))]⟩

/-- The first module follows its course, and the second one cannot be
read. -/
theorem updateModules_unreadable_second {first second : String} {t u : Tree}
    (hfirst : Within first) (hsecond : Within second) (hne : second ≠ first)
    (h : Holds d first s t)
    (hcourse : Course first t (stepsOf (stemOf o, stemOf target) (redirects t first o target)) u)
    {dialect : Dialect} (hdialect : Dialect.ofPath? second = some dialect) {cause : WorkspaceError}
    (htext : s.workspace.textOf d second = .error cause) :
    let x := updateModules d o target [first, second] ⟨.ok [], s, []⟩
    x.result = .error (.files cause) ∧ Holds d first x.session u := by
  obtain ⟨⟨v, hv⟩, hend⟩ := h.updateModule hfirst hcourse
  have hagrees := agreesAt_updateModule (d := d) hfirst hne s o target
  rw [updateModules]
  dsimp only
  rw [hv, updateModules]
  dsimp only [Except.map]
  rw [updateModule_of_unreadable (key_within _ hsecond) hdialect
    ((hagrees.workspace.textOf d).trans htext)]
  exact ⟨rfl, hend⟩

/-- The first module is updated, and the second one cannot be read. -/
theorem updateReferences_binaryBehind :
    let w := Workspace.ofFilter "/root" Settings.default PathFilter.showAll
    let x := updateReferences ⟨w, .empty⟩ binaryBehind "x.js" "d/x.js"
    x.result = .error (.files .binary) ∧
      Stages w x.session.workspace binaryBehind ["a.js", "b.js"] ∧
      x.session.workspace.textOf binaryBehind "a.js" ≠ w.textOf binaryBehind "a.js" := by
  intro w x
  have hkey : w.key "x.js" = "x.js" ∧ w.key "d/x.js" = "d/x.js" := by decide +kernel
  have hwithin : Within "a.js" ∧ Within "b.js" :=
    ⟨⟨["a.js".toList], by decide, rfl⟩, ⟨["b.js".toList], by decide, rfl⟩⟩
  have hfiles : moduleFiles w binaryBehind = ["a.js", "b.js", "x.js"] := by
    have hwalk : modulesBelow w binaryBehind (depthOf w binaryBehind) ""
        = ["a.js", "b.js", "x.js"] := by decide +kernel
    rw [moduleFiles, hwalk, List.mergeSort_of_pairwise (by decide)]
  have hx : x = updateModules binaryBehind "x.js" "d/x.js" ["a.js", "b.js"]
      ⟨.ok [], ⟨w, .empty⟩, []⟩ := by
    refine (updateReferences_eq w .empty binaryBehind "x.js" "d/x.js").trans ?_
    rw [hkey.1, hkey.2, hfiles]
    rfl
  have hwell : (Tree.ofBareImports "a.js" ["./x".toList]).WellLinked := by decide +kernel
  have htext : w.textOf binaryBehind "a.js"
      = .ok (Tree.ofBareImports "a.js" ["./x".toList]).source := by decide +kernel
  have hholds : Holds binaryBehind "a.js" ⟨w, .empty⟩ (Tree.ofBareImports "a.js" ["./x".toList]) :=
    .of_parse hwithin.1 (by decide +kernel) htext (Tree.parse_ofBareImports "a.js" (by decide))
  -- The first module names the moved one once, and its text is read again behind the edit.
  have hcourse : Course "a.js" (Tree.ofBareImports "a.js" ["./x".toList])
      (stepsOf (stemOf "x.js", stemOf "d/x.js")
        (redirects (Tree.ofBareImports "a.js" ["./x".toList]) "a.js" "x.js" "d/x.js"))
      (Tree.ofBareImports "a.js" ["./d/x".toList]) := by
    have hpairs : redirects (Tree.ofBareImports "a.js" ["./x".toList]) "a.js" "x.js" "d/x.js"
        = [("./x", "./d/x")] := by decide +kernel
    have hstem : stemOf "x.js" = "x" ∧ stemOf "d/x.js" = "x" := by decide +kernel
    rw [hpairs, hstem.1, hstem.2]
    refine .step hwell (rereads_ofBareImports rfl ?_ ?_ ?_ ?_ ?_) (.done _) <;> decide +kernel
  have hstages := (@stages_updateModules binaryBehind ⟨w, .empty⟩ ["a.js", "b.js"] "x.js" "d/x.js"
    (by decide +kernel) [] []).1
  obtain ⟨hresult, hend⟩ := updateModules_unreadable_second hwithin.1 hwithin.2 (by decide) hholds
    hcourse (by decide +kernel : Dialect.ofPath? "b.js" = some .plain)
    (by decide +kernel : w.textOf binaryBehind "b.js" = .error .binary)
  rw [← hx] at hstages hresult hend
  refine ⟨hresult, hstages, fun hsame => ?_⟩
  have hnew := hend.text
  rw [Session.content_fst (key_within _ hwithin.1), hsame, htext] at hnew
  exact absurd (Except.ok.inj hnew) (by decide +kernel)

/-- The failure tells which module could not be read. -/
theorem updateReferences_error_binaryBehind :
    let w := Workspace.ofFilter "/root" Settings.default PathFilter.showAll
    ∃ before file after, others (w.key "x.js") (w.key "d/x.js") (moduleFiles w binaryBehind)
        = before ++ file :: after ∧
      w.textOf binaryBehind file = .error .binary := by
  intro w
  have hkeys : ∀ k ∈ w.stagedKeys, '\\' ∉ k.toList := by decide +kernel
  obtain ⟨before, file, after, hfiles, -, -, hcause, -⟩ :=
    updateReferences_error (by decide) hkeys .empty "x.js" "d/x.js" updateReferences_binaryBehind.1
  refine ⟨before, file, after, hfiles, ?_⟩
  obtain ⟨cause, heq, hread, -⟩ | ⟨cause, heq, -⟩ := hcause
  · cases heq
    exact hread
  · cases heq

/-- What was updated before a failure stays so: other changes are pending,
and a file says something else. -/
theorem failed_update_keeps_changes :
    let w := Workspace.ofFilter "/root" Settings.default PathFilter.showAll
    let x := updateReferences ⟨w, .empty⟩ binaryBehind "x.js" "d/x.js"
    x.result = .error (.files .binary) ∧
      x.session.workspace.pending ≠ w.pending ∧
      (x.session.workspace.content binaryBehind "a.js").1 ≠ (w.content binaryBehind "a.js").1 := by
  intro w x
  obtain ⟨hresult, hstages, hdiffer⟩ := updateReferences_binaryBehind
  have hkey : w.key "a.js" = "a.js" := by decide +kernel
  refine ⟨hresult, fun hpending => ?_, ?_⟩
  · rcases hstages.text "a.js" with hsame | ⟨-, hsaved, -⟩
    · exact hdiffer hsame
    · rw [show x.session.workspace.saves = w.saves from congrArg Prod.fst hpending] at hsaved
      cases hsaved
  · rwa [Workspace.content_fst, Workspace.content_fst, key_congr hstages.root, hkey]

end Session

end ScriptRefactor
