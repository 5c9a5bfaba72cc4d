import ScriptRefactor.Proofs.LineDiff.Unified
import ScriptRefactor.Proofs.Session.CurrentTrees
import ScriptRefactor.Proofs.Session.FailedUpdates

/-!
# `ScriptRefactor.Proofs.Session.ReportedUpdates`: what an update reports

An update of the references reports each other module of the walk that has a
source to redirect, in the order of their paths, with the difference between
the texts that it shows before and behind the update
(`updateReferences_reports`). All files that show another text are among
them.

A reported module need not show another text. A source without an extension
says the same when the module it leads to only gets another extension, and
the module with that source is reported all the same
(`update_reports_unchanged`).
-/

set_option autoImplicit false

namespace ScriptRefactor.Session

open ScriptRefactor.Path ScriptRefactor.Text Syntax Workspace

variable {w : Workspace} {d : Disk} {s : Session} {files : List String}
  {file o target : String}

/-! ### One module -/

/-- The sources that an update is to redirect in a module: none if the module
cannot be parsed. -/
def redirectsIn (s : Session) (d : Disk) (o target file : String) : List (String × String) :=
  match (s.tree d file).1 with
  | .ok t => redirects t file o target
  | .error _ => []

/-- The modules with a source to redirect. -/
def dependents (s : Session) (d : Disk) (o target : String) (files : List String) : List String :=
  files.filter fun f => !(redirectsIn s d o target f).isEmpty

/-- The update shows the difference between the texts of its file in two
workspaces. -/
def Compares (w v : Workspace) (d : Disk) (u : FileUpdate) : Prop :=
  ∃ old new, w.textOf d u.path = .ok old ∧ v.textOf d u.path = .ok new ∧
    u.diff = LineDiff.unified old new

/-- The trees that the session gives for some files have the texts of the
files. -/
def TreesShow (s : Session) (d : Disk) (files : List String) : Prop :=
  ∀ f ∈ files, ∀ t, (s.tree d f).1 = .ok t → s.workspace.textOf d f = .ok t.source

/-- A tree that is read in a text has the text. -/
theorem eq_ok_of_readAs {key : String} {text? : Except WorkspaceError String} {t : Tree}
    (h : readAs key text? = .ok t) : text? = .ok t.source := by
  unfold readAs at h
  cases hdialect : Dialect.ofPath? key with
  | none =>
      rw [hdialect] at h
      cases h
  | some dialect =>
      rw [hdialect] at h
      cases text? with
      | error e => cases h
      | ok text =>
          dsimp only at h
          cases hparse : Tree.parse dialect (some key) text with
          | error e =>
              rw [hparse] at h
              cases h
          | ok u =>
              rw [hparse] at h
              obtain rfl := Except.ok.inj h
              rw [(Tree.of_parse hparse).1]

/-- Trees that were asked for while digests tell texts apart have the texts
of their files. -/
theorem treesShow_of_reflects {events : List CacheEvent} (h : Reflects s.cache events)
    (htells : ∀ f ∈ files, Tells (events ++ SessionCall.treeAsks (s, d) f))
    (hfiles : ∀ f ∈ files, s.workspace.key f = f) : TreesShow s d files := by
  intro f hf t ht
  have hread := tree_eq_readAs h (htells f hf)
  rw [ht, hfiles f hf] at hread
  have htext := eq_ok_of_readAs hread.symm
  rwa [Workspace.content_fst, hfiles f hf] at htext

/-- An update that shows a difference tells truly if there is one. -/
theorem Compares.changed_iff {v : Workspace} {u : FileUpdate} (h : Compares w v d u) :
    u.changed = true ↔ v.textOf d u.path ≠ w.textOf d u.path := by
  obtain ⟨old, new, hold, hnew, hdiff⟩ := h
  have hempty : u.changed = true ↔ ¬ LineDiff.unified old new = "" := by
    rw [FileUpdate.changed, hdiff, Bool.not_eq_true', ← Bool.not_eq_true, String.isEmpty_iff]
  rw [hempty, LineDiff.unified_eq_empty_iff, hold, hnew]
  exact not_congr ⟨fun h => h ▸ rfl, fun h => (Except.ok.inj h).symm⟩

/-- The text that a session gives for a file is what the workspace shows. -/
theorem textOf_of_content {text : String} (hfile : s.workspace.key file = file)
    (h : (s.content d file).1 = .ok text) : s.workspace.textOf d file = .ok text := by
  rw [Session.content_fst hfile] at h
  cases hshown : s.workspace.textOf d file with
  | ok shown =>
      rw [hshown] at h
      exact congrArg Except.ok (Except.ok.inj h)
  | error e =>
      rw [hshown] at h
      cases h

/-- A module is reported if it has a source to redirect, with the difference
to the text of its tree. -/
theorem updateModule_eq_ok (hfile : s.workspace.key file = file) {v : Option FileUpdate}
    (h : (updateModule s d o target file).result = .ok v) :
    (v = none ∧ redirectsIn s d o target file = []) ∨
    ∃ t u new, v = some u ∧ u.path = file ∧ (s.tree d file).1 = .ok t ∧
      redirectsIn s d o target file ≠ [] ∧
      (updateModule s d o target file).session.workspace.textOf d file = .ok new ∧
      u.diff = LineDiff.unified t.source new := by
  have htree := stages_tree (d := d) hfile
  unfold redirectsIn
  unfold updateModule at h ⊢
  generalize s.tree d file = r at h htree ⊢
  -- The tree, the redirected sources and the text behind them are opened one after the other.
  obtain ⟨(e | e | e) | t, s'⟩ := r
  · cases h
  · exact .inl ⟨(Except.ok.inj h).symm, rfl⟩
  · cases h
  · have hfile' : s'.workspace.key file = file :=
      (congrFun (key_congr htree.root) file).trans hfile
    dsimp only at h ⊢
    split at h
    · rename_i hpairs
      exact .inl ⟨(Except.ok.inj h).symm, List.isEmpty_iff.mp hpairs⟩
    · rename_i hpairs
      rw [if_neg hpairs]
      have hall := stages_redirectSources (d := d) (stemOf o, stemOf target)
        (redirects t file o target) ⟨.ok 0, s', []⟩ hfile'
      generalize redirectSources d file _ _ _ = x at h hall ⊢
      obtain ⟨e | count, s'', notices⟩ := x
      · cases h
      · have hfile'' : s''.workspace.key file = file :=
          (congrFun (key_congr hall.root) file).trans hfile'
        have hread := fun text => @textOf_of_content d s'' file text hfile''
        have hkept := (stages_content (d := d) hfile'').text file
        dsimp only at h ⊢
        generalize s''.content d file = r at h hread hkept ⊢
        obtain ⟨e | text, s'''⟩ := r
        · cases h
        · obtain rfl := Except.ok.inj h
          refine .inr ⟨t, ⟨file, count, LineDiff.unified t.source text⟩, text, rfl, rfl, rfl,
            fun hnil => hpairs (List.isEmpty_iff.mpr hnil), ?_, by dsimp only⟩
          exact (hkept.resolve_right fun hmem => List.not_mem_nil hmem.1).trans (hread text rfl)

/-! ### Several modules -/

/-- The sources to redirect in a module depend on what its session has for
it. -/
theorem AgreesAt.redirectsIn {s' : Session} (h : AgreesAt s s' file) (hfile : Within file)
    (o target : String) : redirectsIn s' d o target file = redirectsIn s d o target file := by
  have htree := h.tree_fst (d := d) hfile
  unfold Session.redirectsIn
  rw [htree]

/-- If the session gives a tree for a module, they are those of the tree. -/
theorem Holds.redirectsIn {t : Tree} (h : Holds d file s t) (o target : String) :
    redirectsIn s d o target file = redirects t file o target := by
  unfold Session.redirectsIn
  rw [h.tree]

/-- What modules with different paths report when they are updated. -/
theorem updateModules_reports (hwithin : ∀ f ∈ files, Within f) (hnodup : files.Nodup)
    (hshow : TreesShow s d files) {done all : List FileUpdate} {notices : List Notice}
    (h : (updateModules d o target files ⟨.ok done, s, notices⟩).result = .ok all) :
    let x := updateModules d o target files ⟨.ok done, s, notices⟩
    ∃ updates, all = done ++ updates ∧
      updates.map FileUpdate.path = dependents s d o target files ∧
      (∀ u ∈ updates, Compares s.workspace x.session.workspace d u) ∧
      ∀ key, key ∉ dependents s d o target files →
        x.session.workspace.textOf d key = s.workspace.textOf d key := by
  induction files generalizing s done notices with
  | nil => exact ⟨[], by simpa using (Except.ok.inj h).symm, rfl, by simp, fun _ _ => rfl⟩
  | cons file files ih =>
      obtain ⟨hfile, hwithin⟩ := List.forall_mem_cons.mp hwithin
      obtain ⟨hfresh, hnodup⟩ := List.nodup_cons.mp hnodup
      obtain ⟨hshowFile, hshow⟩ := List.forall_mem_cons.mp hshow
      have hagrees (key : String) (hne : key ≠ file) :=
        agreesAt_updateModule (d := d) hfile hne s o target
      have hnext := fun v => @updateModule_eq_ok d s file o target (key_within _ hfile) v
      have hnone := @stages_updateModule_none d s file o target (key_within _ hfile)
      rw [updateModules] at h ⊢
      dsimp only at h ⊢
      generalize updateModule s d o target file = next at h hagrees hnext hnone ⊢
      obtain ⟨e | v, s', more⟩ := next
      · rw [updateModules_of_error (e := e) rfl] at h
        cases h
      · have hother (f : String) (hf : f ∈ files) :=
          hagrees f (ne_of_mem_of_not_mem hf hfresh)
        obtain ⟨updates, hall, hpaths, hcompares, hkept⟩ := ih (s := s') hwithin hnodup
          (fun f hf t ht => by
            rw [(hother f hf).workspace.textOf d]
            exact hshow f hf t (((hother f hf).tree_fst (hwithin f hf)).symm.trans ht)) h
        have hdependents : dependents s' d o target files = dependents s d o target files :=
          List.filter_congr fun f hf => by rw [(hother f hf).redirectsIn (hwithin f hf)]
        rw [hdependents] at hpaths hkept
        dsimp only [Except.map] at h ⊢
        generalize hx : updateModules d o target files
          ⟨.ok (done ++ v.toList), s', notices ++ more⟩ = x at hcompares hkept ⊢
        have hbehind : x.session.workspace.textOf d file = s'.workspace.textOf d file := by
          rw [← hx]
          exact (agreesAt_updateModules hwithin hfresh o target _).workspace.textOf d
        have hrest : ∀ u ∈ updates, Compares s.workspace x.session.workspace d u := fun u hu => by
          obtain ⟨old, new, hold, hnew, hdiff⟩ := hcompares u hu
          have hpath := hpaths ▸ List.mem_map_of_mem hu
          rw [(hother _ (List.mem_filter.mp hpath).1).workspace.textOf d] at hold
          exact ⟨old, new, hold, hnew, hdiff⟩
        obtain ⟨rfl, hempty⟩ | ⟨t, u, new, rfl, rfl, ht, hsome, hnew, hdiff⟩ := hnext v rfl
        · -- Nothing is saved for a module that is not reported.
          have hskip : dependents s d o target (file :: files) = dependents s d o target files :=
            List.filter_cons_of_neg (by simp [hempty])
          rw [hskip]
          refine ⟨updates, by simpa using hall, hpaths, hrest, fun key hkey => ?_⟩
          refine (hkept key hkey).trans (((hnone rfl).text key).resolve_right fun hmem => ?_)
          exact List.not_mem_nil hmem.1
        · have hadd : dependents s d o target (u.path :: files)
              = u.path :: dependents s d o target files :=
            List.filter_cons_of_pos (by simpa using hsome)
          rw [hadd]
          refine ⟨u :: updates, by simpa using hall, by rw [List.map_cons, hpaths],
            List.forall_mem_cons.mpr ⟨⟨_, new, hshowFile t ht, hbehind.trans hnew, hdiff⟩, hrest⟩,
            fun key hkey => ?_⟩
          obtain ⟨hne, hkey⟩ := not_or.mp (fun hmem => hkey (List.mem_cons.mpr hmem))
          exact (hkept key hkey).trans ((hagrees key hne).workspace.textOf d)

/-! ### All references -/

/-- The modules of a view come in ascending order, each once. -/
theorem pairwise_moduleFiles (hnamed : d.IsNamed) (hkeys : ∀ k ∈ w.stagedKeys, Inside k) :
    (moduleFiles w d).Pairwise (· < ·) := by
  have hle : (moduleFiles w d).Pairwise fun a b => decide (a ≤ b) = true := by
    rw [moduleFiles]
    refine List.pairwise_mergeSort (fun a b c hab hbc => ?_) (fun a b => ?_) _
    · exact decide_eq_true (String.le_trans (of_decide_eq_true hab) (of_decide_eq_true hbc))
    · simpa using String.le_total a b
  refine hle.imp₂ (fun a b hab hne => ?_) (nodup_moduleFiles hnamed hkeys)
  by_contra hlt
  exact hne (String.le_antisymm (of_decide_eq_true hab) (String.not_lt.mp hlt))

/-- An update of the references compares the texts of the modules with a
source to redirect, and no other file shows another text. -/
theorem updateReferences_compares (hnamed : d.IsNamed) (hkeys : ∀ k ∈ w.stagedKeys, Inside k)
    {cache : TreeCache} (hshow : TreesShow ⟨w, cache⟩ d (moduleFiles w d)) {src dest : String}
    {updates : List FileUpdate}
    (hok : (updateReferences ⟨w, cache⟩ d src dest).result = .ok updates) :
    let v := (updateReferences ⟨w, cache⟩ d src dest).session.workspace
    let named := dependents ⟨w, cache⟩ d (w.key src) (w.key dest)
      (others (w.key src) (w.key dest) (moduleFiles w d))
    updates.map FileUpdate.path = named ∧ (∀ u ∈ updates, Compares w v d u) ∧
      ∀ key, key ∉ named → v.textOf d key = w.textOf d key := by
  have hfiles (f : String) (hf : f ∈ others (w.key src) (w.key dest) (moduleFiles w d)) :=
    of_mem_others_moduleFiles hnamed hkeys hf
  obtain ⟨reported, heq, hreports⟩ := updateModules_reports
    (fun f hf => (hfiles f hf).1.within) ((nodup_moduleFiles hnamed hkeys).filter _)
    (fun f hf => hshow f (mem_others.mp hf).1) hok
  obtain rfl : reported = updates := heq.symm
  exact hreports

/-- **What an update of the references reports.** When it goes through, it
reports the other modules of the walk that have a source to redirect, in
ascending order and each once. Each report shows the difference between the
texts of the module before and behind the update, and tells truly if they
differ. No other file shows another text. So the reports are those of the
changed files if and only if each module with a source to redirect shows
another text. -/
theorem updateReferences_reports (hnamed : d.IsNamed) (hkeys : ∀ k ∈ w.stagedKeys, Inside k)
    {cache : TreeCache} (hshow : TreesShow ⟨w, cache⟩ d (moduleFiles w d)) {src dest : String}
    {updates : List FileUpdate}
    (hok : (updateReferences ⟨w, cache⟩ d src dest).result = .ok updates) :
    let v := (updateReferences ⟨w, cache⟩ d src dest).session.workspace
    let named := dependents ⟨w, cache⟩ d (w.key src) (w.key dest)
      (others (w.key src) (w.key dest) (moduleFiles w d))
    updates.map FileUpdate.path = named ∧ named.Pairwise (· < ·) ∧
      (∀ u ∈ updates, Compares w v d u ∧
        (u.changed = true ↔ v.textOf d u.path ≠ w.textOf d u.path)) ∧
      (∀ key, v.textOf d key ≠ w.textOf d key → key ∈ named) ∧
      (((∀ key, key ∈ updates.map FileUpdate.path ↔ v.textOf d key ≠ w.textOf d key) ∧
        ∀ u ∈ updates, u.changed = true) ↔ ∀ f ∈ named, v.textOf d f ≠ w.textOf d f) := by
  intro v named
  have horder : named.Pairwise (· < ·) :=
    ((pairwise_moduleFiles hnamed hkeys).filter _).filter _
  obtain ⟨hpaths, hcompares, hkept⟩ := updateReferences_compares hnamed hkeys hshow hok
  have hreports : ∀ u ∈ updates, Compares w v d u ∧
      (u.changed = true ↔ v.textOf d u.path ≠ w.textOf d u.path) :=
    fun u hu => ⟨hcompares u hu, (hcompares u hu).changed_iff⟩
  have hothers : ∀ key, v.textOf d key ≠ w.textOf d key → key ∈ named := fun key hdiffers => by
    by_contra hkey
    exact hdiffers (hkept key hkey)
  refine ⟨hpaths, horder, hreports, hothers, ?_⟩
  rw [hpaths]
  constructor
  · rintro ⟨hexact, -⟩ f hf
    exact (hexact f).mp hf
  · intro hall
    refine ⟨fun key => ⟨hall key, hothers key⟩, fun u hu => (hreports u hu).2.mpr (hall _ ?_)⟩
    exact (congrArg (u.path ∈ ·) hpaths).mp (List.mem_map_of_mem hu)

/-! ### A module that gets another extension -/

/-- A project with two modules that name a third one, without and with its
extension. -/
def namedTwoWays : Disk :=
  ⟨[(["root"], .dir),
    (["root", "a.js"], .file (Disk.bytesOf (Tree.ofBareImports "a.js" ["./x".toList]).source)),
    (["root", "b.js"], .file (Disk.bytesOf (Tree.ofBareImports "b.js" ["./x.js".toList]).source)),
    (["root", "x.js"], .file (Disk.bytesOf "x\n"))]⟩

/-- When the third module gets another extension, only the text of the second
one changes. -/
theorem updateReferences_namedTwoWays :
    let w := Workspace.ofFilter "/root" Settings.default PathFilter.showAll
    let x := updateReferences ⟨w, .empty⟩ namedTwoWays "x.js" "x.ts"
    (∃ updates, x.result = .ok updates) ∧
      dependents ⟨w, .empty⟩ namedTwoWays (w.key "x.js") (w.key "x.ts")
        (others (w.key "x.js") (w.key "x.ts") (moduleFiles w namedTwoWays)) = ["a.js", "b.js"] ∧
      x.session.workspace.textOf namedTwoWays "a.js" = w.textOf namedTwoWays "a.js" ∧
      x.session.workspace.textOf namedTwoWays "b.js" ≠ w.textOf namedTwoWays "b.js" := by
  intro w x
  let first : Tree := .ofBareImports "a.js" ["./x".toList]
  let second : Tree := .ofBareImports "b.js" ["./x.js".toList]
  let renamed : Tree := .ofBareImports "b.js" ["./x.ts".toList]
  have hkey : w.key "x.js" = "x.js" ∧ w.key "x.ts" = "x.ts" := by decide +kernel
  have hwithin : Within "a.js" ∧ Within "b.js" :=
    ⟨⟨["a.js".toList], by decide, rfl⟩, ⟨["b.js".toList], by decide, rfl⟩⟩
  have hinside : Inside "x.js" ∧ Inside "x.ts" :=
    ⟨⟨["x.js".toList], by decide, by decide, rfl⟩, ⟨["x.ts".toList], by decide, by decide, rfl⟩⟩
  have hfiles : others "x.js" "x.ts" (moduleFiles w namedTwoWays) = ["a.js", "b.js"] := by
    have hwalk : modulesBelow w namedTwoWays (depthOf w namedTwoWays) ""
        = ["a.js", "b.js", "x.js"] := by decide +kernel
    rw [moduleFiles, hwalk, List.mergeSort_of_pairwise (by decide)]
    decide
  have htext : w.textOf namedTwoWays "a.js" = .ok first.source ∧
      w.textOf namedTwoWays "b.js" = .ok second.source := by decide +kernel
  have hholds : Holds namedTwoWays "a.js" ⟨w, .empty⟩ first ∧
      Holds namedTwoWays "b.js" ⟨w, .empty⟩ second :=
    ⟨.of_parse hwithin.1 (by decide +kernel) htext.1 (Tree.parse_ofBareImports _ (by decide)),
      .of_parse hwithin.2 (by decide +kernel) htext.2 (Tree.parse_ofBareImports _ (by decide))⟩
  have hpairs : redirects first "a.js" "x.js" "x.ts" = [("./x", "./x")] ∧
      redirects second "b.js" "x.js" "x.ts" = [("./x.js", "./x.ts")] := by decide +kernel
  have hstem : stemOf "x.js" = "x" ∧ stemOf "x.ts" = "x" := by decide +kernel
  have hwell : first.WellLinked ∧ second.WellLinked := by decide +kernel
  have hcourses : Course "a.js" first (stepsOf (stemOf "x.js", stemOf "x.ts")
        (redirects first "a.js" "x.js" "x.ts")) first ∧
      Course "b.js" second (stepsOf (stemOf "x.js", stemOf "x.ts")
        (redirects second "b.js" "x.js" "x.ts")) renamed := by
    rw [hpairs.1, hpairs.2, hstem.1, hstem.2]
    refine ⟨.step hwell.1 (rereads_ofBareImports rfl ?_ ?_ ?_ ?_ ?_) (.done _),
      .step hwell.2 (rereads_ofBareImports rfl ?_ ?_ ?_ ?_ ?_) (.done _)⟩ <;> decide +kernel
  have hkeys : ∀ k ∈ w.stagedKeys, Inside k :=
    inside_of_mem_stagedKeys (keysInside_ofFilter ..) (stagedInside_ofFilter ..)
  have hok : ∃ updates, x.result = .ok updates := by
    rw [show x.result = _ from congrArg Outcome.result (updateReferences_eq ..), hkey.1, hkey.2,
      hfiles]
    refine exists_updateModules_ok (by simpa using hwithin) (by decide) ?_ [] []
    simpa using ⟨⟨first, hholds.1, first, hcourses.1⟩, ⟨second, hholds.2, renamed, hcourses.2⟩⟩
  have hdependents : dependents ⟨w, .empty⟩ namedTwoWays "x.js" "x.ts" ["a.js", "b.js"]
      = ["a.js", "b.js"] := by
    have hfirst := (hholds.1.redirectsIn "x.js" "x.ts").trans hpairs.1
    have hsecond := (hholds.2.redirectsIn "x.js" "x.ts").trans hpairs.2
    rw [dependents, List.filter_cons_of_pos (by rw [hfirst]; rfl),
      List.filter_cons_of_pos (by rw [hsecond]; rfl), List.filter_nil]
  obtain ⟨updates, hupdates⟩ := hok
  -- Each of the two modules ends with the text of its course.
  have hend {file : String} {t u : Tree} (hmem : file ∈ ["a.js", "b.js"]) (hfile : Within file)
      (h : Holds namedTwoWays file ⟨w, .empty⟩ t)
      (hcourse : Course file t
        (stepsOf (stemOf "x.js", stemOf "x.ts") (redirects t file "x.js" "x.ts")) u) :
      x.session.workspace.textOf namedTwoWays file = .ok u.source := by
    rw [← hkey.1, ← hkey.2] at hcourse hfiles
    have hread := (h.updateReferences (by decide) hkeys (by rw [hkey.1]; exact hinside.1)
      (by rw [hkey.2]; exact hinside.2) (by decide +kernel) (by decide +kernel)
      (hfiles ▸ hmem) hcourse hupdates).1.text
    exact textOf_of_content (key_within _ hfile) hread
  refine ⟨⟨updates, hupdates⟩, by rw [hkey.1, hkey.2, hfiles, hdependents], ?_, ?_⟩
  · rw [hend (by simp) hwithin.1 hholds.1 hcourses.1, htext.1]
  · rw [hend (by simp) hwithin.2 hholds.2 hcourses.2, htext.2]
    decide +kernel

/-- Nothing was parsed before. -/
theorem treesShow_namedTwoWays :
    let w := Workspace.ofFilter "/root" Settings.default PathFilter.showAll
    TreesShow ⟨w, .empty⟩ namedTwoWays (moduleFiles w namedTwoWays) := by
  intro w
  have hwalk : modulesBelow w namedTwoWays (depthOf w namedTwoWays) ""
      = ["a.js", "b.js", "x.js"] := by decide +kernel
  rw [moduleFiles, hwalk, List.mergeSort_of_pairwise (by decide)]
  exact treesShow_of_reflects reflects_empty (by decide +kernel) (by decide +kernel)

/-- Both modules are reported, and told apart. -/
theorem updateReferences_reports_namedTwoWays :
    let w := Workspace.ofFilter "/root" Settings.default PathFilter.showAll
    ∃ updates, (updateReferences ⟨w, .empty⟩ namedTwoWays "x.js" "x.ts").result = .ok updates ∧
      updates.map (fun u => (u.path, u.changed)) = [("a.js", false), ("b.js", true)] := by
  intro w
  obtain ⟨⟨updates, hok⟩, hnamed, hsame, hother⟩ := updateReferences_namedTwoWays
  have hkeys : ∀ k ∈ w.stagedKeys, Inside k :=
    inside_of_mem_stagedKeys (keysInside_ofFilter ..) (stagedInside_ofFilter ..)
  obtain ⟨hpaths, -, hreports, -, -⟩ :=
    updateReferences_reports (by decide) hkeys treesShow_namedTwoWays hok
  rw [hnamed] at hpaths
  obtain ⟨u, v, rfl⟩ := List.length_eq_two.mp ((List.length_map _).symm.trans
    (congrArg List.length hpaths))
  obtain ⟨hu, hv⟩ : u.path = "a.js" ∧ v.path = "b.js" := by simpa using hpaths
  have hfirst := (hreports u (by simp)).2
  have hsecond := (hreports v (by simp)).2
  rw [hu] at hfirst
  rw [hv] at hsecond
  refine ⟨_, hok, ?_⟩
  rw [List.map_cons, List.map_singleton, hu, hv, hsecond.mpr hother,
    Bool.eq_false_iff.mpr fun hchanged => hfirst.mp hchanged hsame]

/-- A module that names another one without an extension is reported when
that one gets another extension, and shows the same text as before. -/
theorem update_reports_unchanged :
    let w := Workspace.ofFilter "/root" Settings.default PathFilter.showAll
    let x := updateReferences ⟨w, .empty⟩ namedTwoWays "x.js" "x.ts"
    ∃ updates, x.result = .ok updates ∧ "a.js" ∈ updates.map FileUpdate.path ∧
      x.session.workspace.textOf namedTwoWays "a.js" = w.textOf namedTwoWays "a.js" ∧
      ∃ u ∈ updates, u.path = "a.js" ∧ u.changed = false := by
  intro w x
  obtain ⟨⟨updates, hok⟩, hnamed, hsame, -⟩ := updateReferences_namedTwoWays
  have hkeys : ∀ k ∈ w.stagedKeys, Inside k :=
    inside_of_mem_stagedKeys (keysInside_ofFilter ..) (stagedInside_ofFilter ..)
  obtain ⟨hpaths, hcompares, -⟩ :=
    updateReferences_compares (by decide) hkeys treesShow_namedTwoWays hok
  have hmem : "a.js" ∈ updates.map FileUpdate.path := by
    rw [hpaths, hnamed]
    simp
  obtain ⟨u, hu, hpath⟩ := List.mem_map.mp hmem
  have hchanged := (hcompares u hu).changed_iff
  rw [hpath] at hchanged
  exact ⟨updates, hok, hmem, hsame, u, hu, hpath,
    Bool.eq_false_iff.mpr fun h => hchanged.mp h hsame⟩

end ScriptRefactor.Session
