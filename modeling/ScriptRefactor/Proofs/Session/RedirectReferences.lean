import ScriptRefactor.Proofs.Grammar.BareImports
import ScriptRefactor.Proofs.Session.EditedModule
import ScriptRefactor.Proofs.Session.MoveReferences
import ScriptRefactor.Proofs.Session.Senses

/-!
# `ScriptRefactor.Proofs.Session.RedirectReferences`: which references an update redirects

An update of the references to a module redirects the sources that lead to
it in every other module of the walk, and leaves all other sources as they
are (`updateReferences_redirects`). The walk comes by each module once
(`nodup_moduleFiles`), the updates before and behind leave it alone, and
its own update follows the course of its edited texts.

A redirected source need not keep its sense (`update_drops_extension`). The
sources of a module are replaced one after the other wherever they stand,
so a new source that reads like a later one is replaced with it.
-/

set_option autoImplicit false

namespace ScriptRefactor.Session

open ScriptRefactor.Path Syntax Workspace Refactoring

variable {w : Workspace} {d : Disk} {s : Session} {b : List (List Char)} {depth : Nat}
  {file o target : String} {t u : Tree}

/-! ### The walk -/

/-- A walk comes by each module once. -/
theorem nodup_modulesBelow (hd : d.IsNamed) (hw : ∀ k ∈ w.stagedKeys, Inside k)
    (hb : ∀ m ∈ b, IsName m) : (modulesBelow w d depth (ofNames b)).Nodup := by
  induction depth generalizing b with
  | zero => exact List.nodup_nil
  | succ depth ih =>
      rw [modulesBelow_succ hb, List.nodup_flatMap]
      have hmember : ∀ path ∈ (w.members d (ofNames b)).toList,
          ∃ n, (∀ m ∈ b ++ [n], IsName m) ∧ path = ofNames (b ++ [n]) := fun path hpath => by
        obtain ⟨n, hn, rfl⟩ := exists_name_of_mem_members hd hw hb hpath
        exact ⟨n, List.forall_mem_append.mpr ⟨hb, List.forall_mem_singleton.mpr hn⟩, rfl⟩
      refine ⟨fun path hpath => ?_, ?_⟩
      · obtain ⟨n, hall, rfl⟩ := hmember path hpath
        unfold found
        split
        · split
          · split
            · exact List.nodup_nil
            · exact ih hall
          · split
            · exact List.nodup_singleton _
            · exact List.nodup_nil
        · exact List.nodup_nil
      · -- What lies below two members has both as names at one place.
        refine (KeySet.pairwise_ofList _).imp_of_mem fun {p q} hp hq hlt => ?_
        intro file hfile hfile'
        obtain ⟨n, hall, rfl⟩ := hmember p hp
        obtain ⟨n', hall', rfl⟩ := hmember q hq
        obtain ⟨-, ⟨names, -, hnames, rfl⟩, hunder, -⟩ :=
          of_mem_found hd hw ⟨_, by simp, hall, rfl⟩ hfile
        obtain ⟨-, -, hunder', -⟩ := of_mem_found hd hw ⟨_, by simp, hall', rfl⟩ hfile'
        have hpre := (isUnder_ofNames hnames hall).mp hunder
        have hpre' := (isUnder_ofNames hnames hall').mp hunder'
        have hsame := List.prefix_of_prefix_length_le hpre hpre' (by simp)
        rw [hsame.eq_of_length (by simp)] at hlt
        exact String.lt_irrefl _ hlt

/-- The modules of a view are found once. -/
theorem nodup_moduleFiles (hd : d.IsNamed) (hw : ∀ k ∈ w.stagedKeys, Inside k) :
    (moduleFiles w d).Nodup := by
  rw [moduleFiles, (List.mergeSort_perm _ _).nodup_iff]
  exact nodup_modulesBelow (b := []) hd hw (by simp)

/-! ### All modules -/

/-- Behind a failure no module is updated. -/
theorem updateModules_of_error {files : List String} {x : Outcome (List FileUpdate)}
    {e : SessionError} (h : x.result = .error e) : updateModules d o target files x = x := by
  cases files with
  | nil => rfl
  | cons file files => rw [updateModules, h]

/-- Modules are updated one after the other. -/
theorem updateModules_append (before after : List String) (x : Outcome (List FileUpdate)) :
    updateModules d o target (before ++ after) x
      = updateModules d o target after (updateModules d o target before x) := by
  induction before generalizing x with
  | nil => rfl
  | cons file before ih =>
      rw [List.cons_append, updateModules, updateModules]
      cases hx : x.result with
      | error e => exact (updateModules_of_error hx).symm
      | ok updates => exact ih _

/-- A module that the update comes by once follows its course. -/
theorem Holds.updateModules (h : Holds d file s t) {before after : List String}
    (hwithin : ∀ f ∈ before ++ file :: after, Within f) (hbefore : file ∉ before)
    (hafter : file ∉ after)
    (hcourse : Course file t (stepsOf (stemOf o, stemOf target) (redirects t file o target)) u)
    {updates : List FileUpdate}
    (hok : (Session.updateModules d o target (before ++ file :: after) ⟨.ok [], s, []⟩).result
      = .ok updates) :
    Holds d file (Session.updateModules d o target (before ++ file :: after)
      ⟨.ok [], s, []⟩).session u := by
  obtain ⟨hbeforeIn, hrest⟩ := List.forall_mem_append.mp hwithin
  obtain ⟨hfile, hafterIn⟩ := List.forall_mem_cons.mp hrest
  have hfront := agreesAt_updateModules (d := d) hbeforeIn hbefore o target ⟨.ok [], s, []⟩
  rw [updateModules_append] at hok ⊢
  generalize Session.updateModules d o target before ⟨.ok [], s, []⟩ = x at hfront hok ⊢
  obtain ⟨e | done, s', notices⟩ := x
  · rw [updateModules_of_error rfl] at hok
    cases hok
  · obtain ⟨-, hend⟩ := (h.of_agreesAt hfile hfront).updateModule hfile hcourse
    rw [Session.updateModules]
    dsimp only at hend ⊢
    generalize Session.updateModule s' d o target file = next at hend ⊢
    exact hend.of_agreesAt hfile (agreesAt_updateModules hafterIn hafter o target
      ⟨next.result.map (done ++ ·.toList), next.session, notices ++ next.notices⟩)

/-- An update of the references is one of the other modules of the walk. -/
theorem updateReferences_eq (w : Workspace) (cache : TreeCache) (d : Disk) (src dest : String) :
    Session.updateReferences ⟨w, cache⟩ d src dest
      = updateModules d (w.key src) (w.key dest)
        (others (w.key src) (w.key dest) (moduleFiles w d)) ⟨.ok [], ⟨w, cache⟩, []⟩ := rfl

/-- **An update of the references follows the course of each module.** When
it goes through, the session gives the last tree of the course, and the
sources of the module have been redirected one after the other. -/
theorem Holds.updateReferences (hnamed : d.IsNamed) (hkeys : ∀ k ∈ w.stagedKeys, Inside k)
    {cache : TreeCache} {src dest : String} (hsrc : Inside (w.key src))
    (hdest : Inside (w.key dest)) (hdot : stemOf (w.key dest) ≠ ".")
    (hup : stemOf (w.key dest) ≠ "..")
    (hmem : file ∈ others (w.key src) (w.key dest) (moduleFiles w d))
    (h : Holds d file ⟨w, cache⟩ t)
    (hcourse : Course file t (stepsOf (stemOf (w.key src), stemOf (w.key dest))
      (redirects t file (w.key src) (w.key dest))) u) {updates : List FileUpdate}
    (hok : (Session.updateReferences ⟨w, cache⟩ d src dest).result = .ok updates) :
    Holds d file (Session.updateReferences ⟨w, cache⟩ d src dest).session u ∧
      sourcesOf u = (sourcesOf t).map
        (Option.map (redirected (redirects t file (w.key src) (w.key dest)))) := by
  have hwithin : ∀ f ∈ others (w.key src) (w.key dest) (moduleFiles w d), Within f :=
    fun f hf => (of_mem_others_moduleFiles hnamed hkeys hf).1.within
  have hfile := (of_mem_others_moduleFiles hnamed hkeys hmem).1
  have hnodup : (others (w.key src) (w.key dest) (moduleFiles w d)).Nodup :=
    (nodup_moduleFiles hnamed hkeys).filter _
  have hpairs : ∀ p ∈ redirects t file (w.key src) (w.key dest), p.1 ≠ "" ∧ p.2 ≠ "" :=
    fun p hp => redirect?_ne_empty hfile hdest hdot hup (mem_redirects.mp hp).2
  have hstems := stemOf_ne_empty hsrc
  have hstems' := stemOf_ne_empty hdest
  refine ⟨?_, ?_⟩
  · rw [updateReferences_eq] at hok ⊢
    obtain ⟨before, after, hfiles⟩ := List.append_of_mem hmem
    rw [hfiles] at hnodup hok ⊢
    obtain ⟨-, hrest, hapart⟩ := List.nodup_append.mp hnodup
    exact h.updateModules (hfiles ▸ hwithin) (fun hmem => hapart file hmem file (by simp) rfl)
      (List.nodup_cons.mp hrest).1 hcourse hok
  · generalize stemOf (w.key src) = old, stemOf (w.key dest) = new at hstems hstems' hcourse
    exact hcourse.sourcesOf_eq hpairs ⟨hstems, hstems'⟩

/-- **Which sources an update of the references redirects.** Let the update
go through, and let the edited texts of another module of the walk be read
with the sources where the edits have moved them. Behind the update a
source of the module that does not lead to the old place is what it was,
and one that does starts with a dot and leads to the new place. All of
them lead there in the sense in which they led to the old place if and
only if no new source is redirected elsewhere later on. -/
theorem updateReferences_redirects (hnamed : d.IsNamed) (hkeys : ∀ k ∈ w.stagedKeys, Inside k)
    (cache : TreeCache) {src dest : String} (hsrc : Inside (w.key src))
    (hdest : Inside (w.key dest)) (hne : w.key src ≠ w.key dest)
    (hstem : stemOf (w.key src) ≠ "." ∧ stemOf (w.key src) ≠ "..")
    (hstem' : stemOf (w.key dest) ≠ "." ∧ stemOf (w.key dest) ≠ "..")
    {updates : List FileUpdate}
    (hok : (updateReferences ⟨w, cache⟩ d src dest).result = .ok updates)
    (hmem : file ∈ others (w.key src) (w.key dest) (moduleFiles w d))
    (h : Holds d file ⟨w, cache⟩ t)
    (hcourse : Course file t (stepsOf (stemOf (w.key src), stemOf (w.key dest))
      (redirects t file (w.key src) (w.key dest))) u) :
    let pairs := redirects t file (w.key src) (w.key dest)
    Holds d file (updateReferences ⟨w, cache⟩ d src dest).session u ∧
      sourcesOf u = (sourcesOf t).map (Option.map (redirected pairs)) ∧
      (∀ source, some source ∈ sourcesOf t →
        (sense? file source (w.key src) = none → redirected pairs source = source) ∧
        (sense? file source (w.key src) ≠ none →
          (redirected pairs source).toList.head? = some '.' ∧
            ∃ any : Sense, any.Leads file (redirected pairs source) (w.key dest))) ∧
      ((∀ source, some source ∈ sourcesOf t → ∀ sense,
        sense? file source (w.key src) = some sense →
          (sense.toward (w.key dest)).Leads file (redirected pairs source) (w.key dest)) ↔
        Settled pairs) := by
  intro pairs
  have hfile := (of_mem_others_moduleFiles hnamed hkeys hmem).1
  obtain ⟨hend, hsources⟩ :=
    h.updateReferences hnamed hkeys hsrc hdest hstem'.1 hstem'.2 hmem hcourse hok
  refine ⟨hend, hsources, fun source hsource => ?_,
    keep_senses_iff_settled hfile hsrc hdest hne hstem hstem' t⟩
  obtain ⟨hother, hsame⟩ :=
    @redirected_redirects _ _ (w.key src) _ hfile hdest hstem'.1 hstem'.2 t hsource
  refine ⟨hother, fun hsome => ?_⟩
  obtain ⟨sense, hsense⟩ := Option.ne_none_iff_exists'.mp hsome
  obtain ⟨hhead, hleads, -⟩ := hsame sense hsense
  exact ⟨hhead, hleads⟩

/-! ### Modules of bare imports -/

/-- Modules that follow their courses are updated without a failure. -/
theorem exists_updateModules_ok {files : List String} (hwithin : ∀ f ∈ files, Within f)
    (hnodup : files.Nodup)
    (h : ∀ f ∈ files, ∃ t u, Holds d f s t ∧
      Course f t (stepsOf (stemOf o, stemOf target) (redirects t f o target)) u)
    (done : List FileUpdate) (notices : List Notice) :
    ∃ updates, (updateModules d o target files ⟨.ok done, s, notices⟩).result = .ok updates := by
  induction files generalizing s done notices with
  | nil => exact ⟨done, rfl⟩
  | cons file files ih =>
      obtain ⟨hfile, hwithin⟩ := List.forall_mem_cons.mp hwithin
      obtain ⟨hfresh, hnodup⟩ := List.nodup_cons.mp hnodup
      obtain ⟨⟨t, u, hholds, hcourse⟩, hrest⟩ := List.forall_mem_cons.mp h
      obtain ⟨⟨v, hv⟩, -⟩ := hholds.updateModule hfile hcourse
      rw [updateModules]
      dsimp only
      rw [hv]
      refine ih hwithin hnodup (fun f hf => ?_) _ _
      obtain ⟨t, u, hholds, hcourse⟩ := hrest f hf
      have hagrees :=
        agreesAt_updateModule (d := d) hfile (ne_of_mem_of_not_mem hf hfresh) s o target
      exact ⟨t, u, hholds.of_agreesAt (hwithin f hf) hagrees, hcourse⟩

/-- A module that was not parsed before gives what the parser reads. -/
theorem Holds.of_parse (hfile : Within file) (hdialect : Dialect.ofPath? file = some t.dialect)
    (htext : w.textOf d file = .ok t.source)
    (hparse : Tree.parse t.dialect (some file) t.source = .ok t) :
    Holds d file ⟨w, .empty⟩ t := by
  refine ⟨?_, ?_, hparse⟩
  · rw [tree_of_textOf (key_within _ hfile) hdialect htext]
    show Except.mapError _ (TreeCache.empty.parseAs _ _ _).1 = _
    unfold TreeCache.parseAs
    rw [show TreeCache.empty.kept? t.dialect file t.source = none from rfl, hparse]
    rfl
  · rw [content_fst (key_within _ hfile), htext]
    rfl

/-- Bare imports whose text the edits of a tree write are read anew. -/
theorem rereads_ofBareImports {sources sources' : List (List Char)} {edits merged : List Edit}
    (hmerged : mergeEdits (Tree.ofBareImports file sources).source edits = merged)
    (hsources : ∀ source ∈ sources', Grammar.Parser.IsPlain source)
    (htext : splice (Tree.ofBareImports file sources).source merged
      = (Tree.ofBareImports file sources').source)
    (hplain : Text.Utf8.foldLineBreaks (Tree.ofBareImports file sources').source
      = (Tree.ofBareImports file sources').source)
    (hdigest : Digest.ofText (Tree.ofBareImports file sources).source
        = Digest.ofText (Tree.ofBareImports file sources').source →
      (Tree.ofBareImports file sources').source = (Tree.ofBareImports file sources).source)
    (hmoved : (linksOf (Tree.ofBareImports file sources')).map contentOf?
      = (linksOf (Tree.ofBareImports file sources)).map fun link =>
        (contentOf? link).map (Edit.movedSpan merged)) :
    Rereads file (Tree.ofBareImports file sources) edits (Tree.ofBareImports file sources') := by
  subst hmerged
  have htext : (applyEdits (Tree.ofBareImports file sources).source edits).1
      = (Tree.ofBareImports file sources').source := htext
  exact ⟨htext ▸ Tree.parse_ofBareImports file hsources, by rwa [htext], by rwa [htext], hmoved⟩

/-- A module of bare imports that is the only other one is updated, and
follows its course. -/
theorem updateReferences_onlyOther {files : List String} {src dest : String}
    {sources : List (List Char)} {pairs : List (String × String)}
    (hkey : w.key src = o ∧ w.key dest = target)
    (hwalk : modulesBelow w d (depthOf w d) "" = files)
    (hsorted : files.Pairwise fun a b => decide (a ≤ b) = true)
    (hothers : others o target files = [file]) (hfile : Within file)
    (hdialect : Dialect.ofPath? file = some .plain)
    (hsources : ∀ source ∈ sources, Grammar.Parser.IsPlain source)
    (htext : w.textOf d file = .ok (Tree.ofBareImports file sources).source)
    (hpairs : redirects (Tree.ofBareImports file sources) file o target = pairs)
    (hcourse : Course file (Tree.ofBareImports file sources)
      (stepsOf (stemOf o, stemOf target) pairs) u) :
    file ∈ others (w.key src) (w.key dest) (moduleFiles w d) ∧
      Holds d file ⟨w, .empty⟩ (Tree.ofBareImports file sources) ∧
      ∃ updates, (updateReferences ⟨w, .empty⟩ d src dest).result = .ok updates := by
  obtain ⟨rfl, rfl⟩ := hkey
  subst hpairs
  have hfiles : moduleFiles w d = files := by
    rw [moduleFiles, hwalk, List.mergeSort_of_pairwise hsorted]
  have hholds : Holds d file ⟨w, .empty⟩ (Tree.ofBareImports file sources) :=
    .of_parse hfile hdialect htext (Tree.parse_ofBareImports file hsources)
  refine ⟨by simp [hfiles, hothers], hholds, ?_⟩
  rw [updateReferences_eq, hfiles, hothers]
  exact exists_updateModules_ok (by simpa using hfile) (by simp)
    (by simpa using ⟨_, hholds, _, hcourse⟩) [] []

/-- A module that names another one with and without its extension. -/
def namedTwice : Tree := .ofBareImports "a.js" ["./x.js".toList, "./x".toList, "./y".toList]

/-- The two sources of it redirected, one after the other. -/
def namedElsewhere : Tree × Tree :=
  (.ofBareImports "a.js" ["./d/x.js".toList, "./x".toList, "./y".toList],
    .ofBareImports "a.js" ["./d/x.js".toList, "./d/x".toList, "./y".toList])

/-- A project with the two modules. -/
def twoModules : Disk :=
  ⟨[(["root"], .dir), (["root", "a.js"], .file (Disk.bytesOf namedTwice.source)),
    (["root", "x.js"], .file (Disk.bytesOf "x\n"))]⟩

/-- The module gets another directory. -/
theorem updateReferences_redirects_namedTwice :
    let s := ofWorkspace (Workspace.ofFilter "/root" Settings.default PathFilter.showAll)
    let behind := (updateReferences s twoModules "x.js" "d/x.js").session
    (behind.tree twoModules "a.js").1 = .ok namedElsewhere.2 ∧
      sourcesOf namedElsewhere.2 = [some "./d/x.js", some "./d/x", some "./y"] ∧
      Sense.bare.Leads "a.js" "./d/x" "d/x.js" := by
  intro s behind
  have hkey : s.workspace.key "x.js" = "x.js" ∧ s.workspace.key "d/x.js" = "d/x.js" := by
    decide +kernel
  have hinside : Inside "x.js" ∧ Inside "d/x.js" ∧ Inside "a.js" :=
    ⟨⟨["x.js".toList], by decide, by decide, rfl⟩,
      ⟨["d".toList, "x.js".toList], by decide, by decide, rfl⟩,
      ⟨["a.js".toList], by decide, by decide, rfl⟩⟩
  have hwell : namedTwice.WellLinked ∧ namedElsewhere.1.WellLinked := by decide +kernel
  have hpairs : redirects namedTwice "a.js" "x.js" "d/x.js"
      = [("./x.js", "./d/x.js"), ("./x", "./d/x")] := by decide +kernel
  -- Both sources lead to the module, and the text is read again behind each of them.
  have hcourse : Course "a.js" namedTwice (stepsOf (stemOf "x.js", stemOf "d/x.js")
      [("./x.js", "./d/x.js"), ("./x", "./d/x")]) namedElsewhere.2 := by
    have hstem : stemOf "x.js" = "x" ∧ stemOf "d/x.js" = "x" := by decide +kernel
    rw [hstem.1, hstem.2]
    refine .step hwell.1 (u := namedElsewhere.1) (rereads_ofBareImports rfl ?_ ?_ ?_ ?_ ?_)
      (.step hwell.2 (rereads_ofBareImports rfl ?_ ?_ ?_ ?_ ?_) (.done _)) <;> decide +kernel
  obtain ⟨hmem, hholds, updates, hok⟩ :=
    @updateReferences_onlyOther s.workspace twoModules "a.js" "x.js" "d/x.js" _
      ["a.js", "x.js"] _ _ _ _ hkey (by decide +kernel) (by decide)
      (by decide +kernel) hinside.2.2.within (by decide +kernel) (by decide +kernel)
      (by decide +kernel) hpairs hcourse
  have hkeys : ∀ k ∈ s.workspace.stagedKeys, Inside k :=
    inside_of_mem_stagedKeys (keysInside_ofFilter ..) (stagedInside_ofFilter ..)
  rw [← hkey.1, ← hkey.2] at hpairs hcourse
  obtain ⟨hend, hsources, -, hkeep⟩ :=
    updateReferences_redirects (t := namedTwice) (by decide) hkeys .empty
      (by rw [hkey.1]; exact hinside.1) (by rw [hkey.2]; exact hinside.2.1) (by decide +kernel)
      (by decide +kernel) (by decide +kernel) hok hmem hholds (hpairs ▸ hcourse)
  have hall : sourcesOf namedTwice = [some "./x.js", some "./x", some "./y"] := by decide +kernel
  have hsettled : Settled [("./x.js", "./d/x.js"), ("./x", "./d/x")] := by decide
  have hbare := hkeep.mpr (hpairs ▸ hsettled) "./x" (by rw [hall]; decide) .bare
    (by rw [hkey.1]; decide +kernel)
  rw [hpairs, hkey.2] at hbare
  rw [hpairs, hall] at hsources
  exact ⟨hend.tree, hsources.trans (by decide), hbare⟩

/-- A module that names two others, one of which has the name of the other
without its extension. -/
def namedAlike : Tree := .ofBareImports "a.js" ["./x.js.js".toList, "./x.js".toList]

/-- The first source redirected, and then both. -/
def namedAgain : Tree × Tree :=
  (.ofBareImports "a.js" ["./x.js".toList, "./x.js".toList],
    .ofBareImports "a.js" ["./x".toList, "./x".toList])

/-- A project with the module and one of the others. -/
def twoExtensions : Disk :=
  ⟨[(["root"], .dir), (["root", "a.js"], .file (Disk.bytesOf namedAlike.source)),
    (["root", "x.js.js"], .file (Disk.bytesOf "x\n"))]⟩

/-- A source with the extension of the module loses it when the module gets
the name that it has without its extension: the new source says the same as
the one without the extension, and is redirected with that. -/
theorem update_drops_extension :
    let s := ofWorkspace (Workspace.ofFilter "/root" Settings.default PathFilter.showAll)
    let x := updateReferences s twoExtensions "x.js.js" "x.js"
    (∃ updates, x.result = .ok updates) ∧
      (s.tree twoExtensions "a.js").1 = .ok namedAlike ∧
      sourcesOf namedAlike = [some "./x.js.js", some "./x.js"] ∧
      sense? "a.js" "./x.js.js" "x.js.js" = some .exact ∧
      (x.session.tree twoExtensions "a.js").1 = .ok namedAgain.2 ∧
      sourcesOf namedAgain.2 = [some "./x", some "./x"] ∧
      ¬ Sense.exact.Leads "a.js" "./x" "x.js" := by
  intro s x
  have hkey : s.workspace.key "x.js.js" = "x.js.js" ∧ s.workspace.key "x.js" = "x.js" := by
    decide +kernel
  have hinside : Inside "x.js.js" ∧ Inside "x.js" ∧ Inside "a.js" :=
    ⟨⟨["x.js.js".toList], by decide, by decide, rfl⟩, ⟨["x.js".toList], by decide, by decide, rfl⟩,
      ⟨["a.js".toList], by decide, by decide, rfl⟩⟩
  have hwell : namedAlike.WellLinked ∧ namedAgain.1.WellLinked ∧ namedAgain.2.WellLinked := by
    decide +kernel
  have hpairs : redirects namedAlike "a.js" "x.js.js" "x.js"
      = [("./x.js.js", "./x.js"), ("./x.js", "./x")] := by decide +kernel
  -- The second source stands in two places, and the last one is edited first.
  have hmerge : mergeEdits namedAgain.1.source (renameSource namedAgain.1 "./x.js" "./x")
      = [⟨22, 28, "./x"⟩, ⟨7, 13, "./x"⟩] := by
    have hedits : renameSource namedAgain.1 "./x.js" "./x"
        = [⟨7, 13, "./x"⟩, ⟨22, 28, "./x"⟩] := by decide +kernel
    have hsorted : ([⟨7, 13, "./x"⟩, ⟨22, 28, "./x"⟩] : List Edit).mergeSort Edit.appliesBefore
        = [⟨22, 28, "./x"⟩, ⟨7, 13, "./x"⟩] := by
      simp [List.mergeSort, List.MergeSort.Internal.splitInTwo, Edit.appliesBefore]
    rw [hedits, mergeEdits, hsorted]
    decide +kernel
  have hcourse : Course "a.js" namedAlike (stepsOf (stemOf "x.js.js", stemOf "x.js")
      [("./x.js.js", "./x.js"), ("./x.js", "./x")]) namedAgain.2 := by
    have hstem : stemOf "x.js.js" = "x.js" ∧ stemOf "x.js" = "x" := by decide +kernel
    rw [hstem.1, hstem.2]
    refine .step hwell.1 (u := namedAgain.1) (rereads_ofBareImports rfl ?_ ?_ ?_ ?_ ?_)
      (.step hwell.2.1 (u := namedAgain.1) (rereads_ofBareImports rfl ?_ ?_ ?_ ?_ ?_)
        (.step hwell.2.1 (u := namedAgain.2) (rereads_ofBareImports hmerge ?_ ?_ ?_ ?_ ?_)
          (.step hwell.2.2 (rereads_ofBareImports rfl ?_ ?_ ?_ ?_ ?_) (.done _)))) <;>
      decide +kernel
  obtain ⟨hmem, hholds, updates, hok⟩ :=
    @updateReferences_onlyOther s.workspace twoExtensions "a.js" "x.js.js" "x.js" _
      ["a.js", "x.js.js"] _ _ _ _ hkey (by decide +kernel) (by decide)
      (by decide +kernel) hinside.2.2.within (by decide +kernel) (by decide +kernel)
      (by decide +kernel) hpairs hcourse
  have hkeys : ∀ k ∈ s.workspace.stagedKeys, Inside k :=
    inside_of_mem_stagedKeys (keysInside_ofFilter ..) (stagedInside_ofFilter ..)
  have hall : sourcesOf namedAlike = [some "./x.js.js", some "./x.js"] := by decide +kernel
  rw [← hkey.1, ← hkey.2] at hpairs hcourse
  obtain ⟨hend, hsources⟩ := Holds.updateReferences (t := namedAlike) (by decide) hkeys
    (by rw [hkey.1]; exact hinside.1) (by rw [hkey.2]; exact hinside.2.1) (by decide +kernel)
    (by decide +kernel) hmem hholds (hpairs ▸ hcourse) hok
  rw [hpairs, hall] at hsources
  exact ⟨⟨updates, hok⟩, hholds.tree, hall, by decide +kernel, hend.tree,
    hsources.trans (by decide), by decide +kernel⟩

end ScriptRefactor.Session
