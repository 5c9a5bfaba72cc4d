import ScriptRefactor.Proofs.Session.RewrittenModules

/-!
# `ScriptRefactor.Proofs.Session.ParsableModules`: when modules stay parsable

An update of the references edits one module after the other, up to the first
that does not pass (`Passes`). A module that it comes to keeps a tree if and
only if all texts that it is given parse
(`updateReferences_keeps_trees_iff`). The names that are put into these texts
are taken from paths, and a path may hold what no name may. So a module can
be left with a text that does not parse, and the update can fail because of
it (`update_breaks_module`).
-/

set_option autoImplicit false

namespace ScriptRefactor.Session

open ScriptRefactor.Path ScriptRefactor.Text Syntax Workspace Refactoring

variable {w : Workspace} {d : Disk} {s : Session} {files : List String}
  {file o target : String}

/-! ### Several modules -/

/-- Sessions that agree on a module update it alike. -/
theorem AgreesAt.textsIn {s' : Session} (h : AgreesAt s s' file) (o target : String)
    (hfile : Within file) :
    Session.textsIn s' d o target file = Session.textsIn s d o target file ∧
      (Breaks s' d o target file ↔ Breaks s d o target file) ∧
      (Passes s' d o target file ↔ Passes s d o target file) := by
  have hsteps : stepsIn s' d o target file = stepsIn s d o target file := by
    unfold stepsIn
    rw [h.redirectsIn hfile]
  have htexts : Session.textsIn s' d o target file = Session.textsIn s d o target file := by
    unfold Session.textsIn
    rw [h.tree_fst hfile, hsteps]
  have hbreaks : Breaks s' d o target file ↔ Breaks s d o target file := by
    rw [Breaks, Breaks, hsteps, htexts]
  exact ⟨htexts, hbreaks, by rw [Passes, Passes, hbreaks, h.workspace.textOf d]⟩

/-- The update comes to the module: it goes through in all in front of it. -/
def IsReached (s : Session) (d : Disk) (o target : String) (files : List String)
    (file : String) : Prop :=
  ∃ before after, files = before ++ file :: after ∧ ∀ g ∈ before, Passes s d o target g

/-- A module that is reached is one of them. -/
theorem IsReached.mem (h : IsReached s d o target files file) : file ∈ files := by
  obtain ⟨before, after, rfl, -⟩ := h
  simp

/-- The first module is reached, and others behind it if it passes. -/
theorem isReached_cons {first : String} :
    IsReached s d o target (first :: files) file ↔
      file = first ∨ Passes s d o target first ∧ IsReached s d o target files file := by
  constructor
  · rintro ⟨_ | ⟨g, before⟩, after, heq, hpasses⟩
    · exact .inl (List.cons.inj heq).1.symm
    · obtain ⟨rfl, rfl⟩ := List.cons.inj heq
      obtain ⟨hfirst, hpasses⟩ := List.forall_mem_cons.mp hpasses
      exact .inr ⟨hfirst, before, after, rfl, hpasses⟩
  · rintro (rfl | ⟨hfirst, before, after, rfl, hpasses⟩)
    · exact ⟨[], files, rfl, by simp⟩
    · exact ⟨first :: before, after, rfl, List.forall_mem_cons.mpr ⟨hfirst, hpasses⟩⟩

/-- Sessions in which the same modules pass reach the same ones. -/
theorem isReached_congr {s' : Session}
    (h : ∀ f ∈ files, Passes s' d o target f ↔ Passes s d o target f) :
    IsReached s' d o target files file ↔ IsReached s d o target files file := by
  refine exists_congr fun before => exists_congr fun after => and_congr_right fun heq =>
    forall₂_congr fun f hf => h f ?_
  rw [heq]
  exact List.mem_append_left _ hf

/-- What an update makes of some modules. -/
structure RewritesEach (s : Session) (d : Disk) (o target : String) (files : List String)
    (x : Outcome (List FileUpdate)) : Prop where
  /-- The session knows them. -/
  current : ∀ f ∈ files, IsCurrent d f x.session
  /-- Each that is reached is left with the last text that it is given. -/
  last : ∀ f, IsReached s d o target files f → ∀ text, s.workspace.textOf d f = .ok text →
    x.session.workspace.textOf d f = .ok (lastIn s d o target f text)
  /-- The others are left with their own. -/
  others : ∀ f ∈ files, ¬ IsReached s d o target files f →
    x.session.workspace.textOf d f = s.workspace.textOf d f
  /-- The update goes through if all pass. -/
  passes : (∃ updates, x.result = .ok updates) ↔ ∀ f ∈ files, Passes s d o target f
  /-- It fails because of a text if one that is reached breaks. -/
  breaks : (∃ cause, x.result = .error (.code cause)) ↔
    ∃ f, IsReached s d o target files f ∧ Breaks s d o target f

section Cons

variable {s' : Session} (hknown : IsCurrent d file s')
  (htext : ∀ text, s.workspace.textOf d file = .ok text →
    s'.workspace.textOf d file = .ok (lastIn s d o target file text))
  (hagrees : ∀ g, g ≠ file → AgreesAt s s' g) (hwithin : ∀ f ∈ files, Within f)
  (hfresh : file ∉ files)

include hknown htext hagrees hwithin hfresh

/-- Nothing behind a module that does not pass is reached. -/
theorem rewritesEach_of_stops {e : SessionError} {notices : List Notice}
    (hcurrent : ∀ f ∈ files, IsCurrent d f s) (hstops : ¬ Passes s d o target file)
    (hbreaks : (∃ cause, e = .code cause) ↔ Breaks s d o target file) :
    RewritesEach s d o target (file :: files) ⟨.error e, s', notices⟩ := by
  have hreached (g : String) : IsReached s d o target (file :: files) g ↔ g = file := by
    rw [isReached_cons, or_iff_left fun h => hstops h.1]
  refine ⟨List.forall_mem_cons.mpr ⟨hknown, fun g hg => ?_⟩, fun g hg => ?_, fun g hg hnot => ?_,
    ⟨fun ⟨_, hv⟩ => (nomatch hv), fun h => absurd (h file List.mem_cons_self) hstops⟩, ?_⟩
  · exact (hcurrent g hg).of_agreesAt (hwithin g hg) (hagrees g (ne_of_mem_of_not_mem hg hfresh))
  · obtain rfl := (hreached g).mp hg
    exact htext
  · exact (hagrees g fun h => hnot ((hreached g).mpr h)).workspace.textOf d
  · simp only [hreached, exists_eq_left, ← hbreaks, Except.error.injEq]

/-- Behind a module that passes the others are updated. -/
theorem RewritesEach.cons {x : Outcome (List FileUpdate)}
    (h : RewritesEach s' d o target files x) (hbehind : AgreesAt s' x.session file)
    (hfile : Within file) (hpasses : Passes s d o target file) :
    RewritesEach s d o target (file :: files) x := by
  -- What is told about the modules behind is the same in both sessions.
  have hother (g : String) (hg : g ∈ files) := hagrees g (ne_of_mem_of_not_mem hg hfresh)
  have htexts (g : String) (hg : g ∈ files) :=
    (hother g hg).textsIn (d := d) o target (hwithin g hg)
  have hreached (g : String) :
      IsReached s' d o target files g ↔ IsReached s d o target files g :=
    isReached_congr fun f hf => (htexts f hf).2.2
  refine ⟨List.forall_mem_cons.mpr ⟨hknown.of_agreesAt hfile hbehind, h.current⟩,
    fun g hg text hread => ?_, fun g hg hnot => ?_, ?_, h.breaks.trans ⟨?_, ?_⟩⟩
  · obtain rfl | ⟨-, hg⟩ := isReached_cons.mp hg
    · exact (hbehind.workspace.textOf d).trans (htext text hread)
    · rw [h.last g ((hreached g).mpr hg) text
        (((hother g hg.mem).workspace.textOf d).trans hread), lastIn, lastIn, (htexts g hg.mem).1]
  · obtain ⟨hne, hnot⟩ := not_or.mp (isReached_cons.not.mp hnot)
    have hmem := (List.mem_cons.mp hg).resolve_left hne
    rw [h.others g hmem fun hg => hnot ⟨hpasses, (hreached g).mp hg⟩,
      (hother g hmem).workspace.textOf d]
  · rw [h.passes, List.forall_mem_cons, and_iff_right hpasses]
    exact forall₂_congr fun g hg => (htexts g hg).2.2
  · rintro ⟨g, hg, hbroken⟩
    exact ⟨g, isReached_cons.mpr (.inr ⟨hpasses, (hreached g).mp hg⟩),
      (htexts g hg.mem).2.1.mp hbroken⟩
  · rintro ⟨g, hg, hbroken⟩
    obtain rfl | ⟨-, hg⟩ := isReached_cons.mp hg
    · exact absurd hbroken hpasses.2
    · exact ⟨g, (hreached g).mpr hg, (htexts g hg.mem).2.1.mpr hbroken⟩

end Cons

/-- **Several modules** are updated one after the other, up to the first that
does not pass. -/
theorem updateModules_rewritesEach (hwithin : ∀ f ∈ files, Within f) (hnodup : files.Nodup)
    (hmodules : ∀ f ∈ files, (Dialect.ofPath? f).isSome = true)
    (hcurrent : ∀ f ∈ files, IsCurrent d f s)
    (htold : ∀ f ∈ files, ToldApartIn s d o target f) (done : List FileUpdate)
    (notices : List Notice) :
    RewritesEach s d o target files (updateModules d o target files ⟨.ok done, s, notices⟩) := by
  induction files generalizing s done notices with
  | nil =>
      have hnone (f : String) : ¬ IsReached s d o target [] f := fun h => List.not_mem_nil h.mem
      exact ⟨by simp, fun f hf => absurd hf (hnone f), by simp, by simp [updateModules],
        ⟨fun ⟨_, hcause⟩ => (nomatch hcause), fun ⟨f, hf, _⟩ => absurd hf (hnone f)⟩⟩
  | cons file files ih =>
      obtain ⟨hfile, hwithin⟩ := List.forall_mem_cons.mp hwithin
      obtain ⟨hfresh, hnodup⟩ := List.nodup_cons.mp hnodup
      obtain ⟨hmodule, hmodules⟩ := List.forall_mem_cons.mp hmodules
      obtain ⟨hknown, hcurrent⟩ := List.forall_mem_cons.mp hcurrent
      obtain ⟨htoldFile, htold⟩ := List.forall_mem_cons.mp htold
      -- An update of one module leaves what is known of the others.
      have hagrees (g : String) (hne : g ≠ file) :=
        agreesAt_updateModule (d := d) hfile hne s o target
      obtain ⟨hknown, htext, hpasses, hbreaks⟩ := hknown.updateModule hfile hmodule htoldFile
      rw [updateModules]
      dsimp only
      generalize updateModule s d o target file = next at hagrees hknown htext hpasses hbreaks ⊢
      obtain ⟨result, s', more⟩ := next
      dsimp only at hagrees hknown htext hpasses hbreaks ⊢
      cases result with
      | error e =>
          rw [updateModules_of_error (e := e) rfl]
          -- The run stops here, and the modules behind are not reached.
          refine rewritesEach_of_stops hknown htext hagrees hwithin hfresh hcurrent
            (fun h => ?_) (by simpa only [Except.error.injEq] using hbreaks)
          obtain ⟨v, hv⟩ := hpasses.mpr h
          cases hv
      | ok v =>
          -- The induction speaks of the session behind it, where the others are as they were.
          have hother (g : String) (hg : g ∈ files) := hagrees g (ne_of_mem_of_not_mem hg hfresh)
          have hrest := ih (s := s') hwithin hnodup hmodules
            (fun g hg => (hcurrent g hg).of_agreesAt (hwithin g hg) (hother g hg))
            (fun g hg t ht => by
              rw [((hother g hg).textsIn o target (hwithin g hg)).1]
              exact htold g hg t (((hother g hg).tree_fst (hwithin g hg)).symm.trans ht))
            (done ++ v.toList) (notices ++ more)
          have hbehind := agreesAt_updateModules (d := d) hwithin hfresh o target
            ⟨.ok (done ++ v.toList), s', notices ++ more⟩
          exact hrest.cons hknown htext hagrees hwithin hfresh hbehind hfile
            (hpasses.mp ⟨v, rfl⟩)

/-! ### All references -/

/-- The modules of the walk are modules of the project. -/
theorem of_mem_moduleFiles (hnamed : d.IsNamed) (hkeys : ∀ k ∈ w.stagedKeys, Inside k)
    (h : file ∈ others o target (moduleFiles w d)) :
    Within file ∧ (Dialect.ofPath? file).isSome = true := by
  have hplain : ∀ k ∈ w.stagedKeys, '\\' ∉ k.toList := fun k hk => by
    obtain ⟨names, -, hnames, rfl⟩ := hkeys k hk
    rw [ofNames, String.toList_ofList]
    exact (mem_joinWith_names hnames).1
  refine ⟨(of_mem_others_moduleFiles hnamed hkeys h).1.within, ?_⟩
  have hmem := (mem_others.mp h).1
  rw [moduleFiles, List.mem_mergeSort] at hmem
  exact (of_mem_modulesBelow_key hnamed hplain ⟨w.key_within ⟨[], by simp, rfl⟩, rfl⟩ hmem).2

/-- **When the modules stay parsable.** An update of the references comes to
the modules of the walk one after the other, up to the first that cannot be
read or in which it fails. A module with a tree that it comes to has one
behind it if and only if every text that the module is given on the way
parses, and the other modules keep theirs. The update fails because of a text
if and only if a module that it comes to is given a text that does not parse
and is to be edited again; and it goes through if and only if there is none,
and all modules can be read. -/
theorem updateReferences_keeps_trees_iff (hnamed : d.IsNamed)
    (hkeys : ∀ k ∈ w.stagedKeys, Inside k) {cache : TreeCache} {src dest : String}
    (hcurrent : ∀ f ∈ moduleFiles w d, IsCurrent d f ⟨w, cache⟩)
    (htold : ∀ f ∈ moduleFiles w d, ToldApartIn ⟨w, cache⟩ d (w.key src) (w.key dest) f) :
    let s : Session := ⟨w, cache⟩
    let x := updateReferences s d src dest
    let files := others (w.key src) (w.key dest) (moduleFiles w d)
    let reached := IsReached s d (w.key src) (w.key dest) files
    let texts := textsIn s d (w.key src) (w.key dest)
    (∀ f t, reached f → (s.tree d f).1 = .ok t →
      ((∃ u, (x.session.tree d f).1 = .ok u) ↔ ∀ text ∈ texts f, Parses t.dialect f text)) ∧
    (∀ f ∈ files, ¬ reached f → (x.session.tree d f).1 = (s.tree d f).1) ∧
    ((∃ cause, x.result = .error (.code cause)) ↔
      ∃ f, reached f ∧ Breaks s d (w.key src) (w.key dest) f) ∧
    (∀ f, reached f → Breaks s d (w.key src) (w.key dest) f →
      ∃ t, (s.tree d f).1 = .ok t ∧ ∃ text ∈ texts f, ¬ Parses t.dialect f text) ∧
    ((∃ updates, x.result = .ok updates) ↔
      ∀ f ∈ files, Passes s d (w.key src) (w.key dest) f) := by
  intro s x files reached texts
  have hfiles (f : String) (hf : f ∈ files) := of_mem_moduleFiles hnamed hkeys hf
  have hknown (f : String) (hf : f ∈ files) := hcurrent f (mem_others.mp hf).1
  obtain ⟨hall, hlast, hrest, hok, hcode⟩ := updateModules_rewritesEach
    (fun f hf => (hfiles f hf).1) ((nodup_moduleFiles hnamed hkeys).filter _)
    (fun f hf => (hfiles f hf).2) hknown (fun f hf => htold f (mem_others.mp hf).1) [] []
  rw [← updateReferences_eq] at hall hlast hrest hok hcode
  refine ⟨fun f t hf ht => ?_, fun f hf hnot => ?_, hcode, fun f hf hbroken => ?_, hok⟩
  · have hwithin := (hfiles f hf.mem).1
    -- A module that is reached ends with its last text, which parses if and only if all do.
    have hholds := (hknown f hf.mem).exists_holds hwithin ht
    obtain ⟨-, hshown, hdialect⟩ := hholds.isCurrent hwithin
    have htexts := (textsIn_of_tree (w.key src) (w.key dest) ht).2
    have hend := hlast f hf t.source hshown
    rw [lastIn, htexts] at hend
    rw [(hall f hf.mem).exists_tree_iff hdialect hend]
    show Parses _ _ (lastText f t _) ↔ ∀ text ∈ textsIn s d (w.key src) (w.key dest) f, _
    rw [htexts]
    exact (forall_parses_iff ⟨t, hholds.parsed⟩).symm
  · have hunchanged := hall f hf
    -- A module that is not reached keeps its text and its tree.
    unfold IsCurrent at hunchanged
    rw [hunchanged, hrest f hf hnot]
    exact (hknown f hf).symm
  · -- A module that breaks has a tree, and was edited up to a text that does not parse.
    cases htree : (s.tree d f).1 with
    | error e => exact absurd hbroken (textsIn_of_error (w.key src) (w.key dest) htree).2
    | ok t =>
        have hparses : Parses t.dialect f t.source :=
          ⟨t, ((hknown f hf.mem).exists_holds (hfiles f hf.mem).1 htree).parsed⟩
        obtain ⟨hsteps, htexts⟩ := textsIn_of_tree (w.key src) (w.key dest) htree
        rw [Breaks, hsteps, htexts] at hbroken
        have hnot := (length_textsOf hparses).2 hbroken
        rw [← forall_parses_iff hparses, ← htexts] at hnot
        push Not at hnot
        exact ⟨t, rfl, hnot⟩

/-! ### A module that gets the name of another one -/

/-- A project with a module that names another one twice, the first time
with a name for its default export. -/
def defaultAndBare : Disk :=
  ⟨[(["root"], .dir),
    (["root", "a.js"], .file (Disk.bytesOf "import x from'./x';import'./x.js';")),
    (["root", "x.js"], .file (Disk.bytesOf "x\n"))]⟩

/-- What the parser makes of the module. -/
def namedFirst : Except SyntaxError Tree :=
  Tree.parse .plain (some "a.js") "import x from'./x';import'./x.js';"

/-- The path of the module. -/
theorem within_first : Within "a.js" := ⟨["a.js".toList], by decide, rfl⟩

/-- The modules of the project, and their trees. -/
theorem modules_defaultAndBare :
    let w := Workspace.ofFilter "/root" Settings.default PathFilter.showAll
    moduleFiles w defaultAndBare = ["a.js", "x.js"] ∧
      (∀ f ∈ ["a.js", "x.js"], IsCurrent defaultAndBare f ⟨w, .empty⟩) ∧
      (∃ t, Holds defaultAndBare "a.js" ⟨w, .empty⟩ t ∧ t ∈ namedFirst.toOption) ∧
      (∀ t, (Session.tree ⟨w, .empty⟩ defaultAndBare "x.js").1 = .ok t →
        t ∈ (Tree.parse .plain (some "x.js") "x\n").toOption) := by
  intro w
  have hcurrent : ∀ f ∈ ["a.js", "x.js"], IsCurrent defaultAndBare f ⟨w, .empty⟩ := fun f hf =>
    isCurrent_of_reflects reflects_empty
      ((by decide +kernel : ∀ f ∈ ["a.js", "x.js"],
        Tells ([] ++ SessionCall.treeAsks (⟨w, .empty⟩, defaultAndBare) f)) f hf)
      ((by decide +kernel : ∀ f ∈ ["a.js", "x.js"], w.key f = f) f hf)
  have hwithin : Within "a.js" ∧ Within "x.js" :=
    ⟨⟨["a.js".toList], by decide, rfl⟩, ⟨["x.js".toList], by decide, rfl⟩⟩
  have hdialect : Dialect.ofPath? "a.js" = some .plain ∧ Dialect.ofPath? "x.js" = some .plain := by
    decide +kernel
  have htext : w.textOf defaultAndBare "a.js" = .ok "import x from'./x';import'./x.js';" ∧
      w.textOf defaultAndBare "x.js" = .ok "x\n" := by decide +kernel
  refine ⟨?_, hcurrent, ?_, fun t ht => ?_⟩
  · have hwalk : modulesBelow w defaultAndBare (depthOf w defaultAndBare) "" = ["a.js", "x.js"] := by
      decide +kernel
    rw [moduleFiles, hwalk, List.mergeSort_of_pairwise (by decide)]
  · obtain ⟨t, ht⟩ := Option.isSome_iff_exists.mp
      (by decide +kernel : namedFirst.toOption.isSome = true)
    have hparse : namedFirst = .ok t := by
      cases h : namedFirst with
      | ok u =>
          rw [h] at ht
          exact congrArg Except.ok (Option.some.inj ht)
      | error cause =>
          rw [h] at ht
          cases ht
    exact ⟨t, (hcurrent "a.js" (by simp)).holds hwithin.1 hdialect.1 htext.1 hparse, ht⟩
  · have hholds := (hcurrent "x.js" (by simp)).exists_holds hwithin.2 ht
    obtain ⟨-, hshown, hread⟩ := hholds.isCurrent hwithin.2
    have hsource : t.source = "x\n" := Except.ok.inj (hshown.symm.trans htext.2)
    have hplain : t.dialect = .plain := Option.some.inj (hread.symm.trans hdialect.2)
    have hparse := hholds.parsed
    rw [hsource, hplain] at hparse
    rw [hparse]
    rfl

/-- The texts that the module is given when the other one moves: all of them
parse if it becomes `y.js`, and the second one does not if it becomes
`my-mod.js`. -/
theorem textsOf_defaultAndBare :
    ∀ t ∈ namedFirst.toOption,
      textsOf "a.js" t (stepsOf (stemOf "x.js", stemOf "y.js") (redirects t "a.js" "x.js" "y.js"))
        = ["import x from'./y';import'./x.js';", "import y from'./y';import'./x.js';",
          "import y from'./y';import'./y.js';", "import y from'./y';import'./y.js';"] ∧
      textsOf "a.js" t
          (stepsOf (stemOf "x.js", stemOf "my-mod.js") (redirects t "a.js" "x.js" "my-mod.js"))
        = ["import x from'./my-mod';import'./x.js';",
          "import my-mod from'./my-mod';import'./x.js';"] := by
  decide +kernel

/-- The steps of the two updates, and what the parser makes of the texts of the
first one. -/
theorem steps_defaultAndBare :
    ∀ t ∈ namedFirst.toOption,
      ((stepsOf (stemOf "x.js", stemOf "y.js") (redirects t "a.js" "x.js" "y.js")).length = 4 ∧
        (stepsOf (stemOf "x.js", stemOf "my-mod.js")
          (redirects t "a.js" "x.js" "my-mod.js")).length = 4) ∧
      ∀ text ∈ ["import x from'./y';import'./x.js';", "import y from'./y';import'./x.js';",
          "import y from'./y';import'./y.js';", "import y from'./y';import'./y.js';"],
        Parses t.dialect "a.js" text := by
  decide +kernel

/-- Digests tell the texts of the modules apart. -/
theorem toldApart_defaultAndBare :
    let w := Workspace.ofFilter "/root" Settings.default PathFilter.showAll
    ∀ name ∈ ["y.js", "my-mod.js"], ∀ f ∈ ["a.js", "x.js"],
      ToldApartIn ⟨w, .empty⟩ defaultAndBare "x.js" name f := by
  intro w
  obtain ⟨-, -, ⟨t, hholds, ht⟩, hother⟩ := modules_defaultAndBare
  have hsource : ∀ t ∈ namedFirst.toOption, t.source = "import x from'./x';import'./x.js';" := by
    decide +kernel
  have hfirst (name : String) (hname : name ∈ ["y.js", "my-mod.js"]) :
      ToldApartIn ⟨w, .empty⟩ defaultAndBare "x.js" name "a.js" := by
    obtain ⟨hmoved, hdashed⟩ := textsOf_defaultAndBare t ht
    intro u hu
    obtain rfl := Except.ok.inj (hholds.tree.symm.trans hu)
    rw [(textsIn_of_tree "x.js" name hu).2, hsource t ht]
    simp only [List.mem_cons, List.not_mem_nil, or_false] at hname
    obtain rfl | rfl := hname
    · rw [hmoved]
      decide +kernel
    · rw [hdashed]
      decide +kernel
  have hsecond (name : String) (hname : name ∈ ["y.js", "my-mod.js"]) :
      ToldApartIn ⟨w, .empty⟩ defaultAndBare "x.js" name "x.js" := by
    have hnone : ∀ t ∈ (Tree.parse .plain (some "x.js") "x\n").toOption,
        ∀ name ∈ ["y.js", "my-mod.js"], redirects t "x.js" "x.js" name = [] := by decide +kernel
    intro u hu
    rw [(textsIn_of_tree "x.js" name hu).2, hnone u (hother u hu) name hname]
    exact fun a ha b hb _ => by
      rw [List.mem_singleton.mp ha, List.mem_singleton.mp hb]
  intro name hname f hf
  simp only [List.mem_cons, List.not_mem_nil, or_false] at hf
  obtain rfl | rfl := hf
  · exact hfirst name hname
  · exact hsecond name hname

/-- Both sources are redirected and the name is changed, and the module keeps
its tree. -/
theorem updateReferences_keeps_trees_defaultAndBare :
    let w := Workspace.ofFilter "/root" Settings.default PathFilter.showAll
    let x := updateReferences ⟨w, .empty⟩ defaultAndBare "x.js" "y.js"
    (∃ u, (x.session.tree defaultAndBare "a.js").1 = .ok u) ∧
      ∃ updates, x.result = .ok updates := by
  intro w x
  obtain ⟨hfiles, hcurrent, ⟨t, hholds, ht⟩, -⟩ := modules_defaultAndBare
  have hkey : w.key "x.js" = "x.js" ∧ w.key "y.js" = "y.js" := by decide +kernel
  have hkeys : ∀ k ∈ w.stagedKeys, Inside k :=
    inside_of_mem_stagedKeys (keysInside_ofFilter ..) (stagedInside_ofFilter ..)
  have hothers : others "x.js" "y.js" ["a.js", "x.js"] = ["a.js"] := by decide
  have htold := toldApart_defaultAndBare "y.js" (by simp)
  obtain ⟨hkept, -, -, -, hok⟩ := @updateReferences_keeps_trees_iff w defaultAndBare
    (by decide) hkeys .empty "x.js" "y.js" (by rwa [hfiles]) (by rwa [hfiles, hkey.1, hkey.2])
  rw [hkey.1, hkey.2, hfiles, hothers] at hkept hok
  obtain ⟨hshown, hdialect⟩ := (hholds.isCurrent within_first).2
  obtain ⟨hsteps, htexts⟩ := textsIn_of_tree "x.js" "y.js" hholds.tree
  obtain ⟨hcount, hparses⟩ := steps_defaultAndBare t ht
  refine ⟨(hkept "a.js" t ⟨[], [], rfl, by simp⟩ hholds.tree).mpr ?_, hok.mpr ?_⟩
  · rw [htexts, (textsOf_defaultAndBare t ht).1]
    exact hparses
  · refine List.forall_mem_singleton.mpr ⟨⟨t.source, hshown⟩, ?_⟩
    rw [Breaks, hsteps, htexts, (textsOf_defaultAndBare t ht).1, hcount.1]
    exact Nat.lt_irrefl 4

/-- A module that names another one by its default export, under the name of
its file, is left with a text that does not parse when the new name of the
file has a dash; and the update fails because of it. -/
theorem update_breaks_module :
    let w := Workspace.ofFilter "/root" Settings.default PathFilter.showAll
    let x := updateReferences ⟨w, .empty⟩ defaultAndBare "x.js" "my-mod.js"
    (∃ t, (Session.tree ⟨w, .empty⟩ defaultAndBare "a.js").1 = .ok t) ∧
      x.session.workspace.textOf defaultAndBare "a.js"
        = .ok "import my-mod from'./my-mod';import'./x.js';" ∧
      ¬ Parses .plain "a.js" "import my-mod from'./my-mod';import'./x.js';" ∧
      ∃ cause, x.result = .error (.code cause) := by
  intro w x
  obtain ⟨hfiles, hcurrent, ⟨t, hholds, ht⟩, -⟩ := modules_defaultAndBare
  have hkey : w.key "x.js" = "x.js" ∧ w.key "my-mod.js" = "my-mod.js" := by decide +kernel
  have hothers : others "x.js" "my-mod.js" ["a.js", "x.js"] = ["a.js"] := by decide
  have htold := toldApart_defaultAndBare "my-mod.js" (by simp) "a.js" (by simp)
  have hx : x = updateModules defaultAndBare "x.js" "my-mod.js" ["a.js"]
      ⟨.ok [], ⟨w, .empty⟩, []⟩ := by
    refine (updateReferences_eq w .empty defaultAndBare "x.js" "my-mod.js").trans ?_
    rw [hkey.1, hkey.2, hfiles, hothers]
  have hrun : RewritesEach ⟨w, .empty⟩ defaultAndBare "x.js" "my-mod.js" ["a.js"] x := by
    rw [hx]
    exact updateModules_rewritesEach (by simpa using within_first) (by simp) (by decide +kernel)
      (by simpa using hcurrent "a.js" (by simp)) (by simpa using htold) [] []
  obtain ⟨hshown, hdialect⟩ := (hholds.isCurrent within_first).2
  obtain ⟨hsteps, htexts⟩ := textsIn_of_tree "x.js" "my-mod.js" hholds.tree
  rw [(textsOf_defaultAndBare t ht).2] at htexts
  have hreached : IsReached ⟨w, .empty⟩ defaultAndBare "x.js" "my-mod.js" ["a.js"] "a.js" :=
    ⟨[], [], rfl, by simp⟩
  refine ⟨⟨t, hholds.tree⟩, ?_, ?_, hrun.breaks.mpr ⟨"a.js", hreached, ?_⟩⟩
  · rw [hrun.last "a.js" hreached t.source hshown, lastIn, htexts]
    rfl
  · decide +kernel
  · rw [Breaks, hsteps, htexts, (steps_defaultAndBare t ht).1.2]
    decide

end ScriptRefactor.Session
