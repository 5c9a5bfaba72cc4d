import ScriptRefactor.Proofs.Session.ReportedUpdates

/-!
# `ScriptRefactor.Proofs.Session.RewrittenModules`: the texts that a module is given

To update its references, a module is edited step by step, and read anew for
each step. So it is given one text after the other (`textsOf`), up to the
first that does not parse. All of them parse if and only if the last one does
(`forall_parses_iff`).

A session that gives for a module what the parser reads in its text follows
these texts. Behind the steps the module has the last text, and the steps
have failed if and only if a text that is to be edited again does not parse
(`Holds.perform`). So it is with an update of the references in the module
(`IsCurrent.updateModule`).
-/

set_option autoImplicit false

namespace ScriptRefactor.Session

open ScriptRefactor.Path ScriptRefactor.Text Syntax Workspace Refactoring

variable {w : Workspace} {d : Disk} {s : Session} {files : List String}
  {file o target : String} {dialect : Dialect} {t u : Tree} {text : String}
  {x : Transform} {xs ys : List Transform}

/-! ### Texts that a module is given -/

/-- The text is read in the dialect. -/
def Parses (dialect : Dialect) (file text : String) : Prop :=
  ∃ t, Tree.parse dialect (some file) text = .ok t

instance (dialect : Dialect) (file text : String) : Decidable (Parses dialect file text) :=
  decidable_of_iff ((Tree.parse dialect (some file) text).toOption.isSome = true) <| by
    unfold Parses
    cases Tree.parse dialect (some file) text <;> simp [Except.toOption]

/-- The text that is staged for an edited one: the ends of its lines are
folded, but a text that the edits leave as it is stays. -/
def stagedText (text : String) (edits : List Edit) : String :=
  if (applyEdits text edits).1 = text then text
  else Text.Utf8.foldLineBreaks (applyEdits text edits).1

/-- The texts that a module is given by some transforms, one after the other.
It is read anew for each of them, so nothing comes behind a text that does
not parse. -/
def textsOf (file : String) : Tree → List Transform → List String
  | _, [] => []
  | t, x :: xs =>
    stagedText t.source (x.edits t) ::
      match Tree.parse t.dialect (some file) (stagedText t.source (x.edits t)) with
      | .ok u => textsOf file u xs
      | .error _ => []

/-- The text that a module has at the end. -/
def lastText (file : String) (t : Tree) (xs : List Transform) : String :=
  (textsOf file t xs).getLast?.getD t.source

/-- Where a text parses, more texts follow. -/
theorem textsOf_cons_ok (xs : List Transform)
    (h : Tree.parse t.dialect (some file) (stagedText t.source (x.edits t)) = .ok u) :
    textsOf file t (x :: xs) = u.source :: textsOf file u xs ∧
      lastText file t (x :: xs) = lastText file u xs := by
  obtain ⟨hsource, -⟩ := Tree.of_parse h
  have htexts : textsOf file t (x :: xs) = u.source :: textsOf file u xs := by
    rw [textsOf, h, hsource]
  refine ⟨htexts, ?_⟩
  rw [lastText, htexts, List.getLast?_cons]
  rfl

/-- Where it does not, it is the last one. -/
theorem textsOf_cons_error (xs : List Transform) {cause : SyntaxError}
    (h : Tree.parse t.dialect (some file) (stagedText t.source (x.edits t)) = .error cause) :
    textsOf file t (x :: xs) = [stagedText t.source (x.edits t)] ∧
      lastText file t (x :: xs) = stagedText t.source (x.edits t) := by
  have htexts : textsOf file t (x :: xs) = [stagedText t.source (x.edits t)] := by
    rw [textsOf, h]
  refine ⟨htexts, ?_⟩
  rw [lastText, htexts]
  rfl

/-- A module that parses gets texts that parse if and only if the last one
does. -/
theorem forall_parses_iff (h : Parses t.dialect file t.source) :
    (∀ text ∈ textsOf file t xs, Parses t.dialect file text) ↔
      Parses t.dialect file (lastText file t xs) := by
  induction xs generalizing t with
  | nil => exact ⟨fun _ => h, fun _ _ hmem => absurd hmem List.not_mem_nil⟩
  | cons x xs ih =>
      cases hparse : Tree.parse t.dialect (some file) (stagedText t.source (x.edits t)) with
      | ok u =>
          obtain ⟨hsource, hdialect⟩ := Tree.of_parse hparse
          obtain ⟨htexts, hlast⟩ := textsOf_cons_ok xs hparse
          have hfirst : Parses u.dialect file u.source := ⟨u, by rw [hsource, hdialect, hparse]⟩
          have hrest := ih hfirst
          rw [hdialect] at hrest hfirst
          rw [htexts, hlast, List.forall_mem_cons, ← hrest]
          exact and_iff_right hfirst
      | error cause =>
          obtain ⟨htexts, hlast⟩ := textsOf_cons_error xs hparse
          rw [htexts, hlast]
          exact List.forall_mem_singleton

/-- A text that does not parse is the last one, and where it is to be edited
again the texts do not come to their end. -/
theorem length_textsOf (h : Parses t.dialect file t.source) :
    (textsOf file t xs).length ≤ xs.length ∧
      ((textsOf file t xs).length < xs.length → ¬ Parses t.dialect file (lastText file t xs)) := by
  induction xs generalizing t with
  | nil => exact ⟨Nat.le_refl 0, fun hlt => absurd hlt (Nat.lt_irrefl 0)⟩
  | cons x xs ih =>
      cases hparse : Tree.parse t.dialect (some file) (stagedText t.source (x.edits t)) with
      | ok u =>
          obtain ⟨hsource, hdialect⟩ := Tree.of_parse hparse
          obtain ⟨htexts, hlast⟩ := textsOf_cons_ok xs hparse
          have hrest := ih (t := u) ⟨u, by rw [hsource, hdialect, hparse]⟩
          rw [htexts, hlast, ← hdialect, List.length_cons, List.length_cons]
          exact ⟨Nat.succ_le_succ hrest.1, fun hlt => hrest.2 (Nat.lt_of_succ_lt_succ hlt)⟩
      | error cause =>
          obtain ⟨htexts, hlast⟩ := textsOf_cons_error xs hparse
          rw [htexts, hlast]
          refine ⟨Nat.succ_le_succ (Nat.zero_le _), fun _ hparses => ?_⟩
          obtain ⟨u, hu⟩ := hparses
          rw [hparse] at hu
          cases hu

/-- Digests tell the texts apart. -/
def ToldApart (texts : List String) : Prop :=
  ∀ a ∈ texts, ∀ b ∈ texts, Digest.ofText a = Digest.ofText b → a = b

instance (texts : List String) : Decidable (ToldApart texts) :=
  inferInstanceAs (Decidable (∀ a ∈ texts, ∀ b ∈ texts, Digest.ofText a = Digest.ofText b → a = b))

/-- Some of the texts are told apart, too. -/
theorem ToldApart.mono {texts more : List String} (h : ToldApart more)
    (hsub : ∀ a ∈ texts, a ∈ more) : ToldApart texts := fun a ha b hb =>
  h a (hsub a ha) b (hsub b hb)

/-! ### Modules that the session knows as they are -/

/-- The tree that the session gives for the file is what the parser reads in
its text. -/
def IsCurrent (d : Disk) (file : String) (s : Session) : Prop :=
  (s.tree d file).1 = readAs file (s.workspace.textOf d file)

/-- Trees that were asked for while digests tell texts apart are those of the
present texts. -/
theorem isCurrent_of_reflects {events : List CacheEvent} (h : Reflects s.cache events)
    (htells : Tells (events ++ SessionCall.treeAsks (s, d) file))
    (hfile : s.workspace.key file = file) : IsCurrent d file s := by
  have hread := tree_eq_readAs h htells
  rw [hfile, Workspace.content_fst, hfile] at hread
  exact hread

/-- A session that agrees knows the module, too. -/
theorem IsCurrent.of_agreesAt {s' : Session} (h : IsCurrent d file s) (hfile : Within file)
    (hagrees : AgreesAt s s' file) : IsCurrent d file s' := by
  unfold IsCurrent
  rw [hagrees.tree_fst hfile, hagrees.workspace.textOf d]
  exact h

/-- A module whose text parses is given as its tree. -/
theorem IsCurrent.holds (h : IsCurrent d file s) (hfile : Within file)
    (hdialect : Dialect.ofPath? file = some dialect) (htext : s.workspace.textOf d file = .ok text)
    (hparse : Tree.parse dialect (some file) text = .ok t) : Holds d file s t := by
  obtain ⟨hsource, hdialect'⟩ := Tree.of_parse hparse
  refine ⟨?_, ?_, by rw [hsource, hdialect', hparse]⟩
  · rw [h, htext, readAs, hdialect]
    dsimp only
    rw [hparse]
    rfl
  · rw [content_fst (key_within _ hfile), htext, hsource]
    rfl

/-- A module with a tree is known. -/
theorem Holds.isCurrent (h : Holds d file s t) (hfile : Within file) :
    IsCurrent d file s ∧ s.workspace.textOf d file = .ok t.source ∧
      Dialect.ofPath? file = some t.dialect := by
  have htext := textOf_of_content (key_within _ hfile) h.text
  have hdialect := (h.keeps hfile).dialect
  refine ⟨?_, htext, hdialect⟩
  unfold IsCurrent
  rw [h.tree, htext, readAs, hdialect]
  dsimp only
  rw [h.parsed]
  rfl

/-- A module that parses has a tree that is held. -/
theorem IsCurrent.exists_holds (h : IsCurrent d file s) (hfile : Within file)
    (ht : (s.tree d file).1 = .ok t) : Holds d file s t := by
  obtain ⟨dialect, text, hdialect, htext, -⟩ := tree_eq_ok (key_within _ hfile) ht
  have hread := ht
  rw [h, htext, readAs, hdialect] at hread
  dsimp only at hread
  cases hparse : Tree.parse dialect (some file) text with
  | ok u =>
      rw [hparse] at hread
      obtain rfl := Except.ok.inj hread
      exact h.holds hfile hdialect htext hparse
  | error cause =>
      rw [hparse] at hread
      cases hread

/-- A module that the session knows has a tree if its text parses. -/
theorem IsCurrent.exists_tree_iff (h : IsCurrent d file s)
    (hdialect : Dialect.ofPath? file = some dialect)
    (htext : s.workspace.textOf d file = .ok text) :
    (∃ u, (s.tree d file).1 = .ok u) ↔ Parses dialect file text := by
  rw [h, htext, readAs, hdialect]
  dsimp only
  unfold Parses
  cases Tree.parse dialect (some file) text with
  | ok u => exact ⟨fun _ => ⟨u, rfl⟩, fun _ => ⟨u, rfl⟩⟩
  | error cause =>
      constructor
      · rintro ⟨_, hu⟩
        cases hu
      · rintro ⟨_, hu⟩
        cases hu

/-- To look at a module leaves it as it is. -/
theorem IsCurrent.tree (h : IsCurrent d file s) (hfile : Within file) :
    (s.tree d file).2.workspace.textOf d file = s.workspace.textOf d file ∧
      IsCurrent d file (s.tree d file).2 := by
  have htext : (s.tree d file).2.workspace.textOf d file = s.workspace.textOf d file :=
    ((stages_tree (key_within _ hfile)).text file).resolve_right fun hmem =>
      List.not_mem_nil hmem.1
  have htree : ((s.tree d file).2.tree d file).1 = (s.tree d file).1 :=
    tree_fst_congr hfile htext fun dialect text hdialect hshown => by
      rw [tree_of_textOf (key_within _ hfile) hdialect hshown]
      exact TreeCache.parseAs_again ..
  refine ⟨htext, ?_⟩
  unfold IsCurrent
  rw [htree, htext]
  exact h

/-! ### Steps -/

/-- Behind a step the module has the staged text, and the session knows it. -/
theorem Holds.staged (h : Holds d file s t) (hfile : Within file) (f : Tree → List Edit)
    (htold : ToldApart [t.source, stagedText t.source (f t)]) :
    let next := s.update d file fun t => .ofEdits (f t)
    (∃ v, next.result = .ok v) ∧
      next.session.workspace.textOf d file = .ok (stagedText t.source (f t)) ∧
      IsCurrent d file next.session := by
  have hkeeps := h.keeps hfile
  obtain ⟨hcurrent, htext, -⟩ := (hkeeps.holds (d := d) hfile h.parsed).isCurrent hfile
  rw [update_of_tree h.tree]
  generalize (s.tree d file).2 = s' at hkeeps hcurrent htext ⊢
  intro next
  have hwritten := write_cases (s'.workspace.key_within hfile) t.source (.ofEdits (f t))
  rw [show (Changes.ofEdits (f t)).edits = f t from rfl] at hwritten
  obtain ⟨hok, ⟨hsame, hs⟩ | ⟨hne, hs⟩⟩ := hwritten
  · rw [show next.session = _ from hs, stagedText, if_pos hsame]
    exact ⟨hok, htext, hcurrent⟩
  · obtain ⟨hshown, htree⟩ := hkeeps.save (d := d) hfile (applyEdits t.source (f t)).1
    rw [stagedText, if_neg hne] at htold ⊢
    rw [show next.session = _ from hs]
    refine ⟨hok, hshown, ?_⟩
    refine htree.trans (Eq.trans ?_ (congrArg (readAs file) hshown).symm)
    rw [readAs, hkeeps.dialect]
    dsimp only
    -- A text that is the one before has its tree kept, any other one is parsed.
    by_cases hfolded : Text.Utf8.foldLineBreaks (applyEdits t.source (f t)).1 = t.source
    · rw [hfolded, TreeCache.parseAs_kept hkeeps.tree, h.parsed]
    · rw [TreeCache.parseAs_anew hkeeps.tree fun hsame =>
        hfolded (htold _ (by simp) _ (by simp) hsame).symm]

/-- What a transform changes in a module. -/
def changesOf (x : Transform) (t : Tree) : Changes := .ofEdits (x.edits t)

/-- A module changed by a transform, unless an earlier one has failed. -/
def step (d : Disk) (file : String) (r : Except SessionError Unit × Session) (x : Transform) :
    Except SessionError Unit × Session :=
  match r.1 with
  | .error _ => r
  | .ok _ =>
    let next := r.2.update d file (changesOf x)
    (next.result.map fun _ => (), next.session)

/-- A module changed by some transforms, one after the other, up to a
failure. -/
def perform (d : Disk) (file : String) (r : Except SessionError Unit × Session)
    (xs : List Transform) : Except SessionError Unit × Session :=
  xs.foldl (step d file) r

/-- The first transform comes first. -/
theorem perform_cons (s : Session) (x : Transform) (xs : List Transform) :
    perform d file (.ok (), s) (x :: xs)
      = perform d file ((s.update d file (changesOf x)).result.map fun _ => (),
        (s.update d file (changesOf x)).session) xs := by
  rw [perform, perform, List.foldl_cons]
  unfold step
  dsimp only

/-- Nothing changes behind a failure. -/
theorem perform_of_error {r : Except SessionError Unit × Session} {e : SessionError}
    (h : r.1 = .error e) (xs : List Transform) : perform d file r xs = r := by
  induction xs with
  | nil => rfl
  | cons x xs ih =>
      have hfirst : step d file r x = r := by
        unfold step
        rw [h]
      rw [perform, List.foldl_cons, hfirst]
      exact ih

/-- One source is redirected by its steps. -/
theorem redirectSource_eq_perform (s : Session) (names p : String × String) :
    ((redirectSource s d file names p).result.map fun _ => (),
        (redirectSource s d file names p).session)
      = perform d file (.ok (), s) (stepsOf names [p]) := by
  have hnil : stepsOf names [] = [] := rfl
  have hrename : (fun t => Changes.ofEdits (renameSource t p.1 p.2))
      = changesOf (.renameSource p.1 p.2) := rfl
  have himported : (fun t => Changes.ofEdits (renameImported t names.1 names.2 (some p.2)))
      = changesOf (.renameImported names.1 names.2 (some p.2)) := rfl
  rw [stepsOf_cons, hnil, List.append_nil, perform_cons]
  unfold redirectSource
  rw [hrename, himported]
  dsimp only
  generalize s.update d file _ = renamed
  obtain ⟨e | u, s', notices⟩ := renamed
  · exact (perform_of_error rfl _).symm
  · dsimp only
    split
    · rfl
    · dsimp only [Except.map]
      rw [perform_cons]
      generalize s'.update d file _ = imported
      obtain ⟨e | v, s'', more⟩ := imported <;> rfl

/-- So are several. -/
theorem redirectSources_eq_perform (s : Session) (names : String × String)
    (pairs : List (String × String)) (n : Nat) (notices : List Notice) :
    let x := redirectSources d file names pairs ⟨.ok n, s, notices⟩
    (x.result.map fun _ => (), x.session) = perform d file (.ok (), s) (stepsOf names pairs) := by
  induction pairs generalizing s n notices with
  | nil => rfl
  | cons p pairs ih =>
      have hsplit : stepsOf names (p :: pairs) = stepsOf names [p] ++ stepsOf names pairs := by
        rw [stepsOf, stepsOf, stepsOf, ← List.flatMap_append]
        rfl
      have hfirst : _ = perform d file (.ok (), s) (stepsOf names [p]) :=
        redirectSource_eq_perform s names p
      rw [perform] at hfirst
      rw [hsplit, perform, List.foldl_append, ← hfirst, redirectSources]
      dsimp only
      generalize redirectSource s d file names p = next
      obtain ⟨e | m, s', more⟩ := next
      · rw [← perform, perform_of_error rfl]
        cases pairs <;> rfl
      · exact ih s' _ _

/-- Behind the transforms the module has the last of its texts, and the
session knows it. The transforms have gone through if all texts came, and
else the last one does not parse. -/
structure Rewritten {α : Type} (d : Disk) (file : String) (t : Tree) (xs : List Transform)
    (result : Except SessionError α) (s : Session) : Prop where
  /-- The last text is shown. -/
  text : s.workspace.textOf d file = .ok (lastText file t xs)
  /-- The session knows it. -/
  current : IsCurrent d file s
  /-- It is told if all texts came. -/
  result : ((∃ v, result = .ok v) ∧ (textsOf file t xs).length = xs.length) ∨
    (∃ cause, result = .error (.code cause)) ∧ (textsOf file t xs).length < xs.length

/-- **A run of transforms.** -/
theorem Holds.perform (h : Holds d file s t) (hfile : Within file)
    (htold : ToldApart (t.source :: textsOf file t xs)) :
    Rewritten d file t xs (perform d file (.ok (), s) xs).1 (perform d file (.ok (), s) xs).2 := by
  induction xs generalizing s t with
  | nil =>
      obtain ⟨hcurrent, htext, -⟩ := h.isCurrent hfile
      exact ⟨htext, hcurrent, .inl ⟨⟨(), rfl⟩, rfl⟩⟩
  | cons x xs ih =>
      have hdialect := (h.isCurrent hfile).2.2
      have hnext : s.update d file (fun t => Changes.ofEdits (x.edits t))
          = s.update d file (changesOf x) := rfl
      obtain ⟨⟨v, hv⟩, htext, hcurrent⟩ := h.staged hfile (Transform.edits · x)
        (htold.mono (by rw [textsOf]; simp))
      rw [hnext] at hv htext hcurrent
      rw [perform_cons, hv]
      generalize (s.update d file (changesOf x)).session = s' at htext hcurrent ⊢
      -- The text behind the first transform is parsed only when the next one asks for the tree.
      cases hparse : Tree.parse t.dialect (some file) (stagedText t.source (x.edits t)) with
      | ok u =>
          obtain ⟨htexts, hlast⟩ := textsOf_cons_ok xs hparse
          obtain ⟨htext, hcurrent, hresult⟩ := ih (hcurrent.holds hfile hdialect htext hparse)
            (htold.mono (by rw [htexts]; simp +contextual))
          refine ⟨by rw [hlast]; exact htext, hcurrent, ?_⟩
          rw [htexts, List.length_cons, List.length_cons, Nat.succ_inj, Nat.succ_lt_succ_iff]
          exact hresult
      | error cause =>
          obtain ⟨htexts, hlast⟩ := textsOf_cons_error xs hparse
          -- The text does not parse. A transform that follows finds no tree and fails.
          cases xs with
          | nil => exact ⟨by rw [hlast]; exact htext, hcurrent, .inl ⟨⟨(), rfl⟩, by rw [htexts]; rfl⟩⟩
          | cons y ys =>
              have htree : (s'.tree d file).1 = .error (.code cause) := by
                rw [hcurrent, htext, readAs, hdialect]
                dsimp only
                rw [hparse]
                rfl
              obtain ⟨hshown, hkept⟩ := hcurrent.tree hfile
              have hfailed : Session.perform d file (.ok (), s') (y :: ys)
                  = (.error (.code cause), (s'.tree d file).2) := by
                rw [perform_cons, update_of_error htree]
                exact perform_of_error rfl ys
              show Rewritten d file t (x :: y :: ys) (Session.perform d file (.ok (), s') (y :: ys)).1
                (Session.perform d file (.ok (), s') (y :: ys)).2
              rw [hfailed]
              refine ⟨by rw [hlast]; exact hshown.trans htext, hkept, .inr ⟨⟨cause, rfl⟩, ?_⟩⟩
              rw [htexts]
              simp

/-! ### One module -/

/-- To read the text of a module leaves it as it is. -/
theorem IsCurrent.content (h : IsCurrent d file s) (hfile : Within file) :
    (s.content d file).2.workspace.textOf d file = s.workspace.textOf d file ∧
      IsCurrent d file (s.content d file).2 := by
  have htext : (s.content d file).2.workspace.textOf d file = s.workspace.textOf d file :=
    ((stages_content (key_within _ hfile)).text file).resolve_right fun hmem =>
      List.not_mem_nil hmem.1
  have htree : ((s.content d file).2.tree d file).1 = (s.tree d file).1 :=
    tree_fst_congr hfile htext fun _ _ _ _ => by rw [cache_content]
  refine ⟨htext, ?_⟩
  unfold IsCurrent
  rw [htree, htext]
  exact h

/-- The steps of an update of the references in a module. -/
def stepsIn (s : Session) (d : Disk) (o target file : String) : List Transform :=
  stepsOf (stemOf o, stemOf target) (redirectsIn s d o target file)

/-- The texts that an update of the references gives to a module: none if it
cannot be parsed. -/
def textsIn (s : Session) (d : Disk) (o target file : String) : List String :=
  match (s.tree d file).1 with
  | .ok t => textsOf file t (stepsIn s d o target file)
  | .error _ => []

/-- A text that the module is given does not parse and is to be edited
again. -/
def Breaks (s : Session) (d : Disk) (o target file : String) : Prop :=
  (textsIn s d o target file).length < (stepsIn s d o target file).length

/-- Digests tell the texts of a module apart, those that an update gives it
included. -/
def ToldApartIn (s : Session) (d : Disk) (o target file : String) : Prop :=
  ∀ t, (s.tree d file).1 = .ok t → ToldApart (t.source :: textsIn s d o target file)

/-- A module with a tree is given the texts of its steps. -/
theorem textsIn_of_tree (o target : String) (ht : (s.tree d file).1 = .ok t) :
    stepsIn s d o target file = stepsOf (stemOf o, stemOf target) (redirects t file o target) ∧
      textsIn s d o target file = textsOf file t
        (stepsOf (stemOf o, stemOf target) (redirects t file o target)) := by
  have hsteps : stepsIn s d o target file
      = stepsOf (stemOf o, stemOf target) (redirects t file o target) := by
    unfold stepsIn redirectsIn
    rw [ht]
  refine ⟨hsteps, ?_⟩
  rw [← hsteps]
  unfold textsIn
  rw [ht]

/-- A module without a tree is given none. -/
theorem textsIn_of_error (o target : String) {e : SessionError}
    (he : (s.tree d file).1 = .error e) :
    textsIn s d o target file = [] ∧ ¬ Breaks s d o target file := by
  have htexts : textsIn s d o target file = [] := by
    unfold textsIn
    rw [he]
  have hsteps : stepsIn s d o target file = [] := by
    unfold stepsIn redirectsIn
    rw [he]
    rfl
  refine ⟨htexts, ?_⟩
  rw [Breaks, htexts, hsteps]
  exact Nat.lt_irrefl 0

/-- The references of a module with a tree are updated by its steps. -/
theorem Holds.rewritten_updateModule (h : Holds d file s t) (hfile : Within file)
    (htold : ToldApart (t.source :: textsOf file t
      (stepsOf (stemOf o, stemOf target) (redirects t file o target)))) :
    Rewritten d file t (stepsOf (stemOf o, stemOf target) (redirects t file o target))
      (Session.updateModule s d o target file).result
      (Session.updateModule s d o target file).session := by
  have hread := (h.keeps hfile).holds (d := d) hfile h.parsed
  unfold Session.updateModule
  rw [show s.tree d file = (.ok t, (s.tree d file).2) from Prod.ext h.tree rfl]
  dsimp only
  generalize (s.tree d file).2 = s' at hread ⊢
  split
  · -- There is nothing to redirect.
    rename_i hempty
    obtain ⟨hcurrent, htext, -⟩ := hread.isCurrent hfile
    rw [List.isEmpty_iff.mp hempty]
    exact ⟨htext, hcurrent, .inl ⟨⟨none, rfl⟩, rfl⟩⟩
  · have hrun := hread.perform hfile htold
    rw [← redirectSources_eq_perform s' _ _ 0 []] at hrun
    dsimp only at hrun
    generalize Session.redirectSources d file _ _ _ = x at hrun ⊢
    obtain ⟨result, s'', notices⟩ := x
    obtain ⟨htext, hcurrent, hresult⟩ := hrun
    dsimp only at htext hcurrent hresult ⊢
    cases result with
    | error e =>
        refine ⟨htext, hcurrent, .inr ?_⟩
        obtain ⟨⟨v, hv⟩, -⟩ | hfailed := hresult
        · cases hv
        · exact ⟨hfailed.1.imp fun cause hcause => congrArg Except.error (Except.error.inj hcause),
            hfailed.2⟩
    | ok count =>
        obtain ⟨-, hlength⟩ | ⟨⟨cause, hcause⟩, -⟩ := hresult
        · obtain ⟨hshown, hkept⟩ := hcurrent.content hfile
          have hcontent : (s''.content d file).1 = .ok (lastText file t
              (stepsOf (stemOf o, stemOf target) (redirects t file o target))) := by
            rw [Session.content_fst (key_within _ hfile), htext]
            rfl
          rw [show s''.content d file = (.ok _, (s''.content d file).2) from
            Prod.ext hcontent rfl]
          exact ⟨hshown.trans htext, hkept, .inl ⟨⟨_, rfl⟩, hlength⟩⟩
        · cases hcause

/-- The update of the references in a module goes through: the module can be
read, and each text that is to be edited again parses. -/
def Passes (s : Session) (d : Disk) (o target file : String) : Prop :=
  (∃ text, s.workspace.textOf d file = .ok text) ∧ ¬ Breaks s d o target file

/-- The text that an update of the references leaves to a module with the
given one. -/
def lastIn (s : Session) (d : Disk) (o target file text : String) : String :=
  (textsIn s d o target file).getLast?.getD text

/-- **One module of an update.** It is left with the last text that it is
given, and the update fails exactly if it cannot be read, or if a text that
is to be edited again does not parse. -/
theorem IsCurrent.updateModule (h : IsCurrent d file s) (hfile : Within file)
    (hmodule : (Dialect.ofPath? file).isSome = true) (htold : ToldApartIn s d o target file) :
    let x := updateModule s d o target file
    IsCurrent d file x.session ∧
      (∀ text, s.workspace.textOf d file = .ok text →
        x.session.workspace.textOf d file = .ok (lastIn s d o target file text)) ∧
      ((∃ v, x.result = .ok v) ↔ Passes s d o target file) ∧
      ((∃ cause, x.result = .error (.code cause)) ↔ Breaks s d o target file) := by
  intro x
  cases htree : (s.tree d file).1 with
  | ok t =>
      obtain ⟨hsteps, htexts⟩ := textsIn_of_tree o target htree
      have hholds := h.exists_holds hfile htree
      have hshown := (hholds.isCurrent hfile).2.1
      obtain ⟨htext, hcurrent, hresult⟩ :=
        hholds.rewritten_updateModule hfile (htexts ▸ htold t htree)
      have hbreaks : Breaks s d o target file ↔
          (textsOf file t (stepsOf (stemOf o, stemOf target) (redirects t file o target))).length
            < (stepsOf (stemOf o, stemOf target) (redirects t file o target)).length := by
        rw [Breaks, hsteps, htexts]
      refine ⟨hcurrent, fun text hread => ?_, ?_, ?_⟩
      · obtain rfl := Except.ok.inj (hshown.symm.trans hread)
        rw [htext, lastText, lastIn, htexts]
      · rw [Passes, hbreaks, and_iff_right ⟨_, hshown⟩]
        obtain ⟨hok, hlength⟩ | ⟨⟨cause, hcause⟩, hlength⟩ := hresult
        · exact ⟨fun _ => hlength ▸ Nat.lt_irrefl _, fun _ => hok⟩
        · exact ⟨fun ⟨v, hv⟩ => by simp [x, hcause] at hv, fun hnot => absurd hlength hnot⟩
      · rw [hbreaks]
        obtain ⟨⟨v, hv⟩, hlength⟩ | ⟨hcause, hlength⟩ := hresult
        · exact ⟨fun ⟨cause, hcause⟩ => by simp [x, hv] at hcause,
            fun hlt => absurd hlength (Nat.ne_of_lt hlt)⟩
        · exact ⟨fun _ => hlength, fun _ => hcause⟩
  | error e =>
      obtain ⟨htexts, hbreaks⟩ := textsIn_of_error o target htree
      obtain ⟨hkept, hcurrent⟩ := h.tree hfile
      obtain ⟨cause, rfl, hunread, -⟩ | ⟨cause, rfl, dialect, text, -, htext, -⟩ :=
        tree_eq_error (key_within _ hfile) hmodule htree
      · -- The module cannot be read.
        obtain ⟨dialect, hdialect⟩ := Option.isSome_iff_exists.mp hmodule
        have hx : x = ⟨.error (.files cause), s, []⟩ :=
          updateModule_of_unreadable (key_within _ hfile) hdialect hunread
        rw [hx]
        refine ⟨h, fun text htext => ?_, ?_, ?_⟩
        · rw [hunread] at htext
          cases htext
        · refine ⟨fun ⟨_, hv⟩ => (nomatch hv), fun ⟨⟨text, htext⟩, _⟩ => ?_⟩
          rw [hunread] at htext
          cases htext
        · exact ⟨fun ⟨_, hv⟩ => (nomatch hv), fun hbroken => absurd hbroken hbreaks⟩
      · -- It does not parse, and is passed over.
        have hx : x = ⟨.ok none, (s.tree d file).2, [.leftUnparsable file]⟩ := by
          show Session.updateModule s d o target file = _
          unfold Session.updateModule
          rw [show s.tree d file = (.error (.code cause), (s.tree d file).2) from
            Prod.ext htree rfl]
        rw [hx]
        refine ⟨hcurrent, fun text hread => ?_, ?_, ?_⟩
        · rw [lastIn, htexts]
          exact hkept.trans hread
        · exact ⟨fun _ => ⟨⟨text, hkept.symm.trans htext⟩, hbreaks⟩, fun _ => ⟨none, rfl⟩⟩
        · exact ⟨fun ⟨_, hv⟩ => (nomatch hv), fun hbroken => absurd hbroken hbreaks⟩

end ScriptRefactor.Session
