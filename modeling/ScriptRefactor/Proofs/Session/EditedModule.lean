import ScriptRefactor.Proofs.Refactoring.Transforms
import ScriptRefactor.Proofs.Session.OtherModules
import ScriptRefactor.Proofs.Session.Redirects
import ScriptRefactor.Proofs.Syntax.TreeCache

/-!
# `ScriptRefactor.Proofs.Session.EditedModule`: a module edited step by step

To redirect the sources of a module, its text is edited for each of them in
turn, and read anew each time. What the parser makes of the edited texts is
a `Course` of trees. If each has the sources of its links where the edits
have moved them, the sources at the end are those at the start, redirected
one after the other (`Course.sourcesOf_eq`).

A session follows the course: the tree that it gives for the module is the
first one before the update and the last one behind it
(`Holds.updateModule`), be it parsed or kept from before.
-/

set_option autoImplicit false

namespace ScriptRefactor

open ScriptRefactor.Path Syntax Workspace

/-- A kept text is shown, unless its key is to be deleted. -/
theorem Workspace.textOf_kept {w : Workspace} {d : Disk} {key text : String}
    (hkept : key ∉ w.deletions.keys) (h : w.texts.find? key = some text) :
    w.textOf d key = .ok text := by
  have hexists : w.fileExists d key = true := fileExists_eq_true_iff.mpr
    ⟨hkept, .inl (List.mem_append_left _ ((Table.mem_keys_iff_find? _ key).mpr ⟨text, h⟩))⟩
  rw [textOf, hexists, h]
  rfl

namespace Session

open Refactoring

variable {d : Disk} {s : Session} {file : String} {t t' u : Tree} {edits : List Edit}
  {names : String × String} {pairs : List (String × String)}

/-! ### Texts read anew -/

/-- The edited text of a tree is read as another tree. -/
structure Rereads (file : String) (t : Tree) (edits : List Edit) (t' : Tree) : Prop where
  /-- The parser reads it so. -/
  parsed : Tree.parse t.dialect (some file) (applyEdits t.source edits).1 = .ok t'
  /-- Staging the text changes no end of a line. -/
  plain : Text.Utf8.foldLineBreaks (applyEdits t.source edits).1 = (applyEdits t.source edits).1
  /-- Its digest tells it from the text before. -/
  digest : Digest.ofText t.source = Digest.ofText (applyEdits t.source edits).1 →
    (applyEdits t.source edits).1 = t.source
  /-- The sources of the links are found where the edits have moved them. -/
  moved : LinksMoved t edits t'

/-- The trees of a module that is edited by some transforms, one after the
other, and read anew each time. -/
inductive Course (file : String) : Tree → List Transform → Tree → Prop
  | done (t : Tree) : Course file t [] t
  | step {t u v : Tree} {x : Transform} {xs : List Transform} (linked : t.WellLinked)
      (reads : Rereads file t (x.edits t) u) (rest : Course file u xs v) :
      Course file t (x :: xs) v

/-- The transforms by which the sources of a module are redirected. -/
def stepsOf (names : String × String) (pairs : List (String × String)) : List Transform :=
  pairs.flatMap fun p => .renameSource p.1 p.2 ::
    if names.1 = names.2 then [] else [.renameImported names.1 names.2 (some p.2)]

/-- A course starts with its first step. -/
theorem Course.of_cons {x : Transform} {xs : List Transform} (h : Course file t (x :: xs) u) :
    ∃ t', t.WellLinked ∧ Rereads file t (x.edits t) t' ∧ Course file t' xs u := by
  cases h with
  | step linked reads rest => exact ⟨_, linked, reads, rest⟩

/-- The steps for the first source come first. -/
theorem stepsOf_cons (names p : String × String) (pairs : List (String × String)) :
    stepsOf names (p :: pairs) = .renameSource p.1 p.2 ::
      ((if names.1 = names.2 then [] else [.renameImported names.1 names.2 (some p.2)])
        ++ stepsOf names pairs) := by
  rw [stepsOf, List.flatMap_cons]
  rfl

/-- At the end of the course, the sources have been redirected one after the
other. -/
theorem Course.sourcesOf_eq (hpairs : ∀ p ∈ pairs, p.1 ≠ "" ∧ p.2 ≠ "")
    (hnames : names.1 ≠ "" ∧ names.2 ≠ "") (h : Course file t (stepsOf names pairs) u) :
    sourcesOf u = (sourcesOf t).map (Option.map (redirected pairs)) := by
  induction pairs generalizing t with
  | nil =>
      cases h
      have hid : redirected [] = id := rfl
      rw [hid, Option.map_id, List.map_id]
  | cons p pairs ih =>
      obtain ⟨⟨hold, hnew⟩, hpairs⟩ := List.forall_mem_cons.mp hpairs
      rw [stepsOf_cons] at h
      obtain ⟨t', linked, reads, rest⟩ := h.of_cons
      have hrenamed := sourcesOf_renameSource linked hold hnew (Tree.of_parse reads.parsed).1
        reads.moved
      have hfold : redirected (p :: pairs)
          = redirected pairs ∘ fun s => if s = p.1 then p.2 else s := rfl
      have hmap : (sourcesOf t).map (Option.map (redirected (p :: pairs)))
          = (sourcesOf t').map (Option.map (redirected pairs)) := by
        rw [hrenamed, List.map_map, hfold, ← Option.map_comp_map]
      rw [hmap]
      split at rest
      · exact ih hpairs rest
      · obtain ⟨t'', linked, reads, rest⟩ := rest.of_cons
        rw [ih hpairs rest, sourcesOf_renameImported linked hnames.1 hnames.2
          (Tree.of_parse reads.parsed).1 reads.moved]

/-! ### A session on its course -/

/-- The session gives the tree for the module, and it is what the parser
reads in its text. -/
structure Holds (d : Disk) (file : String) (s : Session) (t : Tree) : Prop where
  /-- The tree is given. -/
  tree : (s.tree d file).1 = .ok t
  /-- It has the text of the module. -/
  text : (s.content d file).1 = .ok t.source
  /-- The parser reads the text so. -/
  parsed : Tree.parse t.dialect (some file) t.source = .ok t

/-- A session that agrees gives the same tree. -/
theorem Holds.of_agreesAt {s' : Session} (h : Holds d file s t) (hfile : Within file)
    (hagrees : AgreesAt s s' file) : Holds d file s' t :=
  ⟨(hagrees.tree_fst hfile).trans h.tree, (hagrees.content_fst hfile).trans h.text, h.parsed⟩

/-- Behind the reading of a tree, its text and the tree are kept. -/
structure Keeps (file : String) (s : Session) (t : Tree) : Prop where
  /-- The dialect is that of the file. -/
  dialect : Dialect.ofPath? file = some t.dialect
  /-- The file is not to be deleted. -/
  shown : file ∉ s.workspace.deletions.keys
  /-- The text is kept. -/
  text : s.workspace.texts.find? file = some t.source
  /-- The tree is kept. -/
  tree : s.cache.trees.find? file = some ⟨Digest.ofText t.source, t⟩

/-- What is given is kept. -/
theorem Holds.keeps (h : Holds d file s t) (hfile : Within file) :
    Keeps file (s.tree d file).2 t := by
  obtain ⟨dialect, text, hdialect, htext, hparse⟩ := tree_eq_ok (key_within _ hfile) h.tree
  have hsource := h.text
  rw [content_fst (key_within _ hfile), htext] at hsource
  obtain rfl : text = t.source := Except.ok.inj hsource
  obtain ⟨rfl, hkept⟩ := TreeCache.parseAs_eq_ok hparse
  have hshown := not_mem_deletions_of_textOf htext
  rw [tree_of_textOf (key_within _ hfile) hdialect htext]
  exact ⟨hdialect, hshown,
    (s.workspace.texts.find?_insert ..).trans (if_pos rfl), hkept⟩

/-- What is kept is given. -/
theorem Keeps.holds (h : Keeps file s t) (hfile : Within file)
    (hparsed : Tree.parse t.dialect (some file) t.source = .ok t) : Holds d file s t := by
  have htext := textOf_kept (d := d) h.shown h.text
  refine ⟨?_, ?_, hparsed⟩
  · rw [tree_of_textOf (key_within _ hfile) h.dialect htext, TreeCache.parseAs_kept h.tree]
    rfl
  · rw [content_fst (key_within _ hfile), htext]
    rfl

/-- Behind a text that is saved, the text is shown with its ends of lines
folded, and the cache is asked for its tree. -/
theorem Keeps.save (h : Keeps file s t) (hfile : Within file) (text : String) :
    let s' : Session := { s with workspace := s.workspace.save file text }
    s'.workspace.textOf d file = .ok (Text.Utf8.foldLineBreaks text) ∧
      (s'.tree d file).1
        = (s.cache.parseAs t.dialect file (Text.Utf8.foldLineBreaks text)).1.mapError .code := by
  have hsave : s.workspace.save file text = { s.workspace with
      deletions := s.workspace.deletions.erase file
      texts := s.workspace.texts.insert file (Text.Utf8.foldLineBreaks text)
      saves := s.workspace.saves.insert file } := by
    rw [Workspace.save, s.workspace.key_within hfile, put, s.workspace.key_within hfile, putKey]
  have htext : (s.workspace.save file text).textOf d file
      = .ok (Text.Utf8.foldLineBreaks text) := by
    rw [hsave]
    refine textOf_kept (fun hmem => ?_) ((s.workspace.texts.find?_insert ..).trans (if_pos rfl))
    exact h.shown ((s.workspace.deletions.mem_keys_erase ..).mp hmem).1
  refine ⟨htext, ?_⟩
  rw [tree_of_textOf (key_within _ hfile) h.dialect htext]

/-- Behind an edited text that is saved, its tree is given. -/
theorem Keeps.holds_save (h : Keeps file s t) (hfile : Within file)
    (hread : Rereads file t edits t') (hne : (applyEdits t.source edits).1 ≠ t.source) :
    Holds d file { s with workspace := s.workspace.save file (applyEdits t.source edits).1 }
      t' := by
  obtain ⟨hsource, hdialect⟩ := Tree.of_parse hread.parsed
  obtain ⟨htext, htree⟩ := h.save (d := d) hfile (applyEdits t.source edits).1
  rw [hread.plain] at htext htree
  refine ⟨?_, ?_, ?_⟩
  · rw [htree, TreeCache.parseAs_anew h.tree fun hsame => hne (hread.digest hsame), hread.parsed]
    rfl
  · rw [content_fst (key_within _ hfile)]
    show Except.mapError _ (Workspace.textOf _ _ _) = _
    rw [htext, hsource]
    rfl
  · rw [hsource, hdialect]
    exact hread.parsed

/-- Behind a step the session gives the tree that the edited text is read
as. -/
theorem Holds.update (h : Holds d file s t) (hfile : Within file) (f : Tree → List Edit)
    (hread : Rereads file t (f t) t') :
    (∃ v, (s.update d file fun t => .ofEdits (f t)).result = .ok v) ∧
      Holds d file (s.update d file fun t => .ofEdits (f t)).session t' := by
  have hkeeps := h.keeps hfile
  rw [update_of_tree h.tree]
  generalize (s.tree d file).2 = s' at hkeeps ⊢
  obtain ⟨hok, ⟨hsame, hs⟩ | ⟨hne, hs⟩⟩ :=
    write_cases (s'.workspace.key_within hfile) t.source (.ofEdits (f t))
  · -- An unchanged text is read as before.
    have hparsed := hread.parsed
    rw [show (applyEdits t.source (f t)).1 = t.source from hsame] at hparsed
    obtain rfl := Except.ok.inj (hparsed.symm.trans h.parsed)
    rw [hs]
    exact ⟨hok, hkeeps.holds hfile h.parsed⟩
  · rw [hs]
    exact ⟨hok, hkeeps.holds_save hfile hread hne⟩

/-- The tree is given again when the text is read. -/
theorem Holds.content (h : Holds d file s t) (hfile : Within file) :
    Holds d file (s.content d file).2 t := by
  obtain ⟨dialect, text, hdialect, htext, hparse⟩ := tree_eq_ok (key_within _ hfile) h.tree
  have hsource := h.text
  rw [content_fst (key_within _ hfile), htext] at hsource
  obtain rfl : text = t.source := Except.ok.inj hsource
  have hshown := not_mem_deletions_of_textOf htext
  have hcontent : (s.content d file).2 = { s with workspace :=
      { s.workspace with texts := s.workspace.texts.insert file t.source } } := by
    rw [Session.content, content_of_textOf (key_within _ hfile) htext]
  have hagain : ({ s.workspace with texts := s.workspace.texts.insert file t.source }
      : Workspace).textOf d file = .ok t.source :=
    textOf_kept hshown ((s.workspace.texts.find?_insert ..).trans (if_pos rfl))
  rw [hcontent]
  refine ⟨?_, ?_, h.parsed⟩
  · rw [tree_of_textOf (key_within _ hfile) hdialect hagain]
    show Except.mapError _ (s.cache.parseAs _ _ _).1 = _
    rw [hparse]
    rfl
  · rw [content_fst (key_within _ hfile)]
    show Except.mapError _ (Workspace.textOf _ _ _) = _
    rw [hagain]
    rfl

/-- The steps for one source are those of the course. -/
theorem Holds.redirectSource (h : Holds d file s t) (hfile : Within file) {p : String × String}
    (hcourse : Course file t (stepsOf names (p :: pairs)) u) :
    ∃ t', Course file t' (stepsOf names pairs) u ∧
      (∃ n, (redirectSource s d file names p).result = .ok n) ∧
      Holds d file (redirectSource s d file names p).session t' := by
  rw [stepsOf_cons] at hcourse
  obtain ⟨t', -, reads, rest⟩ := hcourse.of_cons
  obtain ⟨⟨v, hv⟩, hrenamed⟩ :=
    h.update hfile (fun t => Refactoring.renameSource t p.1 p.2) reads
  unfold Session.redirectSource
  generalize s.update d file _ = x at hv hrenamed ⊢
  dsimp only
  rw [hv]
  dsimp only
  split at rest
  · rename_i hsame
    rw [if_pos hsame]
    exact ⟨t', rest, ⟨_, rfl⟩, hrenamed⟩
  · rename_i hne
    rw [if_neg hne]
    obtain ⟨t'', -, reads, rest⟩ := rest.of_cons
    obtain ⟨⟨v', hv'⟩, himported⟩ := hrenamed.update hfile
      (fun t => Refactoring.renameImported t names.1 names.2 (some p.2)) reads
    refine ⟨t'', rest, ⟨v.count + v'.count, ?_⟩, himported⟩
    dsimp only
    rw [hv']
    rfl

/-- The session gives the last tree of the course when all sources are
redirected. -/
theorem Holds.redirectSources (h : Holds d file s t) (hfile : Within file)
    (hcourse : Course file t (stepsOf names pairs) u) (n : Nat) (notices : List Notice) :
    let x := redirectSources d file names pairs ⟨.ok n, s, notices⟩
    (∃ m, x.result = .ok m) ∧ Holds d file x.session u := by
  induction pairs generalizing s t n notices with
  | nil =>
      cases hcourse
      exact ⟨⟨n, rfl⟩, h⟩
  | cons p pairs ih =>
      obtain ⟨t', rest, ⟨m, hm⟩, hnext⟩ := h.redirectSource hfile hcourse
      rw [Session.redirectSources]
      dsimp only
      rw [hm]
      exact ih hnext rest _ _

/-- **A module whose references are updated follows its course.** The
update of the module goes through, and the session gives the last tree of
the course for it. -/
theorem Holds.updateModule (h : Holds d file s t) (hfile : Within file) {o target : String}
    (hcourse : Course file t (stepsOf (stemOf o, stemOf target) (redirects t file o target)) u) :
    let x := updateModule s d o target file
    (∃ v, x.result = .ok v) ∧ Holds d file x.session u := by
  have hread := (h.keeps hfile).holds (d := d) hfile h.parsed
  unfold Session.updateModule
  rw [show s.tree d file = (.ok t, (s.tree d file).2) from Prod.ext h.tree rfl]
  dsimp only
  generalize (s.tree d file).2 = s' at hread ⊢
  split
  · -- There is nothing to redirect, and the course is over.
    rename_i hempty
    rw [List.isEmpty_iff.mp hempty] at hcourse
    cases hcourse
    exact ⟨⟨none, rfl⟩, hread⟩
  · obtain ⟨⟨n, hn⟩, hend⟩ := hread.redirectSources hfile hcourse 0 []
    generalize Session.redirectSources d file _ _ _ = x at hn hend ⊢
    have hcontent := hend.content hfile
    rw [hn]
    dsimp only
    rw [show x.session.content d file = (.ok u.source, (x.session.content d file).2) from
      Prod.ext hend.text rfl]
    exact ⟨⟨_, rfl⟩, hcontent⟩

end Session

end ScriptRefactor
