import ScriptRefactor.Proofs.Session.ReportedUpdates
import ScriptRefactor.Proofs.Text.Utf8
import ScriptRefactor.Proofs.Workspace.StagedView

/-!
# `ScriptRefactor.Proofs.Session.ReportedChanges`: what a change of a file reports

A change of a file is told by a difference, and a difference is empty just if
the texts are equal. So an update tells truly whether the new text is the old
one (`Written.changed_iff`). Whether the content of the file differs is another
question: the new text is saved under the key of the key of the path, while
edits are made in the text under the key. Where a key is its own key, both are
the same file, and what an update tells is true of its content. Where it is
not, the content at the path stays as it was, whatever is told
(`changes_told_iff`).

So a change may be told of a path that leads into the project in normal form
only, and no content differs (`change_onDetour_told`).
-/

set_option autoImplicit false

namespace ScriptRefactor

open Syntax ScriptRefactor.Path

namespace Workspace

variable {w : Workspace} {d : Disk}

/-! ### Texts under the key of a key -/

/-- The key of a key is its own key. -/
theorem key_key_key (w : Workspace) (path : String) :
    w.key (w.key (w.key path)) = w.key (w.key path) := by
  obtain ⟨q, hq⟩ := w.exists_key_eq_normalize path
  obtain ⟨names, n, hnames, hnormal⟩ := normalize_cases q
  rw [hq]
  cases hstart : startsAtRoot q with
  | false =>
      have hkey := (w.key_normalize_of_not_startsAtRoot hstart).2
      rw [hkey, hkey]
  | true =>
      rw [hstart, if_pos rfl] at hnormal
      rw [hnormal]
      rcases w.key_ofRoot hnames with ⟨rest, hrest, -, hinside⟩ | ⟨-, hout⟩
      · -- What follows the root of the project stays in it.
        have hwithin : Within (ofNames rest) :=
          ⟨rest, fun s hs => hnames s (hrest ▸ List.mem_append_right _ hs), rfl⟩
        rw [hinside, w.key_within hwithin]
      · rw [hout, hout]

/-- A text that is read changes no file. -/
theorem textOf_content (w : Workspace) (d : Disk) (path key : String) :
    (w.content d path).2.textOf d key = w.textOf d key := by
  obtain ⟨text, htext, happly⟩ | happly := apply_content_cases d w path
  · have happly : (w.content d path).2 = { w with texts := w.texts.insert (w.key path) text } :=
      happly
    have hkept := not_mem_deletions_of_textOf htext
    rw [happly]
    by_cases hkey : key = w.key path
    · subst hkey
      rw [htext]
      exact textOf_kept hkept ((w.texts.find?_insert ..).trans (if_pos rfl))
    · have hagrees : AgreesAt w { w with texts := w.texts.insert (w.key path) text } key :=
        { AgreesAt.refl w key with text := w.texts.find?_insert_of_ne hkey text }
      exact hagrees.textOf d
  · have happly : (w.content d path).2 = w := happly
    rw [happly]

/-- To read a text does not change what a path says. -/
theorem content_content (w : Workspace) (d : Disk) (p path : String) :
    ((w.content d p).2.content d path).1 = (w.content d path).1 := by
  rw [content_fst, content_fst, textOf_content,
    key_congr (w := (w.content d p).2) (apply_frame d w (.content p)).1]

/-- A text is saved for a key under the key of that. -/
theorem save_key (w : Workspace) (path text : String) :
    w.save (w.key path) text = { w.putKey (w.key (w.key path)) text with
      saves := w.saves.insert (w.key (w.key path)) } := by
  rw [save, put, key_key_key]
  rfl

/-- There it is shown. -/
theorem textOf_save_key (w : Workspace) (d : Disk) (path text : String) :
    (w.save (w.key path) text).textOf d (w.key (w.key path))
      = .ok (Text.Utf8.foldLineBreaks text) := by
  rw [save_key]
  exact (w.putKey_view d (w.key (w.key path)) text).2.1

/-- If the key is not its own key, it shows what it did, as far as one of the
two could be read. -/
theorem textOf_save_detour {path : String} (hdetour : w.key (w.key path) ≠ w.key path)
    (hread : (∃ old, w.textOf d (w.key path) = .ok old) ∨
      ∃ old, w.textOf d (w.key (w.key path)) = .ok old) (text : String) :
    (w.save (w.key path) text).textOf d (w.key path) = w.textOf d (w.key path) := by
  rw [save_key]
  refine (((w.putKey_view d (w.key (w.key path)) text).2.2 _ hdetour.symm).2 fun hhidden => ?_).2
  obtain ⟨old, hold⟩ | ⟨old, hold⟩ := hread
  · rw [textOf, hhidden.not_shown] at hold
    cases hold
  · exact not_mem_deletions_of_textOf hold hhidden.1

end Workspace

namespace Session

open Workspace

variable {s : Session} {w v : Workspace} {d : Disk} {path old new : String} {u : FileUpdate}

/-! ### Reading and writing -/

/-- The update reports a text that is written for a path of one workspace, and
the other workspace has it saved, if it is not the old one. -/
structure Written (w v : Workspace) (path old new : String) (u : FileUpdate) : Prop where
  /-- The file is named by the key of the path. -/
  named : u.path = w.key path
  /-- The difference between the texts is shown. -/
  diff : u.diff = diffOf old new
  /-- Another text is saved for the key. -/
  workspace : v = if new = old then w else w.save (w.key path) new

/-- The update tells truly whether the content at a path differs in the other
workspace, and then its file is to be written there. -/
def TellsChange (w v : Workspace) (d : Disk) (path : String) (u : FileUpdate) : Prop :=
  (u.changed = true ↔ (v.content d path).1 ≠ (w.content d path).1) ∧
    (u.changed = true → u.path ∈ v.saves.toList)

/-- To read a text does not change the keys. -/
theorem key_content (w : Workspace) (d : Disk) (p : String) : (w.content d p).2.key = w.key :=
  key_congr (apply_frame d w (.content p)).1

/-- To give the tree of a module, its text is read. -/
theorem workspace_tree {t : Tree} (h : (s.tree d path).1 = .ok t) :
    (s.tree d path).2.workspace = (s.workspace.content d (s.workspace.key path)).2 := by
  unfold tree at h ⊢
  dsimp only at h ⊢
  cases hdialect : Dialect.ofPath? (s.workspace.key path) with
  | none =>
      rw [hdialect] at h
      cases h
  | some dialect =>
      rw [Session.content]
      generalize s.workspace.content d (s.workspace.key path) = r
      obtain ⟨e | text, w⟩ := r <;> rfl

/-- Edits are written. -/
theorem written_write {changes : Changes} (h : (s.write path old changes).result = .ok u) :
    Written s.workspace (s.write path old changes).session.workspace path old
      (applyEdits old changes.edits).1 u := by
  unfold write at h ⊢
  dsimp only at h ⊢
  split at h
  · rename_i hempty
    obtain rfl := Except.ok.inj h
    rw [if_pos hempty, List.isEmpty_iff.mp hempty, applyEdits_nil]
    exact ⟨rfl, (if_pos rfl).symm, (if_pos rfl).symm⟩
  · rename_i hempty
    obtain rfl := Except.ok.inj h
    rw [if_neg hempty]
    exact ⟨rfl, rfl, rfl⟩

/-- A refactoring writes the text of the tree. -/
theorem written_update {refactoring : Tree → Changes}
    (h : (s.update d path refactoring).result = .ok u) :
    ∃ t, (s.tree d path).1 = .ok t ∧
      Written (s.workspace.content d (s.workspace.key path)).2
        (s.update d path refactoring).session.workspace path t.source
        (applyEdits t.source (refactoring t).edits).1 u := by
  have hread := @workspace_tree s d path
  unfold Session.update at h ⊢
  generalize s.tree d path = r at h hread ⊢
  obtain ⟨e | t, s'⟩ := r
  · cases h
  · exact ⟨t, rfl, hread rfl ▸ written_write h⟩

/-- Edits are written to the text of the path. -/
theorem written_apply {edits : List Edit} (h : (s.apply d path edits).result = .ok u) :
    ∃ text, (s.content d path).1 = .ok text ∧
      Written (s.workspace.content d path).2 (s.apply d path edits).session.workspace path text
        (applyEdits text edits).1 u := by
  unfold Session.apply Session.content at h ⊢
  generalize s.workspace.content d path = r at h ⊢
  obtain ⟨e | text, w⟩ := r
  · cases h
  · exact ⟨text, rfl, written_write h⟩

/-- Lines are written to the text of the key. -/
theorem written_updateLines {change : List String → List String}
    (h : (s.updateLines d path change).result = .ok u) :
    ∃ text, (s.content d (s.workspace.key path)).1 = .ok text ∧
      Written (s.workspace.content d (s.workspace.key path)).2
        (s.updateLines d path change).session.workspace path text
        (Text.ofLines (change (Text.linesOf text))) u := by
  have hkey := key_content s.workspace d (s.workspace.key path)
  unfold Session.updateLines Session.content at h ⊢
  dsimp only at h ⊢
  generalize s.workspace.content d (s.workspace.key path) = r at h hkey ⊢
  obtain ⟨e | text, w⟩ := r
  · cases h
  · refine ⟨text, rfl, ?_⟩
    dsimp only [Except.mapError] at h hkey ⊢
    split at h
    · rename_i hsame
      obtain rfl := Except.ok.inj h
      rw [if_pos hsame]
      refine ⟨(congrFun hkey path).symm, ?_, ?_⟩
      · rw [diffOf, if_pos hsame]
      · rw [if_pos hsame]
    · rename_i hother
      obtain rfl := Except.ok.inj h
      rw [if_neg hother, ← hkey]
      refine ⟨rfl, ?_, ?_⟩
      · rw [diffOf, if_neg hother]
      · rw [if_neg hother]

/-- An update tells a change just if the new text is not the old one. -/
theorem Written.changed_iff (h : Written w v path old new u) : u.changed = true ↔ new ≠ old := by
  rw [FileUpdate.changed, h.diff, Bool.not_eq_true', ← Bool.not_eq_true, String.isEmpty_iff, diffOf]
  split
  · simp [*]
  · rename_i hother
    rw [LineDiff.unified_eq_empty_iff, ne_comm]

/-- The keys stay. -/
theorem Written.key_eq (h : Written w v path old new u) : v.key = w.key := by
  rw [h.workspace]
  split
  · rfl
  · exact key_congr rfl

/-- A told change is saved under the key of the key. -/
theorem Written.mem_saves (h : Written w v path old new u) (hchanged : u.changed = true) :
    w.key u.path ∈ v.saves.toList := by
  rw [h.workspace, if_neg (h.changed_iff.mp hchanged), save_key, h.named]
  exact (KeySet.mem_insert ..).mpr (.inl rfl)

/-- The new text is what the key of the path says. -/
theorem Written.content_named (h : Written w v path old new u)
    (hplain : ¬ ['\r', '\n'] <:+: new.toList) :
    (v.content d u.path).1 = if new = old then (w.content d u.path).1 else .ok new := by
  rw [Workspace.content_fst, h.key_eq, h.workspace, h.named, Workspace.content_fst]
  split
  · rfl
  · rw [textOf_save_key, Text.Utf8.foldLineBreaks_eq_self hplain]

/-- If the key is not its own key, the path says what it did. -/
theorem Written.content_detour (h : Written w v path old new u) (hdetour : w.key u.path ≠ u.path)
    (hread : (∃ text, (w.content d path).1 = .ok text) ∨
      ∃ text, (w.content d u.path).1 = .ok text) :
    (v.content d path).1 = (w.content d path).1 := by
  rw [h.named] at hdetour hread
  rw [Workspace.content_fst, Workspace.content_fst] at hread
  rw [Workspace.content_fst, Workspace.content_fst, h.key_eq, h.workspace]
  split
  · rfl
  · exact textOf_save_detour hdetour hread new

end Session

/-! ### Changes of a file -/

/-- A change of a file. -/
inductive FileChange where
  /-- By a refactoring of the module. -/
  | update (refactoring : Tree → Changes)
  /-- By edits. -/
  | apply (edits : List Edit)
  /-- Line by line. -/
  | updateLines (change : List String → List String)

namespace FileChange

open Session Workspace

variable {s : Session} {d : Disk} {path old new : String} {c : FileChange} {u : FileUpdate}

/-- What the change comes to. -/
def perform (s : Session) (d : Disk) (path : String) : FileChange → Outcome FileUpdate
  | update refactoring => s.update d path refactoring
  | apply edits => s.apply d path edits
  | updateLines change => s.updateLines d path change

/-- The text that is changed, and the new one. -/
def texts (s : Session) (d : Disk) (path : String) :
    FileChange → Except SessionError (String × String)
  | update refactoring =>
    (s.tree d path).1.map fun t => (t.source, (applyEdits t.source (refactoring t).edits).1)
  | apply edits => (s.content d path).1.map fun text => (text, (applyEdits text edits).1)
  | updateLines change =>
    (s.content d (s.workspace.key path)).1.map fun text =>
      (text, Text.ofLines (change (Text.linesOf text)))

/-- The path of which the text is read. -/
def readPath (w : Workspace) (path : String) : FileChange → String
  | apply _ => path
  | update _ | updateLines _ => w.key path

/-- The text is that of a tree. -/
def readsTree : FileChange → Bool
  | update _ => true
  | apply _ | updateLines _ => false

/-- A change writes the new text behind the text that it reads. -/
theorem written_perform (h : (c.perform s d path).result = .ok u) :
    ∃ old new, c.texts s d path = .ok (old, new) ∧
      Written (s.workspace.content d (c.readPath s.workspace path)).2
        (c.perform s d path).session.workspace path old new u := by
  cases c with
  | update refactoring =>
      obtain ⟨t, ht, hwritten⟩ := written_update h
      refine ⟨_, _, ?_, hwritten⟩
      rw [texts, ht]
      rfl
  | apply edits =>
      obtain ⟨text, htext, hwritten⟩ := written_apply h
      refine ⟨_, _, ?_, hwritten⟩
      rw [texts, htext]
      rfl
  | updateLines change =>
      obtain ⟨text, htext, hwritten⟩ := written_updateLines h
      refine ⟨_, _, ?_, hwritten⟩
      rw [texts, htext]
      rfl

/-- The old text is the one that is read. If it is that of a tree, the tree has
to be up to date. -/
theorem content_readPath (h : c.texts s d path = .ok (old, new))
    (htree : c.readsTree = true → ∀ t, (s.tree d path).1 = .ok t →
      (s.workspace.content d (s.workspace.key path)).1 = .ok t.source) :
    (s.workspace.content d (c.readPath s.workspace path)).1 = .ok old := by
  have hread {p : String} {f : String → String}
      (h : ((s.content d p).1.map fun text => (text, f text)) = .ok (old, new)) :
      (s.workspace.content d p).1 = .ok old := by
    rw [Session.content] at h
    generalize s.workspace.content d p = r at h ⊢
    obtain ⟨e | text, w⟩ := r
    · cases h
    · exact congrArg _ (Prod.mk.inj (Except.ok.inj h)).1
  cases c with
  | update refactoring =>
      rw [texts] at h
      cases ht : (s.tree d path).1 with
      | error e =>
          rw [ht] at h
          cases h
      | ok t =>
          rw [ht] at h
          rw [← (Prod.mk.inj (Except.ok.inj h)).1]
          exact htree rfl t ht
  | apply edits => exact hread h
  | updateLines change => exact hread h

/-- The text is read of the path, or of its key. -/
theorem readPath_cases (c : FileChange) (w : Workspace) (path : String) :
    c.readPath w path = path ∨ c.readPath w path = w.key path := by
  cases c with
  | apply edits => exact .inl rfl
  | update refactoring | updateLines change => exact .inr rfl

section Told

variable (hwritten : Written (s.workspace.content d (c.readPath s.workspace path)).2
    (c.perform s d path).session.workspace path old new u)
  (hread : (s.workspace.content d (c.readPath s.workspace path)).1 = .ok old)
  (hplain : ¬ ['\r', '\n'] <:+: new.toList)

include hwritten

/-- The file is named by the key of the path. -/
theorem path_eq_key : u.path = s.workspace.key path := by
  rw [hwritten.named, key_content]

include hplain

/-- The content at the path that is told differs just if it was not the new
text already. -/
theorem told_named_iff :
    (u.changed = true ↔ ((c.perform s d path).session.workspace.content d u.path).1
        ≠ (s.workspace.content d u.path).1) ↔
      (u.changed = true → (s.workspace.content d u.path).1 ≠ .ok new) := by
  have hchanged := hwritten.changed_iff
  have hnamed := hwritten.content_named (d := d) hplain
  rw [content_content] at hnamed
  rw [hnamed, hchanged]
  split
  · simp [*]
  · rename_i hother
    simp only [ne_eq, hother, not_false_eq_true, true_iff, true_implies]
    exact ne_comm

include hread

/-- If the text is read under the key that the told path has, the content at
the told path differs just if a change is told. -/
theorem told_named_of_key
    (hkey : s.workspace.key (c.readPath s.workspace path) = s.workspace.key u.path) :
    u.changed = true ↔ ((c.perform s d path).session.workspace.content d u.path).1
      ≠ (s.workspace.content d u.path).1 := by
  rw [told_named_iff hwritten hplain, hwritten.changed_iff]
  have hold : (s.workspace.content d u.path).1 = .ok old := by
    rw [Workspace.content_fst, ← hkey, ← Workspace.content_fst, hread]
  rw [hold]
  exact fun hother heq => hother (Except.ok.inj heq).symm

/-- The update tells truly whether the content at the path differs, and that
its file is to be written, if it tells no change or its path is its own
key. -/
theorem tellsChange_iff :
    TellsChange s.workspace (c.perform s d path).session.workspace d path u ↔
      (u.changed = true → s.workspace.key u.path = u.path) := by
  have hpath := path_eq_key hwritten
  have hsaves := hwritten.mem_saves
  rw [key_content] at hsaves
  refine ⟨fun htold hchanged => ?_, fun hown => ?_⟩
  · by_contra hdetour
    refine htold.1.mp hchanged ?_
    rw [hwritten.content_detour (d := d) (by rwa [key_content]), content_content]
    rw [content_content, content_content, hpath]
    obtain heq | heq := c.readPath_cases s.workspace path
    · exact .inl ⟨old, heq ▸ hread⟩
    · exact .inr ⟨old, heq ▸ hread⟩
  · by_cases hchanged : u.changed = true
    · -- The path and its key have one key, so they say the same.
      have hkey := hown hchanged
      have hsame {w : Workspace} (hw : w.key = s.workspace.key) :
          (w.content d path).1 = (w.content d u.path).1 := by
        rw [Workspace.content_fst, Workspace.content_fst, hw, ← hpath, hkey]
      refine ⟨?_, fun _ => hkey ▸ hsaves hchanged⟩
      rw [hsame rfl, hsame (hwritten.key_eq.trans (key_content ..))]
      refine told_named_of_key hwritten hread hplain ?_
      obtain heq | heq := c.readPath_cases s.workspace path
      · rw [heq, ← hpath, hkey]
      · rw [heq, ← hpath]
    · have hv := hwritten.workspace
      rw [if_pos (not_not.mp (mt hwritten.changed_iff.mpr hchanged))] at hv
      rw [hv, TellsChange, content_content]
      simp [hchanged]

end Told

end FileChange

namespace Session

open SessionCall (treeAsks runEffects)
open Workspace

variable {w : Workspace} {d : Disk}

/-- An update of the references tells truly which contents differ. -/
theorem updateReferences_tells (hnamed : d.IsNamed) (hkeys : ∀ k ∈ w.stagedKeys, Inside k)
    {cache : TreeCache} (hshow : TreesShow ⟨w, cache⟩ d (moduleFiles w d)) {src dest : String}
    {updates : List FileUpdate}
    (hok : (updateReferences ⟨w, cache⟩ d src dest).result = .ok updates) :
    ∀ u ∈ updates,
      TellsChange w (updateReferences ⟨w, cache⟩ d src dest).session.workspace d u.path u := by
  intro u hu
  obtain ⟨hpaths, hcompares, -⟩ := updateReferences_compares hnamed hkeys hshow hok
  have hothers (f : String) (hf : f ∈ others (w.key src) (w.key dest) (moduleFiles w d)) :
      w.key f = f :=
    w.key_within (of_mem_others_moduleFiles hnamed hkeys hf).1.within
  have hpath : w.key u.path = u.path := by
    have hmem := List.mem_map_of_mem (f := FileUpdate.path) hu
    rw [hpaths] at hmem
    exact hothers _ (List.mem_filter.mp hmem).1
  have hstages := (@stages_updateModules d ⟨w, cache⟩
    (others (w.key src) (w.key dest) (moduleFiles w d)) (w.key src) (w.key dest) hothers [] []).1
  rw [← updateReferences_eq] at hstages
  have hchanged := (hcompares u hu).changed_iff
  refine ⟨?_, fun h => ?_⟩
  · rw [Workspace.content_fst, Workspace.content_fst, key_congr hstages.root, hpath]
    exact hchanged
  · exact ((hstages.text u.path).resolve_left (hchanged.mp h)).2.1

/-- **What a change of a file reports.** A difference is empty just if the
texts are equal. Take a session behind any calls, and any change of a file
that goes through; if it refactors a module, let no two texts that were asked
for at one path share a digest. It reports the key of the path, and tells a
change just if the new text is not the old one; then it saves the file under
the key of that key.

If a save keeps all line breaks of the new text, what is told is true of the
content at the path, and the reported path is to be written, just if no change
is told or the reported path is its own key. It is true of the content at the
reported path just if no change is told or the new text was not there before;
this holds wherever the text was read under the key of the reported path, as
it is by refactorings and line by line.

What an update of the references tells of a module is true, too, if all that
is staged is inside the project. -/
theorem changes_told_iff (w : Workspace) (d : Disk) (calls : List SessionCall) :
    let x := SessionCall.run (ofWorkspace w, d) calls
    let w' := x.1.workspace
    let asked := runEffects (ofWorkspace w, d) calls
    (∀ old new, LineDiff.unified old new = "" ↔ old = new) ∧
    (∀ (c : FileChange) (path : String) (u : FileUpdate),
      (c.perform x.1 x.2 path).result = .ok u →
      (c.readsTree = true → Tells (asked ++ treeAsks x path)) →
      let v := (c.perform x.1 x.2 path).session.workspace
      ∃ old new, c.texts x.1 x.2 path = .ok (old, new) ∧ u.path = w'.key path ∧
        (u.changed = true ↔ new ≠ old) ∧ (u.changed = true → w'.key u.path ∈ v.saves.toList) ∧
        (¬ ['\r', '\n'] <:+: new.toList →
          (TellsChange w' v x.2 path u ↔ (u.changed = true → w'.key u.path = u.path)) ∧
          ((u.changed = true ↔ (v.content x.2 u.path).1 ≠ (w'.content x.2 u.path).1) ↔
            (u.changed = true → (w'.content x.2 u.path).1 ≠ .ok new)) ∧
          (w'.key (c.readPath w' path) = w'.key u.path →
            (u.changed = true ↔ (v.content x.2 u.path).1 ≠ (w'.content x.2 u.path).1)))) ∧
    ∀ src dest updates, x.2.IsNamed → (∀ k ∈ w'.stagedKeys, Inside k) →
      (∀ f ∈ moduleFiles w' x.2, Tells (asked ++ treeAsks x f)) →
      (updateReferences x.1 x.2 src dest).result = .ok updates →
      ∀ u ∈ updates,
        TellsChange w' (updateReferences x.1 x.2 src dest).session.workspace x.2 u.path u := by
  intro x w' asked
  -- The cache holds what the calls asked for, and mixes up no texts if their digests differ.
  have hreflects (more : List CacheEvent) (h : Tells (asked ++ more)) :
      Reflects x.1.cache asked := by
    have hcache : x.1.cache = asked.foldl TreeCache.react _ := cache_run (ofWorkspace w, d) calls
    rw [hcache]
    exact reflects_empty.react_all (h.mono fun e he => List.mem_append_left _ he)
  refine ⟨LineDiff.unified_eq_empty_iff, fun c path u hok htells => ?_,
    fun src dest updates hnamed hkeys htells hok => ?_⟩
  · obtain ⟨old, new, htexts, hwritten⟩ := FileChange.written_perform hok
    have hread := FileChange.content_readPath htexts fun hc t ht => by
      have htree := tree_eq_readAs (hreflects _ (htells hc)) (htells hc)
      exact eq_ok_of_readAs (htree.symm.trans ht)
    refine ⟨old, new, htexts, FileChange.path_eq_key hwritten, hwritten.changed_iff, fun h => ?_,
      fun hplain => ⟨?_, ?_, ?_⟩⟩
    · have hsaves := hwritten.mem_saves h
      rwa [key_content] at hsaves
    · exact FileChange.tellsChange_iff hwritten hread hplain
    · exact FileChange.told_named_iff hwritten hplain
    · exact FileChange.told_named_of_key hwritten hread hplain
  · have hfiles (f : String) (hf : f ∈ moduleFiles w' x.2) : w'.key f = f :=
      w'.key_within (of_mem_moduleFiles_inside hnamed hkeys hf).1.within
    refine updateReferences_tells hnamed hkeys (fun f hf => ?_) hok
    have hshow : TreesShow x.1 x.2 [f] := treesShow_of_reflects (hreflects _ (htells f hf))
      (by simpa using htells f hf) (by simpa using hfiles f hf)
    exact hshow f (by simp)

/-- A module is changed by a refactoring behind other calls. -/
theorem changes_told_iff_redirected :
    let w := Workspace.ofFilter "/root" Settings.default PathFilter.showAll
    let x := SessionCall.run (ofWorkspace w, namedTwoWays) [.stage (.content "a.js")]
    let c : FileChange := .update fun t => .ofEdits (Refactoring.renameSource t "./x.js" "./x.ts")
    let v := (c.perform x.1 x.2 "b.js").session.workspace
    ∃ u, (c.perform x.1 x.2 "b.js").result = .ok u ∧ u.changed = true ∧
      (v.content x.2 "b.js").1 ≠ (x.1.workspace.content x.2 "b.js").1 ∧
      u.path = "b.js" ∧ u.path ∈ v.saves.toList := by
  intro w x c v
  let t : Tree := .ofBareImports "b.js" ["./x.js".toList]
  have hkey : x.1.workspace.key "b.js" = "b.js" := by decide +kernel
  have htree : (x.1.tree x.2 "b.js").1 = .ok t :=
    (Holds.of_parse (w := x.1.workspace) (d := x.2) ⟨["b.js".toList], by decide, rfl⟩
      (by decide +kernel) (by decide +kernel) (Tree.parse_ofBareImports _ (by decide))).tree
  have hbehind : (x.1.tree x.2 "b.js").2.workspace.key "b.js" = "b.js" := by
    rw [workspace_tree htree, key_content, hkey]
  obtain ⟨⟨u, hu⟩, -⟩ := write_cases hbehind t.source
    (.ofEdits (Refactoring.renameSource t "./x.js" "./x.ts"))
  have hok : (c.perform x.1 x.2 "b.js").result = .ok u :=
    (congrArg Outcome.result (update_of_tree htree _)).trans hu
  obtain ⟨-, htold, -⟩ := changes_told_iff w namedTwoWays [.stage (.content "a.js")]
  obtain ⟨old, new, htexts, hpath, hchanged, -, hiff⟩ :=
    htold c "b.js" u hok fun _ => by decide +kernel
  have htexts' : c.texts x.1 x.2 "b.js"
      = .ok (t.source, (applyEdits t.source (Refactoring.renameSource t "./x.js" "./x.ts")).1) := by
    show Except.map _ _ = _
    rw [htree]
    rfl
  obtain ⟨rfl, rfl⟩ := Prod.mk.inj (Except.ok.inj (htexts.symm.trans htexts'))
  have hnew : u.changed = true := hchanged.mpr (by decide +kernel)
  have hname : u.path = "b.js" := hpath.trans hkey
  obtain ⟨hdiffers, hsaved⟩ := (hiff (by decide +kernel)).1.mpr fun _ => by rw [hname, hkey]
  exact ⟨u, hok, hnew, hdiffers.mp hnew, hname, hsaved hnew⟩

/-- A file has a new text, and is changed on a path that leads to it in normal
form only. The change is told, but neither the path nor the path that is told
says something else than before, and the path that is told is not to be
written. -/
theorem change_onDetour_told :
    let w := Workspace.ofFilter "/root" Settings.default PathFilter.showAll
    let d : Disk := ⟨[(["root"], .dir), (["root", "x.js"], .file (Disk.bytesOf "x\n"))]⟩
    let x := SessionCall.run (ofWorkspace w, d) [.stage (.save "x.js" "y\n")]
    let path := "/other/../root/x.js"
    let c : FileChange := .apply [⟨0, 1, "y"⟩]
    let v := (c.perform x.1 d path).session.workspace
    ∃ u, (c.perform x.1 d path).result = .ok u ∧ c.texts x.1 d path = .ok ("x\n", "y\n") ∧
      u.changed = true ∧ u.path ∉ v.saves.toList ∧
      ∀ p ∈ [path, u.path], (v.content d p).1 = (x.1.workspace.content d p).1 := by
  intro w d x path c v
  have hresult : (c.perform x.1 d path).result = .ok ⟨"/root/x.js", 1, "-x\n+y\n"⟩ := by
    decide +kernel
  exact ⟨_, hresult, by decide +kernel, by decide +kernel, by decide +kernel, by decide +kernel⟩

end Session

end ScriptRefactor
