import ScriptRefactor.Proofs.Session.Updates

/-!
# `ScriptRefactor.Proofs.Session.OtherModules`: updates leave other modules alone

To update the references of a module, its text is read, edited and saved.
Another module is not touched by that: the workspace shows the same text
for it, and the same tree is kept (`AgreesAt`).
-/

set_option autoImplicit false

namespace ScriptRefactor

open ScriptRefactor.Path Syntax

namespace Workspace

variable {w v u : Workspace} {d : Disk} {file key text : String}

/-- Two workspaces have the same for one key. -/
structure AgreesAt (w v : Workspace) (key : String) : Prop where
  /-- They are workspaces of one project. -/
  root : v.root = w.root
  /-- They have the same settings. -/
  settings : v.settings = w.settings
  /-- The same keys are to be deleted. -/
  deletions : ∀ k, k ∈ v.deletions.keys ↔ k ∈ w.deletions.keys
  /-- The same files were moved. -/
  moves : v.moves = w.moves
  /-- The same directories were moved. -/
  dirMoves : v.dirMoves = w.dirMoves
  /-- The key has the same text in both. -/
  text : v.texts.find? key = w.texts.find? key

namespace AgreesAt

/-- A workspace agrees with itself. -/
theorem refl (w : Workspace) (key : String) : AgreesAt w w key :=
  ⟨rfl, rfl, fun _ => Iff.rfl, rfl, rfl, rfl⟩

/-- Workspaces that agree with one agree with each other. -/
theorem trans (h : AgreesAt w v key) (h' : AgreesAt v u key) : AgreesAt w u key where
  root := h'.root.trans h.root
  settings := h'.settings.trans h.settings
  deletions k := (h'.deletions k).trans (h.deletions k)
  moves := h'.moves.trans h.moves
  dirMoves := h'.dirMoves.trans h.dirMoves
  text := h'.text.trans h.text

/-- The key shows the same text in both. -/
theorem textOf (h : AgreesAt w v key) (d : Disk) : v.textOf d key = w.textOf d key := by
  have hplace := place_congr h.root
  have hdisk : ∀ k, v.diskKey? k = w.diskKey? k := fun k => by
    rw [diskKey?, diskKey?, h.moves, h.dirMoves]
  have hstaged : key ∈ v.stagedFiles ↔ key ∈ w.stagedFiles := by
    rw [stagedFiles, stagedFiles, List.mem_append, List.mem_append, h.moves,
      Table.mem_keys_iff_find?, Table.mem_keys_iff_find?, h.text]
  have hbelow : v.isBelowDeletion key = w.isBelowDeletion key := by
    rw [Bool.eq_iff_iff, isBelowDeletion, isBelowDeletion, List.any_eq_true, List.any_eq_true]
    exact exists_congr fun k => and_congr_left fun _ => h.deletions k
  have hexists : v.fileExists d key = w.fileExists d key := by
    rw [Bool.eq_iff_iff, fileExists_eq_true_iff, fileExists_eq_true_iff, h.deletions, hstaged,
      hbelow, isMoveOrigin, isMoveOrigin, h.moves, onDisk, onDisk, hdisk, hplace]
  have hpath : v.fullPath = w.fullPath := by
    funext k
    rw [fullPath, fullPath, h.root]
  unfold Workspace.textOf
  rw [hexists, h.text, hdisk, hplace, hpath, h.settings]

/-- A text is kept for another key. -/
theorem content (hfile : w.key file = file) (hne : key ≠ file) :
    AgreesAt w (w.content d file).2 key := by
  have hcases := apply_content_cases d w file
  rw [hfile] at hcases
  obtain ⟨text, -, happly⟩ | happly := hcases
  · have happly : (w.content d file).2 = { w with texts := w.texts.insert file text } := happly
    rw [happly]
    exact { refl w key with text := w.texts.find?_insert_of_ne hne text }
  · have happly : (w.content d file).2 = w := happly
    rw [happly]
    exact refl w key

/-- A text is saved for another key, which is not to be deleted. -/
theorem save (hfile : w.key file = file) (hne : key ≠ file) (hkept : file ∉ w.deletions.keys)
    (text : String) : AgreesAt w (w.save file text) key := by
  have hsave : w.save file text = { w with
      deletions := w.deletions.erase file
      texts := w.texts.insert file (Text.Utf8.foldLineBreaks text)
      saves := w.saves.insert file } := by
    rw [Workspace.save, hfile, put, hfile]
    rfl
  rw [hsave]
  refine { refl w key with deletions := fun k => ?_, text := w.texts.find?_insert_of_ne hne _ }
  rw [Table.mem_keys_erase]
  refine ⟨And.left, fun hk => ⟨hk, ?_⟩⟩
  rintro rfl
  exact hkept hk

end AgreesAt

/-- A file that can be read is not to be deleted. -/
theorem not_mem_deletions_of_textOf (h : w.textOf d key = .ok text) :
    key ∉ w.deletions.keys := by
  unfold Workspace.textOf at h
  split at h
  · cases h
  · rename_i hexists
    rw [Bool.not_eq_true', Bool.not_eq_false] at hexists
    exact (fileExists_eq_true_iff.mp hexists).1

/-- The text of a file is kept once it is read. -/
theorem content_of_textOf (hfile : w.key file = file) (h : w.textOf d file = .ok text) :
    w.content d file = (.ok text, { w with texts := w.texts.insert file text }) := by
  rw [content, hfile, h]

/-- A file that cannot be read changes nothing. -/
theorem content_of_error (hfile : w.key file = file) {e : WorkspaceError}
    (h : w.textOf d file = .error e) :
    w.content d file = (.error e, w) := by
  rw [content, hfile, h]

end Workspace

namespace Session

open Workspace

variable {d : Disk} {s s' s'' : Session} {file key text : String}

/-! ### Reading -/

/-- The text of a file is what the workspace shows. -/
theorem content_fst (hfile : s.workspace.key file = file) :
    (s.content d file).1 = (s.workspace.textOf d file).mapError .files := by
  cases htext : s.workspace.textOf d file with
  | ok text => rw [content, content_of_textOf hfile htext]
  | error e => rw [content, content_of_error hfile htext]

/-- The tree of a module is parsed, or kept from before. -/
theorem tree_of_textOf (hfile : s.workspace.key file = file) {dialect : Dialect}
    (hdialect : Dialect.ofPath? file = some dialect)
    (htext : s.workspace.textOf d file = .ok text) :
    s.tree d file = ((s.cache.parseAs dialect file text).1.mapError .code,
      ⟨{ s.workspace with texts := s.workspace.texts.insert file text },
        (s.cache.parseAs dialect file text).2⟩) := by
  unfold tree
  dsimp only
  rw [hfile, hdialect, content, content_of_textOf hfile htext]
  rfl

/-- A module that cannot be read has no tree. -/
theorem tree_of_error (hfile : s.workspace.key file = file) {dialect : Dialect}
    (hdialect : Dialect.ofPath? file = some dialect) {e : WorkspaceError}
    (htext : s.workspace.textOf d file = .error e) : s.tree d file = (.error (.files e), s) := by
  unfold tree
  dsimp only
  rw [hfile, hdialect, content, content_of_error hfile htext]
  rfl

/-- What is no module has no tree. -/
theorem tree_of_unsupported (hfile : s.workspace.key file = file)
    (hdialect : Dialect.ofPath? file = none) :
    s.tree d file = (.error (.unsupportedFile file), s) := by
  unfold tree
  dsimp only
  rw [hfile, hdialect]

/-- A module with a tree can be read, in its dialect, and its tree is kept
or parsed from its text. -/
theorem tree_eq_ok (hfile : s.workspace.key file = file) {t : Tree}
    (h : (s.tree d file).1 = .ok t) :
    ∃ dialect text, Dialect.ofPath? file = some dialect ∧
      s.workspace.textOf d file = .ok text ∧ (s.cache.parseAs dialect file text).1 = .ok t := by
  cases hdialect : Dialect.ofPath? file with
  | none =>
      rw [tree_of_unsupported hfile hdialect] at h
      cases h
  | some dialect =>
      cases htext : s.workspace.textOf d file with
      | error e =>
          rw [tree_of_error hfile hdialect htext] at h
          cases h
      | ok text =>
          rw [tree_of_textOf hfile hdialect htext] at h
          refine ⟨dialect, text, rfl, rfl, ?_⟩
          cases hparse : (s.cache.parseAs dialect file text).1 with
          | ok u =>
              rw [hparse] at h
              exact congrArg Except.ok (Except.ok.inj h)
          | error e =>
              rw [hparse] at h
              cases h

/-! ### Sessions that agree -/

/-- Sessions that show the same text, and whose caches have the same tree for
it, give the same tree. -/
theorem tree_fst_congr (hkey : Within key)
    (htext : s'.workspace.textOf d key = s.workspace.textOf d key)
    (hparse : ∀ dialect text, Dialect.ofPath? key = some dialect →
      s.workspace.textOf d key = .ok text →
        (s'.cache.parseAs dialect key text).1 = (s.cache.parseAs dialect key text).1) :
    (s'.tree d key).1 = (s.tree d key).1 := by
  cases hdialect : Dialect.ofPath? key with
  | none => rw [tree_of_unsupported (key_within _ hkey) hdialect,
      tree_of_unsupported (key_within _ hkey) hdialect]
  | some dialect =>
      cases hshown : s.workspace.textOf d key with
      | error e => rw [tree_of_error (key_within _ hkey) hdialect hshown,
          tree_of_error (key_within _ hkey) hdialect (htext.trans hshown)]
      | ok text => rw [tree_of_textOf (key_within _ hkey) hdialect hshown,
          tree_of_textOf (key_within _ hkey) hdialect (htext.trans hshown),
          hparse dialect text hdialect hshown]

/-- Two sessions have the same for one key. -/
structure AgreesAt (s s' : Session) (key : String) : Prop where
  /-- Their workspaces have. -/
  workspace : Workspace.AgreesAt s.workspace s'.workspace key
  /-- The same tree is kept. -/
  tree : s'.cache.trees.find? key = s.cache.trees.find? key

namespace AgreesAt

/-- A session agrees with itself. -/
theorem refl (s : Session) (key : String) : AgreesAt s s key := ⟨.refl .., rfl⟩

/-- Sessions that agree with one agree with each other. -/
theorem trans (h : AgreesAt s s' key) (h' : AgreesAt s' s'' key) : AgreesAt s s'' key :=
  ⟨h.workspace.trans h'.workspace, h'.tree.trans h.tree⟩

/-- They give the same text. -/
theorem content_fst (h : AgreesAt s s' key) (hkey : Within key) :
    (s'.content d key).1 = (s.content d key).1 := by
  rw [Session.content_fst (key_within _ hkey), Session.content_fst (key_within _ hkey),
    h.workspace.textOf d]

/-- They give the same tree. -/
theorem tree_fst (h : AgreesAt s s' key) (hkey : Within key) :
    (s'.tree d key).1 = (s.tree d key).1 := by
  refine tree_fst_congr hkey (h.workspace.textOf d) fun dialect text _ _ => ?_
  have hkept : s'.cache.kept? dialect key text = s.cache.kept? dialect key text := by
    rw [TreeCache.kept?, TreeCache.kept?, h.tree]
  unfold TreeCache.parseAs
  rw [hkept]
  cases s.cache.kept? dialect key text with
  | some t => rfl
  | none => cases Tree.parse dialect (some key) text <;> rfl

end AgreesAt

/-! ### What an update of another module leaves -/

section Other

variable (hfile : Within file) (hne : key ≠ file)

include hfile hne

/-- Another file is read. -/
theorem agreesAt_content (s : Session) : AgreesAt s (s.content d file).2 key :=
  ⟨.content (key_within _ hfile) hne, rfl⟩

/-- Another module is parsed. -/
theorem agreesAt_tree (s : Session) : AgreesAt s (s.tree d file).2 key := by
  cases hdialect : Dialect.ofPath? file with
  | none =>
      rw [tree_of_unsupported (key_within _ hfile) hdialect]
      exact .refl s key
  | some dialect =>
      cases htext : s.workspace.textOf d file with
      | error e =>
          rw [tree_of_error (key_within _ hfile) hdialect htext]
          exact .refl s key
      | ok text =>
          rw [tree_of_textOf (key_within _ hfile) hdialect htext]
          refine ⟨?_, ?_⟩
          · have hkept := Workspace.AgreesAt.content (w := s.workspace) (d := d)
              (key_within _ hfile) hne
            rwa [content_of_textOf (key_within _ hfile) htext] at hkept
          · -- The cache changes at the key of the parsed module only.
            show (s.cache.parseAs dialect file text).2.trees.find? key = _
            unfold TreeCache.parseAs
            cases s.cache.kept? dialect file text with
            | some t => rfl
            | none =>
                cases Tree.parse dialect (some file) text with
                | ok t => exact s.cache.trees.find?_insert_of_ne hne _
                | error e =>
                    dsimp only
                    rw [Table.find?_erase, if_neg hne]

/-- Another module is changed. -/
theorem agreesAt_update (s : Session) (refactoring : Tree → Changes) :
    AgreesAt s (s.update d file refactoring).session key := by
  have hread := agreesAt_tree (d := d) hfile hne s
  cases htree : (s.tree d file).1 with
  | error e =>
      rw [update_of_error htree]
      exact hread
  | ok t =>
      rw [update_of_tree htree]
      -- What could be parsed is not to be deleted.
      have hkept : file ∉ (s.tree d file).2.workspace.deletions.keys := by
        obtain ⟨dialect, text, hdialect, htext, -⟩ := tree_eq_ok (key_within _ hfile) htree
        have hkept := not_mem_deletions_of_textOf htext
        rwa [tree_of_textOf (key_within _ hfile) hdialect htext]
      refine hread.trans ?_
      generalize (s.tree d file).2 = s' at hkept ⊢
      obtain ⟨-, ⟨-, hs⟩ | ⟨-, hs⟩⟩ :=
        write_cases (s'.workspace.key_within hfile) t.source (refactoring t)
      · rw [hs]
        exact .refl s' key
      · rw [hs]
        exact ⟨.save (key_within _ hfile) hne hkept _, rfl⟩

/-- The references of another module are updated. -/
theorem agreesAt_updateModule (s : Session) (o t : String) :
    AgreesAt s (updateModule s d o t file).session key :=
  rel_updateModule (R := fun s s' => AgreesAt s s' key) (fun s => AgreesAt.refl s key)
    (fun _ _ _ => AgreesAt.trans) (agreesAt_update hfile hne) (agreesAt_tree hfile hne)
    (agreesAt_content hfile hne) s o t

end Other

/-- The references of other modules are updated. -/
theorem agreesAt_updateModules {files : List String} (hwithin : ∀ f ∈ files, Within f)
    (hkey : key ∉ files) (o t : String) (x : Outcome (List FileUpdate)) :
    AgreesAt x.session (updateModules d o t files x).session key := by
  refine rel_updateModules (R := fun s s' => AgreesAt s s' key) (fun s => AgreesAt.refl s key)
    (fun _ _ _ => AgreesAt.trans) (fun f hf s => ?_) x
  refine agreesAt_updateModule (hwithin f hf) ?_ s o t
  rintro rfl
  exact hkey hf

end Session

end ScriptRefactor
