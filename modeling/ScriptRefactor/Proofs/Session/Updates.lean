import ScriptRefactor.Proofs.Workspace.MovedView
import ScriptRefactor.Session.References

/-!
# `ScriptRefactor.Proofs.Session.Updates`: updates as reads and saves

When references are updated, modules are read and saved, one after the
other, and nothing else is staged: the workspace behind an update comes
from the one before it by a run of such calls (`isEdited_updateModules`).
What every run keeps, an update keeps.

A file move leaves the other files alone, so each of these reads and saves
can be done before or behind it, and an update of other modules as a whole,
too (`updateModules_withMove`): it tells the same and stages the same. The
move is not in its way, nor is it in the way of the move
(`IsEdited.moveFile_eq`).
-/

set_option autoImplicit false

namespace ScriptRefactor

open ScriptRefactor.Path Syntax

/-! ### Workspaces -/

/-- A call that reads or saves one of some files. -/
def Call.Edits (files : List String) (c : Call) : Prop :=
  ∃ file ∈ files, c = .content file ∨ ∃ text, c = .save file text

namespace Workspace

variable {w v u : Workspace} {d : Disk} {files : List String} {file key : String}

/-- A workspace that comes from another one by reads and saves of some
files. -/
def IsEdited (w v : Workspace) (d : Disk) (files : List String) : Prop :=
  ∃ calls : List Call, (∀ c ∈ calls, c.Edits files) ∧ v = w.run d calls

namespace IsEdited

/-- Nothing has to be read or saved. -/
theorem refl (w : Workspace) (d : Disk) (files : List String) : IsEdited w w d files :=
  ⟨[], by simp, rfl⟩

/-- Reads and saves can be followed by others. -/
theorem trans (h : IsEdited w v d files) (h' : IsEdited v u d files) : IsEdited w u d files := by
  obtain ⟨calls, hcalls, rfl⟩ := h
  obtain ⟨calls', hcalls', rfl⟩ := h'
  exact ⟨calls ++ calls', List.forall_mem_append.mpr ⟨hcalls, hcalls'⟩, List.foldl_append.symm⟩

/-- A file is read. -/
theorem content (hfile : file ∈ files) : IsEdited w (w.content d file).2 d files :=
  ⟨[.content file], by simpa using ⟨file, hfile, .inl rfl⟩, rfl⟩

/-- A file is saved. -/
theorem save (hfile : file ∈ files) (text : String) : IsEdited w (w.save file text) d files :=
  ⟨[.save file text], by simpa using ⟨file, hfile, .inr ⟨text, rfl⟩⟩, rfl⟩

/-- The tables stay in order. -/
theorem isOrdered (h : IsEdited w v d files) (hw : w.IsOrdered) : v.IsOrdered := by
  obtain ⟨calls, -, rfl⟩ := h
  exact hw.run calls

end IsEdited

/-- Two workspaces differ in nothing but texts of some files and their
marks. -/
structure DiffersIn (w v : Workspace) (files : List String) : Prop where
  /-- They are workspaces of one project. -/
  root : v.root = w.root
  /-- The same is to be deleted. -/
  deletions : v.deletions = w.deletions
  /-- The same directories are to be created. -/
  dirs : v.dirs = w.dirs
  /-- The same files were moved. -/
  moves : v.moves = w.moves
  /-- The same directories were moved. -/
  dirMoves : v.dirMoves = w.dirMoves
  /-- The other files have a text in both or in none. -/
  texts : ∀ k, k ∉ files → (k ∈ v.texts.keys ↔ k ∈ w.texts.keys)

/-- A read or a save changes nothing but the text of the file and its mark,
if nothing is to be deleted. -/
theorem DiffersIn.apply (h : DiffersIn w v files) (hw : w.Plain) (hfiles : ∀ f ∈ files, Within f)
    {c : Call} (hc : c.Edits files) : DiffersIn w (v.apply d c) files := by
  obtain ⟨file, hfile, hc⟩ := hc
  have hkey := v.key_within (hfiles file hfile)
  have htexts : ∀ text, ∀ k, k ∉ files →
      (k ∈ (v.texts.insert file text).keys ↔ k ∈ w.texts.keys) := by
    intro text k hk
    rw [Table.mem_keys_insert, h.texts k hk]
    refine ⟨fun hmem => hmem.resolve_left ?_, .inr⟩
    rintro rfl
    exact hk hfile
  rcases hc with rfl | ⟨text, rfl⟩
  · obtain ⟨text, -, happly⟩ | happly := apply_content_cases d v file
    · rw [happly, hkey]
      exact { h with texts := htexts text }
    · rw [happly]
      exact h
  · rw [apply_save (by rw [hkey, hkey]), hkey]
    refine { h with deletions := ?_, texts := htexts _ }
    rw [h.deletions, hw.deletions]
    rfl

/-- Reads and saves change nothing but texts of the files and their marks,
if nothing is to be deleted. -/
theorem IsEdited.differsIn (h : IsEdited w v d files) (hw : w.Plain)
    (hfiles : ∀ f ∈ files, Within f) : DiffersIn w v files := by
  obtain ⟨calls, hcalls, rfl⟩ := h
  exact run_induction (P := fun v => DiffersIn w v files)
    (fun v hv c hc => hv.apply hw hfiles (hcalls c hc))
    ⟨rfl, rfl, rfl, rfl, rfl, fun _ _ => Iff.rfl⟩

namespace DiffersIn

variable (h : DiffersIn w v files)

include h

/-- The other keys stand on disk where they stood. -/
theorem onDisk (key : String) (p : Place → Bool) : v.onDisk key p = w.onDisk key p := by
  rw [Workspace.onDisk, Workspace.onDisk, diskKey?, diskKey?, h.moves, h.dirMoves,
    place_congr h.root]

/-- The other files are there in both or in none. -/
theorem fileExists (hkey : key ∉ files) : v.fileExists d key = w.fileExists d key := by
  have hstaged : key ∈ v.stagedFiles ↔ key ∈ w.stagedFiles := by
    rw [stagedFiles, stagedFiles, List.mem_append, List.mem_append, h.texts key hkey, h.moves]
  rw [Bool.eq_iff_iff, fileExists_eq_true_iff, fileExists_eq_true_iff, hstaged, h.onDisk,
    isBelowDeletion, isBelowDeletion, h.deletions, isMoveOrigin, isMoveOrigin, h.moves]

/-- A directory is there in both or in none if none of the files lies
below it. -/
theorem dirExists (hbelow : ∀ f ∈ files, isUnder f key = false) :
    v.dirExists d key = w.dirExists d key := by
  have hstaged : ∀ k, isUnder k key = true → (k ∈ v.stagedFiles ↔ k ∈ w.stagedFiles) := by
    intro k hk
    have hmem : k ∉ files := fun hmem => by
      rw [hbelow k hmem] at hk
      cases hk
    rw [stagedFiles, stagedFiles, List.mem_append, List.mem_append, h.texts k hmem, h.moves]
  have hfiles : (∃ f ∈ v.stagedFiles, f ≠ key ∧ isUnder f key = true) ↔
      ∃ f ∈ w.stagedFiles, f ≠ key ∧ isUnder f key = true :=
    exists_congr fun f => and_congr_left fun hf => hstaged f hf.2
  rw [Bool.eq_iff_iff, dirExists_eq_true_iff, dirExists_eq_true_iff, hfiles, h.onDisk,
    isBelowDeletion, isBelowDeletion, h.deletions, stagedDirs, stagedDirs, h.dirs, h.dirMoves]

end DiffersIn

/-- A file move that was possible before other files were read and saved is
possible behind that. -/
theorem IsEdited.moveFile_eq (h : IsEdited w v d files) (hw : w.Plain) (hd : d.IsTree)
    {src dest : String} {moved : Workspace} (hmove : w.moveFile d src dest = .ok moved)
    (hfiles : ∀ f ∈ files, Inside f ∧ w.fileExists d f = true ∧ f ≠ w.key src ∧ f ≠ w.key dest) :
    v.moveFile d src dest = .ok (v.withMove d (w.key src) (w.key dest)) := by
  obtain ⟨horigin, ⟨hfile, hdir⟩, -⟩ := moveFile_eq_ok hmove
  have hv := h.differsIn hw fun f hf => (hfiles f hf).1.within
  have hbelow : ∀ f ∈ files, isUnder f (w.key dest) = false := by
    intro f hf
    obtain ⟨hinside, hexists, -, hne⟩ := hfiles f hf
    refine Bool.eq_false_iff.mpr fun hunder => ?_
    have habove := hw.dirExists_of_file hd hinside hexists hne hunder hfile
    rw [hdir] at habove
    cases habove
  have hkey := key_congr hv.root
  rw [← hkey] at horigin hfile hdir hbelow hfiles ⊢
  refine moveFile_of_free ?_ ?_ ?_
  · exact (hv.fileExists fun hmem => (hfiles _ hmem).2.2.1 rfl).trans horigin
  · exact (hv.fileExists fun hmem => (hfiles _ hmem).2.2.2 rfl).trans hfile
  · exact (hv.dirExists hbelow).trans hdir

end Workspace

/-! ### Sessions -/

/-- The session behind a file move. -/
def Session.withMove (s : Session) (d : Disk) (o t : String) : Session :=
  { s with workspace := s.workspace.withMove d o t }

/-- What an operation comes to with a file moved behind it. -/
def Outcome.withMove {α : Type} (x : Outcome α) (d : Disk) (o t : String) : Outcome α :=
  { x with session := x.session.withMove d o t }

namespace Session

open Workspace

variable {d : Disk} {files : List String} {file o t : String}

section Relation

variable {R : Session → Session → Prop} (hrefl : ∀ s, R s s)
  (htrans : ∀ s s' s'', R s s' → R s' s'' → R s s'')
  (hupdate : ∀ s refactoring, R s (s.update d file refactoring).session)

include hupdate htrans

/-- What changing a module keeps, pointing a source elsewhere keeps. -/
theorem rel_redirectSource (s : Session) (names sources : String × String) :
    R s (redirectSource s d file names sources).session := by
  have hrenamed := hupdate s fun tr => .ofEdits (Refactoring.renameSource tr sources.1 sources.2)
  unfold redirectSource
  generalize s.update d file _ = x at hrenamed ⊢
  dsimp only
  split
  · exact hrenamed
  · split <;> dsimp only
    · exact hrenamed
    · exact htrans _ _ _ hrenamed (hupdate x.session _)

include hrefl

/-- So does pointing several sources elsewhere. -/
theorem rel_redirectSources (names : String × String) (pairs : List (String × String))
    (x : Outcome Nat) : R x.session (redirectSources d file names pairs x).session := by
  induction pairs generalizing x with
  | nil => exact hrefl x.session
  | cons sources rest ih =>
      have hstep := rel_redirectSource htrans hupdate x.session names sources
      rw [redirectSources]
      generalize redirectSource x.session d file names sources = next at hstep ⊢
      dsimp only
      split
      · exact hrefl x.session
      · rename_i count _
        exact htrans _ _ _ hstep
          (ih ⟨next.result.map (count + ·), next.session, x.notices ++ next.notices⟩)

/-- What reading and changing a module keeps, an update of its references
keeps. -/
theorem rel_updateModule (htree : ∀ s, R s (s.tree d file).2)
    (hcontent : ∀ s, R s (s.content d file).2) (s : Session) (o t : String) :
    R s (updateModule s d o t file).session := by
  have hread := htree s
  unfold updateModule
  generalize s.tree d file = r at hread ⊢
  obtain ⟨(e | e | e) | tr, s'⟩ := r <;> dsimp only at hread ⊢
  · exact hread
  · exact hread
  · exact hread
  · split
    · exact hread
    · have hsources := htrans _ _ _ hread (rel_redirectSources hrefl htrans hupdate
        (stemOf o, stemOf t) (redirects tr file o t) ⟨.ok 0, s', []⟩)
      generalize redirectSources d file (stemOf o, stemOf t) (redirects tr file o t)
        ⟨.ok 0, s', []⟩ = x at hsources ⊢
      have hread := htrans _ _ _ hsources (hcontent x.session)
      split
      · exact hsources
      · generalize x.session.content d file = r at hread ⊢
        obtain ⟨e | text, s''⟩ := r <;> dsimp only at hread ⊢ <;> exact hread

omit hupdate in
/-- What an update of each of some modules keeps, an update of all
keeps. -/
theorem rel_updateModules {o t : String}
    (hmodule : ∀ f ∈ files, ∀ s, R s (updateModule s d o t f).session)
    (x : Outcome (List FileUpdate)) : R x.session (updateModules d o t files x).session := by
  induction files generalizing x with
  | nil => exact hrefl x.session
  | cons file files ih =>
      obtain ⟨hfile, hfiles⟩ := List.forall_mem_cons.mp hmodule
      have hstep := hfile x.session
      rw [updateModules]
      generalize updateModule x.session d o t file = next at hstep ⊢
      dsimp only
      split
      · exact hrefl x.session
      · rename_i updates _
        exact htrans _ _ _ hstep (ih hfiles
          ⟨next.result.map (updates ++ ·.toList), next.session, x.notices ++ next.notices⟩)

end Relation

/-- A module with a tree is written. -/
theorem update_of_tree {s : Session} {file : String} {t : Tree} (h : (s.tree d file).1 = .ok t)
    (refactoring : Tree → Changes) :
    s.update d file refactoring = (s.tree d file).2.write file t.source (refactoring t) := by
  unfold update
  rw [show s.tree d file = (.ok t, (s.tree d file).2) from Prod.ext h rfl]

/-- A module without a tree is not changed. -/
theorem update_of_error {s : Session} {file : String} {e : SessionError}
    (h : (s.tree d file).1 = .error e) (refactoring : Tree → Changes) :
    s.update d file refactoring = ⟨.error e, (s.tree d file).2, []⟩ := by
  unfold update
  rw [show s.tree d file = (.error e, (s.tree d file).2) from Prod.ext h rfl]

/-- Without edits a text stays. -/
theorem applyEdits_nil (text : String) : (applyEdits text []).1 = text := by
  simp [applyEdits, mergeEdits, splice]

/-- What a write does to a session: nothing if the edits leave the text as it
is, and else the edited text is saved. -/
theorem write_cases {s : Session} {file : String} (hkey : s.workspace.key file = file)
    (old : String) (changes : Changes) :
    (∃ u, (s.write file old changes).result = .ok u) ∧
      ((applyEdits old changes.edits).1 = old ∧ (s.write file old changes).session = s ∨
        (applyEdits old changes.edits).1 ≠ old ∧ (s.write file old changes).session
          = { s with workspace := s.workspace.save file (applyEdits old changes.edits).1 }) := by
  rw [write, hkey]
  split
  · rename_i hempty
    refine ⟨⟨_, rfl⟩, .inl ⟨?_, rfl⟩⟩
    rw [List.isEmpty_iff.mp hempty, applyEdits_nil]
  · refine ⟨⟨_, rfl⟩, ?_⟩
    dsimp only
    by_cases hsame : (applyEdits old changes.edits).1 = old
    · exact .inl ⟨hsame, by rw [if_pos hsame]⟩
    · exact .inr ⟨hsame, by rw [if_neg hsame]⟩

section Edits

variable (hfile : file ∈ files) (hwithin : Within file)

include hfile

/-- To get the text of a file, it is read. -/
theorem isEdited_content (s : Session) :
    IsEdited s.workspace (s.content d file).2.workspace d files :=
  IsEdited.content hfile

include hwithin

/-- To get the tree of a module, it is read. -/
theorem isEdited_tree (s : Session) :
    IsEdited s.workspace (s.tree d file).2.workspace d files := by
  have hcontent := isEdited_content (d := d) hfile s
  unfold tree
  rw [s.workspace.key_within hwithin]
  dsimp only
  cases Dialect.ofPath? file with
  | none => exact IsEdited.refl ..
  | some dialect =>
      dsimp only
      generalize s.content d file = r at hcontent ⊢
      obtain ⟨result | result, s'⟩ := r <;> exact hcontent

/-- To write a file, it is saved. -/
theorem isEdited_write (s : Session) (old : String) (changes : Changes) :
    IsEdited s.workspace (s.write file old changes).session.workspace d files := by
  obtain ⟨-, ⟨-, hs⟩ | ⟨-, hs⟩⟩ :=
    write_cases (s.workspace.key_within hwithin) old changes
  · rw [hs]
    exact IsEdited.refl ..
  · rw [hs]
    exact IsEdited.save hfile _

/-- To change a module, it is read and saved. -/
theorem isEdited_update (s : Session) (refactoring : Tree → Changes) :
    IsEdited s.workspace (s.update d file refactoring).session.workspace d files := by
  have htree := isEdited_tree (d := d) hfile hwithin s
  unfold update
  generalize s.tree d file = r at htree ⊢
  obtain ⟨e | tr, s'⟩ := r <;> dsimp only at htree ⊢
  · exact htree
  · exact htree.trans (isEdited_write hfile hwithin s' _ _)

/-- To point a source elsewhere, the module is read and saved. -/
theorem isEdited_redirectSource (s : Session) (names sources : String × String) :
    IsEdited s.workspace (redirectSource s d file names sources).session.workspace d files :=
  rel_redirectSource (R := fun s s' => IsEdited s.workspace s'.workspace d files)
    (fun _ _ _ => IsEdited.trans) (isEdited_update hfile hwithin) s names sources

/-- To point sources elsewhere, the module is read and saved. -/
theorem isEdited_redirectSources (names : String × String) (pairs : List (String × String))
    (x : Outcome Nat) :
    IsEdited x.session.workspace (redirectSources d file names pairs x).session.workspace d
      files :=
  rel_redirectSources (R := fun s s' => IsEdited s.workspace s'.workspace d files)
    (fun s => IsEdited.refl s.workspace d files) (fun _ _ _ => IsEdited.trans)
    (isEdited_update hfile hwithin) names pairs x

/-- To update the references of a module, it is read and saved. -/
theorem isEdited_updateModule (s : Session) (o t : String) :
    IsEdited s.workspace (updateModule s d o t file).session.workspace d files :=
  rel_updateModule (R := fun s s' => IsEdited s.workspace s'.workspace d files)
    (fun s => IsEdited.refl s.workspace d files) (fun _ _ _ => IsEdited.trans)
    (isEdited_update hfile hwithin) (isEdited_tree hfile hwithin) (isEdited_content hfile) s o t

end Edits

/-- To update the references of modules, they are read and saved. -/
theorem isEdited_updateModules (hwithin : ∀ f ∈ files, Within f) (o t : String)
    (x : Outcome (List FileUpdate)) :
    IsEdited x.session.workspace (updateModules d o t files x).session.workspace d files :=
  rel_updateModules (R := fun s s' => IsEdited s.workspace s'.workspace d files)
    (fun s => IsEdited.refl s.workspace d files) (fun _ _ _ => IsEdited.trans)
    (fun f hf s => isEdited_updateModule hf (hwithin f hf) s o t) x

/-! ### Updates before and behind a move -/

section Commute

variable {s : Session} (h : s.workspace.IsOrdered) (hwithin : Within file) (ho : file ≠ o)
  (ht : file ≠ t)

include h hwithin ho ht

/-- The text of another file is got before or behind a move. -/
theorem content_withMove : (s.withMove d o t).content d file
    = ((s.content d file).1, (s.content d file).2.withMove d o t) := by
  have hcontent := Workspace.content_withMove (d := d) h (s.workspace.key_within hwithin) ho ht
  unfold content withMove
  dsimp only
  rw [hcontent]

/-- The tree of another module is got before or behind a move. -/
theorem tree_withMove : (s.withMove d o t).tree d file
    = ((s.tree d file).1, (s.tree d file).2.withMove d o t) := by
  have hcontent := content_withMove (d := d) h hwithin ho ht
  have hkey : (s.withMove d o t).workspace.key file = file := s.workspace.key_within hwithin
  unfold tree
  rw [s.workspace.key_within hwithin, hkey]
  dsimp only
  cases Dialect.ofPath? file with
  | none => rfl
  | some dialect =>
      dsimp only
      rw [hcontent]
      generalize s.content d file = r
      obtain ⟨e | text, s'⟩ := r <;> rfl

/-- Another file is written before or behind a move. -/
theorem write_withMove (old : String) (changes : Changes) :
    (s.withMove d o t).write file old changes = (s.write file old changes).withMove d o t := by
  have hkey : (s.withMove d o t).workspace.key file = file := s.workspace.key_within hwithin
  rw [write, write, s.workspace.key_within hwithin, hkey]
  split
  · rfl
  · have hsave := save_withMove (d := d) h (s.workspace.key_within hwithin) ho ht
      (applyEdits old changes.edits).1
    dsimp only
    split
    · rfl
    · rw [withMove, hsave]
      rfl

/-- Another module is changed before or behind a move. -/
theorem update_withMove (refactoring : Tree → Changes) :
    (s.withMove d o t).update d file refactoring
      = (s.update d file refactoring).withMove d o t := by
  have htree := isEdited_tree (d := d) (List.mem_singleton_self file) hwithin s
  unfold update
  rw [tree_withMove h hwithin ho ht]
  generalize s.tree d file = r at htree ⊢
  obtain ⟨e | tr, s'⟩ := r
  · rfl
  · exact write_withMove (htree.isOrdered h) hwithin ho ht _ _

/-- A source of another module is pointed elsewhere before or behind a
move. -/
theorem redirectSource_withMove (names sources : String × String) :
    redirectSource (s.withMove d o t) d file names sources
      = (redirectSource s d file names sources).withMove d o t := by
  have hrenamed := isEdited_update (d := d) (List.mem_singleton_self file) hwithin s fun tr =>
    .ofEdits (Refactoring.renameSource tr sources.1 sources.2)
  unfold redirectSource
  rw [update_withMove h hwithin ho ht]
  generalize s.update d file _ = x at hrenamed ⊢
  obtain ⟨e | u, s', notices⟩ := x
  · rfl
  · simp only [Outcome.withMove]
    rw [update_withMove (hrenamed.isOrdered h) hwithin ho ht]
    generalize s'.update d file _ = imported
    split <;> rfl

end Commute

section CommuteAll

variable (hwithin : Within file) (ho : file ≠ o) (ht : file ≠ t)

include hwithin ho ht

/-- The sources of another module are pointed elsewhere before or behind a
move. -/
theorem redirectSources_withMove (names : String × String) (pairs : List (String × String))
    (x : Outcome Nat) (h : x.session.workspace.IsOrdered) :
    redirectSources d file names pairs (x.withMove d o t)
      = (redirectSources d file names pairs x).withMove d o t := by
  induction pairs generalizing x with
  | nil => rfl
  | cons sources rest ih =>
      have hstep := isEdited_redirectSource (d := d) (List.mem_singleton_self file) hwithin
        x.session names sources
      have hnext := redirectSource_withMove (d := d) h hwithin ho ht names sources
      obtain ⟨e | count, s, notices⟩ := x
      · rfl
      · simp only [redirectSources, Outcome.withMove]
        rw [hnext]
        generalize redirectSource s d file names sources = next at hstep ⊢
        exact ih ⟨_, next.session, _⟩ (hstep.isOrdered h)

/-- The references of another module are updated before or behind a
move. -/
theorem updateModule_withMove {s : Session} (h : s.workspace.IsOrdered) (origin target : String) :
    updateModule (s.withMove d o t) d origin target file
      = (updateModule s d origin target file).withMove d o t := by
  have htree := isEdited_tree (d := d) (List.mem_singleton_self file) hwithin s
  unfold updateModule
  rw [tree_withMove h hwithin ho ht]
  -- Each step commutes with the move: the tree, the redirected sources, the text at the end.
  generalize s.tree d file = r at htree ⊢
  obtain ⟨(e | e | e) | tr, s'⟩ := r
  · rfl
  · rfl
  · rfl
  · dsimp only at htree ⊢
    split
    · rfl
    · let start : Outcome Nat := ⟨.ok 0, s', []⟩
      have hsources := htree.trans (isEdited_redirectSources (d := d)
        (List.mem_singleton_self file) hwithin (stemOf origin, stemOf target)
        (redirects tr file origin target) start)
      have hmoved := redirectSources_withMove (d := d) hwithin ho ht
        (stemOf origin, stemOf target) (redirects tr file origin target) start (htree.isOrdered h)
      rw [show (⟨.ok 0, s'.withMove d o t, []⟩ : Outcome Nat) = start.withMove d o t from rfl,
        hmoved]
      generalize redirectSources d file _ _ start = x at hsources ⊢
      obtain ⟨e | count, s, notices⟩ := x
      · rfl
      · have hcontent := content_withMove (d := d) (hsources.isOrdered h) hwithin ho ht
        simp only [Outcome.withMove]
        rw [hcontent]
        generalize s.content d file = r
        obtain ⟨e | text, s⟩ := r <;> rfl

end CommuteAll

/-- The references of other modules are updated before or behind a
move. -/
theorem updateModules_withMove (origin target : String)
    (hfiles : ∀ f ∈ files, Within f ∧ f ≠ o ∧ f ≠ t) (x : Outcome (List FileUpdate))
    (h : x.session.workspace.IsOrdered) :
    updateModules d origin target files (x.withMove d o t)
      = (updateModules d origin target files x).withMove d o t := by
  induction files generalizing x with
  | nil => rfl
  | cons file files ih =>
      obtain ⟨⟨hwithin, ho, ht⟩, hfiles⟩ := List.forall_mem_cons.mp hfiles
      have hstep := isEdited_updateModule (d := d) (List.mem_singleton_self file) hwithin
        x.session origin target
      have hnext := updateModule_withMove (d := d) hwithin ho ht h origin target
      obtain ⟨e | updates, s, notices⟩ := x
      · rfl
      · simp only [updateModules, Outcome.withMove]
        rw [hnext]
        generalize updateModule s d origin target file = next at hstep ⊢
        exact ih hfiles ⟨_, next.session, _⟩ (hstep.isOrdered h)

end Session

end ScriptRefactor
