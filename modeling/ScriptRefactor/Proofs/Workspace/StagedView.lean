import ScriptRefactor.Proofs.Workspace.Keys
import ScriptRefactor.Proofs.Workspace.OwnFiles

/-!
# `ScriptRefactor.Proofs.Workspace.StagedView`: the view behind a staged text or directory

`put`, `save` and `mkdir` stage something under a key, and take a deletion of
the key back. What they stage is there, and other files are as before, unless
that deletion was what hid them (`Unveils`): the files on disk below a deleted
directory come back when a text or a directory is staged in its place, and so
does a deleted file when a directory is (`staging_unveils_iff`).

Without directory moves a text unveils nothing unless there is a directory on
disk where it goes.
-/

set_option autoImplicit false

namespace ScriptRefactor.Workspace

open ScriptRefactor.Path

/-- The workspace with the deletion of a key taken back. -/
def undeleted (w : Workspace) (key : String) : Workspace :=
  { w with deletions := w.deletions.erase key }

/-- The file of `q` is hidden by the deletion of `p` alone: `q` is `p`, and
staged, or it is `p` or below, and has a file of its own that was not moved
away. -/
def Unveils (w : Workspace) (d : Disk) (p q : String) : Prop :=
  p ∈ w.deletions.keys ∧ ((q = p ∧ q ∈ w.stagedFiles) ∨
    (q ∉ w.stagedFiles ∧ isUnder q p = true ∧ (∀ k ∈ w.deletions.keys, isUnder q k = true → k = p)
      ∧ w.isMoveOrigin q = false ∧ w.owns q d.isFile = true))

instance (w : Workspace) (d : Disk) (p q : String) : Decidable (w.Unveils d p q) :=
  inferInstanceAs (Decidable (_ ∧ _))

/-- Behind a call that takes the deletion of `p` back, the file of `q` is there
again if that hid it, and is else as before. -/
def ShowsUnveiled (w w' : Workspace) (d : Disk) (p q : String) : Prop :=
  (w.Unveils d p q → w.fileExists d q = false ∧ w'.fileExists d q = true) ∧
    (¬ w.Unveils d p q → w'.fileExists d q = w.fileExists d q ∧ w'.textOf d q = w.textOf d q)

variable {w w' : Workspace} {d : Disk} {p q : String}

/-! ### A deletion taken back -/

/-- What a deletion hides alone is not there. -/
theorem Unveils.not_shown (h : w.Unveils d p q) : w.fileExists d q = false := by
  obtain ⟨hdeleted, ⟨rfl, hstaged⟩ | ⟨hstaged, hunder, -⟩⟩ := h
  · rw [← Bool.not_eq_true, fileExists_of_staged hstaged]
    exact not_not_intro hdeleted
  · rw [← Bool.not_eq_true, fileExists_of_not_staged hstaged]
    exact fun hshown => List.any_eq_false.mp hshown.1 p hdeleted hunder

/-- The deletions that are left when one is taken back. -/
theorem mem_deletions_undeleted {k : String} :
    k ∈ (w.undeleted p).deletions.keys ↔ k ∈ w.deletions.keys ∧ k ≠ p :=
  Table.mem_keys_erase w.deletions p k

/-- Where a deletion is taken back, nothing at a key or above it is deleted if
nothing else was. -/
theorem isGone_undeleted_iff :
    (w.undeleted p).isGone q = false ↔ ∀ k ∈ w.deletions.keys, isUnder q k = true → k = p := by
  simp only [isGone, List.any_eq_false, mem_deletions_undeleted]
  constructor
  · intro hkept k hk hunder
    by_contra hne
    exact hkept k ⟨hk, hne⟩ hunder
  · rintro honly k ⟨hk, hne⟩ hunder
    exact hne (honly k hk hunder)

/-- Where a deletion is taken back, the files are there that were there, and
those that it hid alone. -/
theorem fileExists_undeleted_iff :
    (w.undeleted p).fileExists d q = true ↔ w.fileExists d q = true ∨ w.Unveils d p q := by
  by_cases hstaged : q ∈ w.stagedFiles
  · have hstill : q ∈ (w.undeleted p).stagedFiles := hstaged
    rw [fileExists_of_staged hstill, fileExists_of_staged hstaged, mem_deletions_undeleted,
      Unveils]
    by_cases hqp : q = p
    · simp [hqp, hqp ▸ hstaged, em']
    · simp [hqp, hstaged]
  · have hstill : q ∉ (w.undeleted p).stagedFiles := hstaged
    have horigin : (w.undeleted p).isMoveOrigin q = w.isMoveOrigin q := rfl
    have howns : (w.undeleted p).owns q d.isFile = w.owns q d.isFile := rfl
    rw [fileExists_of_not_staged hstill, fileExists_of_not_staged hstaged, isGone_undeleted_iff,
      horigin, howns]
    constructor
    · rintro ⟨honly, hstays⟩
      cases hgone : w.isGone q with
      | false => exact .inl ⟨rfl, hstays⟩
      | true =>
          -- What hides the key is the one deletion.
          obtain ⟨k, hk, hunder⟩ := List.any_eq_true.mp hgone
          obtain rfl := honly k hk hunder
          exact .inr ⟨hk, .inr ⟨hstaged, hunder, honly, hstays⟩⟩
    · rintro (⟨hkept, hstays⟩ | ⟨-, ⟨-, hmem⟩ | ⟨-, -, honly, hstays⟩⟩)
      · exact ⟨fun k hk hunder => absurd hunder (List.any_eq_false.mp hkept k hk), hstays⟩
      · exact absurd hmem hstaged
      · exact ⟨honly, hstays⟩

/-- Behind a call that shows the files that are there where the deletion is
taken back, the unveiled ones are there again. -/
theorem showsUnveiled_of_undeleted (hroot : w'.root = w.root) (hsettings : w'.settings = w.settings)
    (hexists : w'.fileExists d q = (w.undeleted p).fileExists d q)
    (htext : w'.texts.find? q = w.texts.find? q) (hdisk : w'.diskKey? q = w.diskKey? q) :
    ShowsUnveiled w w' d p q := by
  have hiff : w'.fileExists d q = true ↔ w.fileExists d q = true ∨ w.Unveils d p q :=
    hexists ▸ fileExists_undeleted_iff
  refine ⟨fun h => ⟨h.not_shown, hiff.mpr (.inr h)⟩, fun hnot => ?_⟩
  have hsame : w'.fileExists d q = w.fileExists d q := by
    rw [Bool.eq_iff_iff, hiff, or_iff_left hnot]
  exact ⟨hsame, textOf_congr hroot hsettings hsame htext hdisk⟩

/-! ### What is staged -/

/-- A text that is put is there, and changes nothing beside it but what it
unveils. -/
theorem putKey_view (w : Workspace) (d : Disk) (p text : String) :
    (w.putKey p text).fileExists d p = true ∧
      (w.putKey p text).textOf d p = .ok (Text.Utf8.foldLineBreaks text) ∧
      ∀ q, q ≠ p → ShowsUnveiled w (w.putKey p text) d p q := by
  have hexists : (w.putKey p text).fileExists d p = true := by
    refine fileExists_iff_owns.mpr ⟨fun h => ((Table.mem_keys_erase _ _ _).mp h).2 rfl, .inl ?_⟩
    exact mem_stagedFiles_iff.mpr (.inl ((Table.mem_keys_insert _ _ _ _).mpr (.inl rfl)))
  have hfind : ∀ q, (w.putKey p text).texts.find? q =
      if q = p then some (Text.Utf8.foldLineBreaks text) else w.texts.find? q :=
    fun q => Table.find?_insert w.texts p q _
  refine ⟨hexists, ?_, fun q hne => ?_⟩
  · rw [textOf, hexists, hfind, if_pos rfl]
    rfl
  · have htext := hfind q
    rw [if_neg hne] at htext
    have hcontains : (w.putKey p text).texts.contains q = (w.undeleted p).texts.contains q := by
      rw [Table.contains_eq_isSome, htext, Table.contains_eq_isSome]
      rfl
    refine showsUnveiled_of_undeleted rfl rfl ?_ htext rfl
    unfold fileExists
    rw [hcontains]
    rfl

/-- A directory that is staged is there, and changes no file but those that it
unveils. -/
theorem mkdir_view (w : Workspace) (d : Disk) (path : String) :
    (w.mkdir path).dirExists d (w.key path) = true ∧
      ∀ q, ShowsUnveiled w (w.mkdir path) d (w.key path) q := by
  refine ⟨?_, fun q => showsUnveiled_of_undeleted rfl rfl rfl rfl rfl⟩
  refine dirExists_eq_true_iff.mpr (.inr ⟨fun h => ((Table.mem_keys_erase _ _ _).mp h).2 rfl, ?_⟩)
  exact .inl (List.mem_append_left _ ((KeySet.mem_insert _ _ _).mpr (.inl rfl)))

/-- Without directory moves, a deletion hides files below its key only where a
directory stands on disk. -/
theorem Unveils.isDir_place (h : w.Unveils d p q) (hmoves : FileMovesOnly d w) (hd : d.IsTree)
    (hq : Within q) (hne : q ≠ p) : d.isDir (w.place p) = true := by
  obtain ⟨-, ⟨heq, -⟩ | ⟨-, hunder, -, -, howns⟩⟩ := h
  · exact absurd heq hne
  · rw [hmoves.owns_eq] at howns
    have hp := hq.of_isUnder hunder
    exact hd.isDir_of_prefix ((w.prefix_place_iff hq hp).mpr hunder)
      (fun heq => hne ((w.place_inj hp hq).mp heq).symm) (Disk.occupied_of_isFile howns)

/-! ### The calls -/

/-- **Staging a text or a directory changes nothing beside it but what it
unveils.** Take any workspace, any disk and a path that does not start at the
root of the file system. A text that is put or saved is there, with its line
breaks made plain; a directory that is staged is there. Every other file, and
with a directory every file, is as before, unless the deletion that the call
takes back hid it alone: then it is there, and was not.

In a state of a run without directory moves, over a disk that is a tree, only
the deletion of a directory that is on disk hides files below it. -/
theorem staging_unveils_iff (d : Disk) (w : Workspace) (path text : String)
    (hpath : startsAtRoot path = false) :
    let p := w.key path
    (∀ c ∈ [Call.put path text, .save path text],
      (w.apply d c).fileExists d p = true ∧
      (w.apply d c).textOf d p = .ok (Text.Utf8.foldLineBreaks text) ∧
      ∀ q, q ≠ p → ShowsUnveiled w (w.apply d c) d p q) ∧
    ((w.apply d (.mkdir path)).dirExists d p = true ∧
      ∀ q, ShowsUnveiled w (w.apply d (.mkdir path)) d p q) ∧
    ∀ (root : String) (settings : Settings) (filter : PathFilter) (calls : List Call),
      d.IsTree → w = (ofFilter root settings filter).run d calls →
      (∀ c ∈ calls, c.isDirMove = false) →
      ∀ q, Within q → q ≠ p → w.Unveils d p q → d.isDir (w.place p) = true := by
  intro p
  have hput := putKey_view w d p text
  have hkey : w.key p = p := by
    obtain ⟨hnormal, hself⟩ := key_normalize_of_not_startsAtRoot w hpath
    show w.key (w.key path) = w.key path
    rw [hnormal, hself]
  refine ⟨?_, mkdir_view w d path, fun root settings filter calls hd hw hcalls q hq hne h => ?_⟩
  · rw [List.forall_mem_cons, List.forall_mem_singleton]
    refine ⟨hput, ?_⟩
    -- A key to be written changes nothing in the view.
    rw [apply_save hkey]
    exact hput
  · refine h.isDir_place ?_ hd hq hne
    rw [hw]
    exact (FileMovesOnly.ofFilter d root settings filter).run hcalls

/-- A directory and a file are deleted, and another file takes the place of
that. -/
def replaced : List Call := [.delete "s" .warn, .delete "a" .warn, .moveFile "b" "s/b"]

/-- A text saved for the deleted file, with line breaks of two kinds, leaves
the directory deleted, and the moved file where it is. -/
theorem staging_unveils_iff_replaced :
    let w := (ofFilter "/root" Settings.default PathFilter.showAll).run filesAndDir replaced
    let w' := w.apply filesAndDir (.save "./a" "new\r\ntext\n")
    w.fileExists filesAndDir "a" = false ∧ w'.fileExists filesAndDir "a" = true ∧
      w'.textOf filesAndDir "a" = .ok "new\ntext\n" ∧
      w'.fileExists filesAndDir "s/x.js" = false ∧ w'.fileExists filesAndDir "b" = false ∧
      w'.textOf filesAndDir "s/b" = .ok "b\n" := by
  intro w w'
  obtain ⟨htexts, -, hruns⟩ :=
    staging_unveils_iff filesAndDir w "./a" "new\r\ntext\n" (by decide +kernel)
  have hkey : w.key "./a" = "a" := by decide +kernel
  rw [hkey] at htexts hruns
  obtain ⟨hexists, htext, hothers⟩ := htexts (.save "./a" "new\r\ntext\n") (by simp)
  -- There is no directory on disk where the text goes.
  have hkept : ∀ q, Within q → q ≠ "a" → ¬ w.Unveils filesAndDir "a" q := by
    intro q hq hne h
    have hdir := hruns "/root" Settings.default PathFilter.showAll replaced (by decide +kernel) rfl
      (by decide +kernel) q hq hne h
    exact absurd hdir (by decide +kernel)
  have hwithin : ∀ q ∈ ["s/x.js", "b", "s/b"], Within q := by
    have hkeys : ∀ q ∈ ["s/x.js", "b", "s/b"], w.key q = q ∧ q ≠ "" ∧ leaves q = false := by
      decide +kernel
    intro q hq
    obtain ⟨hself, hne, hleaves⟩ := hkeys q hq
    exact within_of_key_eq hself hne hleaves
  have hsame : ∀ q ∈ ["s/x.js", "b", "s/b"], q ≠ "a" →
      w'.fileExists filesAndDir q = w.fileExists filesAndDir q ∧
      w'.textOf filesAndDir q = w.textOf filesAndDir q :=
    fun q hq hne => (hothers q hne).2 (hkept q (hwithin q hq) hne)
  refine ⟨by decide +kernel, hexists, htext.trans (by decide +kernel), ?_, ?_, ?_⟩
  · exact (hsame "s/x.js" (by simp) (by decide)).1.trans (by decide +kernel)
  · exact (hsame "b" (by simp) (by decide)).1.trans (by decide +kernel)
  · exact (hsame "s/b" (by simp) (by decide)).2.trans (by decide +kernel)

/-- A deleted directory shows its files again once a text is saved in its place
or a directory staged, and a deleted file comes back where a directory is
staged. -/
theorem staging_brings_deleted_files_back :
    let new := ofFilter "/root" Settings.default PathFilter.showAll
    let w := new.run filesAndDir [.delete "s" .warn]
    let v := new.run filesAndDir [.delete "a" .warn]
    w.fileExists filesAndDir "s/x.js" = false ∧
      (w.apply filesAndDir (.save "s" "text\n")).textOf filesAndDir "s/x.js" = .ok "x\n" ∧
      (w.apply filesAndDir (.mkdir "s")).textOf filesAndDir "s/x.js" = .ok "x\n" ∧
      v.fileExists filesAndDir "a" = false ∧
      (v.apply filesAndDir (.mkdir "a")).textOf filesAndDir "a" = .ok "a\n" ∧
      (v.apply filesAndDir (.mkdir "a")).dirExists filesAndDir "a" = true := by
  decide +kernel

end ScriptRefactor.Workspace
