import Mathlib.Data.List.Sort
import ScriptRefactor.Proofs.Workspace.ViewTree

/-!
# `ScriptRefactor.Proofs.Workspace.Reads`: texts that are kept by reads

A text that was read is kept with the staged ones, and the view takes a
file for every text that is kept. So a workspace with more texts
(`withTexts`) may give other answers. It gives the same ones exactly if
the view shows each of the further texts without its being kept
(`sameAnswers_iff`): the file with this text, the directories above it,
and all of them in their listings (`Transparent`).
-/

set_option autoImplicit false

namespace ScriptRefactor.Workspace

open ScriptRefactor.Path

/-! ### More texts -/

/-- The workspace with other texts. -/
def withTexts (w : Workspace) (texts : Table String) : Workspace := { w with texts := texts }

/-- The text is kept under the key, but not by the workspace itself. -/
def IsExtra (w : Workspace) (texts : Table String) (key text : String) : Prop :=
  texts.find? key = some text ∧ w.texts.find? key ≠ some text

/-- A text kept under the key changes nothing that the view shows. -/
structure Transparent (w : Workspace) (d : Disk) (key text : String) : Prop where
  /-- The key is deleted, or shows the text. -/
  text : key ∈ w.deletions.keys ∨ w.textOf d key = .ok text
  /-- Above the key there are directories, unless they are deleted. -/
  above : ∀ k ∈ upwards key, k ≠ key → k ∈ w.deletions.keys ∨ w.dirExists d k = true
  /-- What is there on the way up is listed. -/
  listed : ∀ k ∈ upwards key, k ≠ "" → w.isListed d k = true → k ∈ w.list d (parent k)

instance (w : Workspace) (d : Disk) (key text : String) : Decidable (w.Transparent d key text) :=
  decidable_of_iff ((key ∈ w.deletions.keys ∨ w.textOf d key = .ok text)
      ∧ (∀ k ∈ upwards key, k ≠ key → k ∈ w.deletions.keys ∨ w.dirExists d k = true)
      ∧ ∀ k ∈ upwards key, k ≠ "" → w.isListed d k = true → k ∈ w.list d (parent k))
    ⟨fun ⟨h1, h2, h3⟩ => ⟨h1, h2, h3⟩, fun h => ⟨h.text, h.above, h.listed⟩⟩

/-- All extra texts are transparent. -/
def AllTransparent (w : Workspace) (d : Disk) (texts : Table String) : Prop :=
  ∀ key text, w.IsExtra texts key text → w.Transparent d key text

/-- Whether something is accepted, or why it is not. -/
def outcome {α : Type} (result : Except WorkspaceError α) : Except WorkspaceError Unit :=
  result.map fun _ => ()

/-- The changes that are pending. -/
def pending (w : Workspace) :
    KeySet × Table DeleteMode × KeySet × List (String × String) × List (String × String) :=
  (w.saves, w.deletions, w.dirs, w.moves, w.dirMoves)

/-- Two workspaces give the same answers. -/
structure SameAnswers (w v : Workspace) (d : Disk) : Prop where
  /-- The same files exist. -/
  file : ∀ path, v.fileExists d (v.key path) = w.fileExists d (w.key path)
  /-- The same directories exist. -/
  dir : ∀ path, v.dirExists d (v.key path) = w.dirExists d (w.key path)
  /-- The files say the same. -/
  content : ∀ path, (v.content d path).1 = (w.content d path).1
  /-- The listings are the same. -/
  list : ∀ path, v.list d path = w.list d path
  /-- The same file moves are accepted. -/
  moveFile : ∀ origin target,
    outcome (v.moveFile d origin target) = outcome (w.moveFile d origin target)
  /-- The same directory moves are accepted. -/
  moveDir : ∀ origin target,
    outcome (v.moveDir d origin target) = outcome (w.moveDir d origin target)
  /-- The same changes are pending. -/
  pending : v.pending = w.pending

variable {d : Disk} {w : Workspace} {texts : Table String} {key : String}

/-- Under each key the same text is kept, or an extra one. -/
theorem find?_eq_or_isExtra (hsub : ∀ k ∈ w.texts.keys, k ∈ texts.keys) (key : String) :
    texts.find? key = w.texts.find? key ∨ ∃ text, w.IsExtra texts key text := by
  cases htext : texts.find? key with
  | none =>
      have hkey := mt (hsub key) ((Table.find?_eq_none_iff _ _).mp htext)
      exact .inl ((Table.find?_eq_none_iff _ _).mpr hkey).symm
  | some text =>
      by_cases hsame : w.texts.find? key = some text
      · exact .inl hsame.symm
      · exact .inr ⟨text, htext, hsame⟩

/-- A text is kept by the workspace itself, or extra. -/
theorem mem_keys_or_isExtra (hsub : ∀ k ∈ w.texts.keys, k ∈ texts.keys) (h : key ∈ texts.keys) :
    key ∈ w.texts.keys ∨ ∃ text, w.IsExtra texts key text := by
  refine (find?_eq_or_isExtra hsub key).imp_left fun hsame => ?_
  rw [Table.mem_keys_iff_find?] at h ⊢
  rwa [← hsame]

/-- An extra text is kept. -/
theorem IsExtra.mem_keys {text : String} (h : w.IsExtra texts key text) : key ∈ texts.keys :=
  (Table.mem_keys_iff_find? _ _).mpr ⟨text, h.1⟩

instance (w : Workspace) (d : Disk) (texts : Table String) :
    Decidable (w.AllTransparent d texts) :=
  decidable_of_iff (∀ key ∈ texts.keys, ∀ text ∈ texts.find? key,
      w.texts.find? key ≠ some text → w.Transparent d key text)
    ⟨fun h key text hextra => h key hextra.mem_keys text hextra.1 hextra.2,
      fun h key _ text htext hne => h key text ⟨htext, hne⟩⟩

/-! ### What is there -/

/-- The files, with more texts. -/
theorem fileExists_withTexts_iff (hsub : ∀ k ∈ w.texts.keys, k ∈ texts.keys) :
    (w.withTexts texts).fileExists d key = true ↔
      w.fileExists d key = true ∨ (key ∉ w.deletions.keys ∧ key ∈ texts.keys) := by
  have hkey := hsub key
  rw [fileExists_eq_true_iff, fileExists_eq_true_iff, stagedFiles, stagedFiles, List.mem_append,
    List.mem_append]
  show key ∉ w.deletions.keys ∧ ((key ∈ texts.keys ∨ key ∈ w.moves.map Prod.snd) ∨
    (w.isBelowDeletion key = false ∧ w.isMoveOrigin key = false ∧ w.onDisk key d.isFile = true)) ↔ _
  tauto

/-- The directories, with more texts. -/
theorem dirExists_withTexts_iff (hsub : ∀ k ∈ w.texts.keys, k ∈ texts.keys) :
    (w.withTexts texts).dirExists d key = true ↔ w.dirExists d key = true ∨
      (key ∉ w.deletions.keys ∧ (w.withTexts texts).HoldsText key) := by
  -- A staged file is a text or the target of a move, so only the texts tell the two apart.
  have hsplit : ∀ v : Workspace, (∃ file ∈ v.stagedFiles, file ≠ key ∧ isUnder file key = true) ↔
      v.HoldsText key ∨ ∃ m ∈ v.moves, m.2 ≠ key ∧ isUnder m.2 key = true := by
    intro v
    simp only [stagedFiles, HoldsText, List.mem_append, List.mem_map, or_and_right, exists_or]
    refine or_congr_right ⟨?_, ?_⟩
    · rintro ⟨file, ⟨m, hm, rfl⟩, h⟩
      exact ⟨m, hm, h⟩
    · rintro ⟨m, hm, h⟩
      exact ⟨m.2, ⟨m, hm, rfl⟩, h⟩
  rw [dirExists_eq_true_iff, dirExists_eq_true_iff, hsplit, hsplit]
  show key = "" ∨ (key ∉ w.deletions.keys ∧ (key ∈ w.stagedDirs ∨
    ((w.withTexts texts).HoldsText key ∨ ∃ m ∈ w.moves, m.2 ≠ key ∧ isUnder m.2 key = true) ∨
      (w.isBelowDeletion key = false ∧ w.onDisk key d.isDir = true))) ↔ _
  constructor
  · rintro (hroot | ⟨hkept, hdir | (htext | hmove) | hdisk⟩)
    · exact .inl (.inl hroot)
    · exact .inl (.inr ⟨hkept, .inl hdir⟩)
    · exact .inr ⟨hkept, htext⟩
    · exact .inl (.inr ⟨hkept, .inr (.inl (.inr hmove))⟩)
    · exact .inl (.inr ⟨hkept, .inr (.inr hdisk)⟩)
  · rintro ((hroot | ⟨hkept, hdir | (⟨t, ht, htext⟩ | hmove) | hdisk⟩) | ⟨hkept, htext⟩)
    · exact .inl hroot
    · exact .inr ⟨hkept, .inl hdir⟩
    · exact .inr ⟨hkept, .inr (.inl (.inl ⟨t, hsub t ht, htext⟩))⟩
    · exact .inr ⟨hkept, .inr (.inl (.inr hmove))⟩
    · exact .inr ⟨hkept, .inr (.inr hdisk)⟩
    · exact .inr ⟨hkept, .inr (.inl (.inl htext))⟩

/-- The staged keys, with more texts. -/
theorem mem_stagedKeys_withTexts_iff (hsub : ∀ k ∈ w.texts.keys, k ∈ texts.keys) :
    key ∈ (w.withTexts texts).stagedKeys ↔ key ∈ w.stagedKeys ∨ key ∈ texts.keys := by
  have hkey := hsub key
  simp only [stagedKeys, List.mem_append, withTexts]
  tauto

/-- The members of a directory, with more texts. -/
theorem mem_members_withTexts_iff (hsub : ∀ k ∈ w.texts.keys, k ∈ texts.keys)
    (hin : ∀ k ∈ texts.keys, Inside k) {dir : String} :
    key ∈ ((w.withTexts texts).members d dir).toList ↔ key ∈ (w.members d dir).toList ∨
      ∃ t ∈ texts.keys, key ∈ upwards t ∧ key ≠ "" ∧ parent key = dir := by
  have hreached : (∃ t ∈ texts.keys, memberOf? dir t = some key) ↔
      ∃ t ∈ texts.keys, key ∈ upwards t ∧ key ≠ "" ∧ parent key = dir :=
    exists_congr fun t => and_congr_right fun ht => memberOf?_eq_some_iff (hin t ht)
  have hdisk : (w.withTexts texts).diskKey? dir = w.diskKey? dir := rfl
  have hplace : (w.withTexts texts).place = w.place := rfl
  rw [← hreached, members, members, hdisk, hplace, KeySet.mem_ofList, KeySet.mem_ofList,
    List.mem_append, List.mem_append, List.mem_filterMap, List.mem_filterMap, or_assoc]
  simp only [mem_stagedKeys_withTexts_iff hsub, or_and_right, exists_or]

/-! ### Answers -/

/-- More texts that are transparent show the same files. -/
theorem fileExists_withTexts_eq (hsub : ∀ k ∈ w.texts.keys, k ∈ texts.keys)
    (h : w.AllTransparent d texts) (key : String) :
    (w.withTexts texts).fileExists d key = w.fileExists d key := by
  rw [Bool.eq_iff_iff, fileExists_withTexts_iff hsub, or_iff_left_iff_imp]
  rintro ⟨hkept, hkey⟩
  rcases mem_keys_or_isExtra hsub hkey with hkey | ⟨text, hextra⟩
  · exact fileExists_eq_true_iff.mpr ⟨hkept, .inl (List.mem_append_left _ hkey)⟩
  · -- The view shows a text only for a file.
    have htext := (h key text hextra).text.resolve_left hkept
    by_contra hnot
    rw [Bool.not_eq_true] at hnot
    simp [textOf, hnot] at htext

/-- More texts that are transparent show the same directories. -/
theorem dirExists_withTexts_eq (hsub : ∀ k ∈ w.texts.keys, k ∈ texts.keys)
    (h : w.AllTransparent d texts) (key : String) :
    (w.withTexts texts).dirExists d key = w.dirExists d key := by
  rw [Bool.eq_iff_iff, dirExists_withTexts_iff hsub, or_iff_left_iff_imp]
  rintro ⟨hkept, t, ht, hne, hunder⟩
  -- The text below makes a directory of the key also where it is not kept.
  rcases mem_keys_or_isExtra hsub ht with ht | ⟨text, hextra⟩
  · exact dirExists_of_stagedFile (List.mem_append_left _ ht) hne hunder hkept
  · exact ((h t text hextra).above key (mem_upwards.mpr hunder) hne.symm).resolve_left hkept

/-- More texts that are transparent show the same texts. -/
theorem textOf_withTexts_eq (hsub : ∀ k ∈ w.texts.keys, k ∈ texts.keys)
    (h : w.AllTransparent d texts) (key : String) :
    (w.withTexts texts).textOf d key = w.textOf d key := by
  have hfile := fileExists_withTexts_eq hsub h key
  have htexts : (w.withTexts texts).texts = texts := rfl
  cases hexists : w.fileExists d key with
  | false =>
      rw [textOf, textOf, hfile, hexists]
      rfl
  | true =>
      rcases find?_eq_or_isExtra hsub key with hsame | ⟨text, hextra⟩
      · rw [textOf, textOf, hfile, htexts, hsame]
        rfl
      · -- The extra text is the one that the view shows.
        have hkept := (fileExists_eq_true_iff.mp hexists).1
        rw [(h key text hextra).text.resolve_left hkept, textOf, hfile, hexists, htexts, hextra.1]
        rfl

/-- More texts that are transparent list the same members. -/
theorem list_withTexts_eq (hsub : ∀ k ∈ w.texts.keys, k ∈ texts.keys)
    (hin : ∀ k ∈ texts.keys, Inside k)
    (h : w.AllTransparent d texts) (path : String) :
    (w.withTexts texts).list d path = w.list d path := by
  have hlisted : (w.withTexts texts).isListed d = w.isListed d := by
    funext k
    rw [isListed, isListed, fileExists_withTexts_eq hsub h, dirExists_withTexts_eq hsub h]
    rfl
  have hkey : (w.withTexts texts).key path = w.key path := rfl
  rw [list, list, hlisted, hkey]
  -- Both listings are in ascending order, so that they are known by their members.
  refine List.Pairwise.eq_of_mem_iff ((KeySet.pairwise_ofList _).filter _)
    ((KeySet.pairwise_ofList _).filter _) fun k => ?_
  rw [List.mem_filter, List.mem_filter]
  refine and_congr_left fun hk => ?_
  show k ∈ ((w.withTexts texts).members d (w.key path)).toList ↔ _
  rw [mem_members_withTexts_iff hsub hin, or_iff_left_iff_imp]
  rintro ⟨t, ht, hup, hne, hparent⟩
  have hinside := ((hin t ht).within.of_isUnder (mem_upwards.mp hup)).inside hne
  rcases mem_keys_or_isExtra hsub ht with ht' | ⟨text, hextra⟩
  · rw [← hparent]
    exact mem_members_of_upwards (mem_stagedKeys_of_staged (.inl (List.mem_append_left _ ht')))
      (hin t ht) hup hne
  · -- What is above an extra text is listed, so that it is a member.
    have hmem := (h t text hextra).listed k hup hne hk
    rw [list, w.key_within hinside.within_parent, hparent] at hmem
    exact (List.mem_filter.mp hmem).1

/-- Whether a file move is accepted. -/
theorem outcome_moveFile (w : Workspace) (d : Disk) (o t : String) :
    outcome (w.moveFile d o t) =
      if !w.fileExists d (w.key o) then .error (.noFileToMove (w.key o))
      else if w.fileExists d (w.key t) || w.dirExists d (w.key t) then
        .error (.targetFileExists (w.key t))
      else .ok () := by
  rw [moveFile]
  split
  · rfl
  · split <;> rfl

/-- Whether a directory move is accepted. -/
theorem outcome_moveDir (w : Workspace) (d : Disk) (o t : String) :
    outcome (w.moveDir d o t) =
      if !w.dirExists d (w.key o) then .error (.noDirToMove (w.key o))
      else if w.fileExists d (w.key t) || w.dirExists d (w.key t) then
        .error (.targetDirExists (w.key t))
      else .ok () := by
  rw [moveDir]
  split
  · rfl
  · split <;> rfl

/-- With more texts the answers are the same if these are transparent. -/
theorem sameAnswers_of_transparent (hsub : ∀ k ∈ w.texts.keys, k ∈ texts.keys)
    (hin : ∀ k ∈ texts.keys, Inside k)
    (h : w.AllTransparent d texts) :
    SameAnswers w (w.withTexts texts) d := by
  have hkey : (w.withTexts texts).key = w.key := rfl
  have hfile := fileExists_withTexts_eq hsub h
  have hdir := dirExists_withTexts_eq hsub h
  exact {
    file := fun path => hfile (w.key path)
    dir := fun path => hdir (w.key path)
    content := fun path => by rw [content_fst, content_fst, hkey, textOf_withTexts_eq hsub h]
    list := list_withTexts_eq hsub hin h
    moveFile := fun o t => by rw [outcome_moveFile, outcome_moveFile, hkey, hfile, hfile, hdir]
    moveDir := fun o t => by rw [outcome_moveDir, outcome_moveDir, hkey, hfile, hdir, hdir]
    pending := rfl }

/-- If the answers are the same, the further texts are transparent. -/
theorem transparent_of_sameAnswers (hsub : ∀ k ∈ w.texts.keys, k ∈ texts.keys)
    (hin : ∀ k ∈ texts.keys, Inside k) (h : SameAnswers w (w.withTexts texts) d) {text : String}
    (hextra : w.IsExtra texts key text) : w.Transparent d key text := by
  have hkeys : ∀ {k}, Within k → w.key k = k := fun hk => w.key_within hk
  have hfile : ∀ {k}, Within k → (w.withTexts texts).fileExists d k = w.fileExists d k := by
    intro k hk
    have hsame := h.file k
    rwa [hkeys hk, show (w.withTexts texts).key k = k from hkeys hk] at hsame
  have hdir : ∀ {k}, Within k → (w.withTexts texts).dirExists d k = w.dirExists d k := by
    intro k hk
    have hsame := h.dir k
    rwa [hkeys hk, show (w.withTexts texts).key k = k from hkeys hk] at hsame
  have hkey := (hin key hextra.mem_keys).within
  refine ⟨?_, fun k hk hne => ?_, fun k hk hne hlisted => ?_⟩
  · -- The text is what the file says with the further texts.
    by_cases hgone : key ∈ w.deletions.keys
    · exact .inl hgone
    · have hsame := h.content key
      rw [content_fst, content_fst, hkeys hkey, show (w.withTexts texts).key key = key from hkeys hkey]
        at hsame
      have hexists := (fileExists_withTexts_iff (d := d) hsub).mpr (.inr ⟨hgone, hextra.mem_keys⟩)
      have htexts : (w.withTexts texts).texts = texts := rfl
      rw [← hsame, textOf, hexists, htexts, hextra.1]
      exact .inr rfl
  · -- The directories above the text are shown.
    have hunder := mem_upwards.mp hk
    by_cases hgone : k ∈ w.deletions.keys
    · exact .inl hgone
    · rw [← hdir (hkey.of_isUnder hunder)]
      exact .inr ((dirExists_withTexts_iff hsub).mpr
        (.inr ⟨hgone, key, hextra.mem_keys, hne.symm, hunder⟩))
  · -- What is on the way to the text is a member.
    have hinside := (hkey.of_isUnder (mem_upwards.mp hk)).inside hne
    rw [isListed, ← hfile hinside.within, ← hdir hinside.within] at hlisted
    rw [← h.list, list, show (w.withTexts texts).key (parent k) = parent k from
      hkeys hinside.within_parent]
    exact List.mem_filter.mpr ⟨(mem_members_withTexts_iff hsub hin).mpr
      (.inr ⟨key, hextra.mem_keys, hk, hne, rfl⟩), hlisted⟩

/-- A workspace with more texts gives the same answers exactly if the
view shows each of these without its being kept. -/
theorem sameAnswers_iff (hsub : ∀ k ∈ w.texts.keys, k ∈ texts.keys)
    (hin : ∀ k ∈ texts.keys, Inside k) :
    SameAnswers w (w.withTexts texts) d ↔ w.AllTransparent d texts :=
  ⟨fun h _ _ hextra => transparent_of_sameAnswers hsub hin h hextra,
    sameAnswers_of_transparent hsub hin⟩

end ScriptRefactor.Workspace
