import Mathlib.Data.List.TakeWhile
import ScriptRefactor.Proofs.Workspace.FlushMoves
import ScriptRefactor.Proofs.Workspace.MovedView
import ScriptRefactor.Proofs.Workspace.SavedTexts

/-!
# `ScriptRefactor.Proofs.Workspace.SavedFiles`: saved texts that reach their files

A flush writes the texts last, one key after the other. So behind a flush
that goes through, whatever it did before, the file of a key holds its text
(`holdsText_flush_iff`), with two exceptions:

* an empty text is not written over a binary file, which counts as an empty
  one where the flush looks whether a file says its text already;
* of keys that lead to one file, only the last one leaves its text there
  (`IsWrittenLast`). Keys inside the project lead to files of their own.
-/

set_option autoImplicit false

namespace ScriptRefactor.Workspace

open Text

/-! ### The keys ahead of a key and behind it -/

/-- The workspace with only those keys to be written that come before a
key. -/
def savesAhead (w : Workspace) (key : String) : Workspace :=
  { w with saves := ⟨w.saves.toList.takeWhile (· ≠ key)⟩ }

/-- The keys to be written that come after a key. -/
def savesBehind (w : Workspace) (key : String) : List String :=
  (w.saves.toList.dropWhile (· ≠ key)).tail

/-- No key that is written after the key has the same file. -/
def IsWrittenLast (w : Workspace) (key : String) : Prop :=
  ∀ k ∈ w.savesBehind key, w.place k ≠ w.place key

/-- The file that a flush finds where it writes the text of a key. -/
def writtenOver (w : Workspace) (d : Disk) (key : String) : Option (List UInt8) :=
  ((w.savesAhead key).flush d).disk.bytes? (w.place key)

instance (w : Workspace) (key : String) : Decidable (w.IsWrittenLast key) :=
  inferInstanceAs (Decidable (∀ k ∈ w.savesBehind key, _))

variable {w : Workspace} {d d' : Disk} {key : String}

/-- A key to be written stands between those ahead of it and those behind
it. -/
theorem saves_eq_ahead_append (hkey : key ∈ w.saves.toList) :
    w.saves.toList = (w.savesAhead key).saves.toList ++ key :: w.savesBehind key := by
  rw [savesAhead, savesBehind]
  have hsplit := List.takeWhile_append_dropWhile (p := (· ≠ key)) (l := w.saves.toList)
  have hfirst := List.head?_dropWhile_not (· ≠ key) w.saves.toList
  cases hdrop : w.saves.toList.dropWhile (· ≠ key) with
  | nil =>
      have hothers := List.dropWhile_eq_nil_iff.mp hdrop key hkey
      simp at hothers
  | cons k keys =>
      rw [hdrop] at hsplit hfirst
      obtain rfl : k = key := by simpa using hfirst
      exact hsplit.symm

/-- Ordered keys inside the project are all written last: each of them has a
file of its own. -/
theorem isWrittenLast_of_inside (hordered : w.saves.toList.Pairwise (· < ·))
    (hinside : ∀ k ∈ w.saves.toList, Path.Inside k) (hkey : key ∈ w.saves.toList) :
    w.IsWrittenLast key := by
  have hsaves := saves_eq_ahead_append hkey
  intro k hk hplace
  have hmem : k ∈ w.saves.toList := by
    rw [hsaves]
    simp [hk]
  have hsame : k = key :=
    (w.place_inj (hinside k hmem).within (hinside key hkey).within).mp hplace
  rw [hsaves] at hordered
  have hless := (List.pairwise_cons.mp (List.pairwise_append.mp hordered).2.1).1 k hk
  exact String.lt_irrefl key (hsame ▸ hless)

/-! ### The file of one key -/

/-- Texts of other files change nothing at a place. -/
theorem bytes?_foldlM_savedOn_of_ne {saves : List String} {q : Place}
    (h : saves.foldlM w.savedOn d = some d') (hne : ∀ k ∈ saves, w.place k ≠ q) :
    d'.bytes? q = d.bytes? q := by
  induction saves generalizing d with
  | nil =>
      cases h
      rfl
  | cons k saves ih =>
      obtain ⟨hk, hne⟩ := List.forall_mem_cons.mp hne
      rw [List.foldlM_cons] at h
      obtain ⟨d₁, hfirst, hrest⟩ := Option.bind_eq_some_iff.mp h
      rw [ih hrest hne, bytes?_of_savedOn hfirst, if_neg (Ne.symm hk)]

/-- A flush does first what it would do with only the keys ahead of a key,
and then writes the text of the key and those behind it. -/
theorem flush_savesAhead (hok : (w.flush d).report?.isSome = true) (hkey : key ∈ w.saves.toList) :
    (key :: w.savesBehind key).foldlM w.savedOn ((w.savesAhead key).flush d).disk
      = some (w.flush d).disk := by
  obtain ⟨d₁, d₂, d₃, hdirs, hdirMoves, hmoves, hsaves⟩ :=
    w.phases_eq_some (w.phases_of_report hok)
  rw [saves_eq_ahead_append hkey, List.foldlM_append] at hsaves
  obtain ⟨d₄, hahead, hbehind⟩ := Option.bind_eq_some_iff.mp hsaves
  -- The other phases are the same.
  have hphases : (w.savesAhead key).phases d = some d₄ := by
    refine Option.bind_eq_some_iff.mpr ⟨d₁, hdirs, Option.bind_eq_some_iff.mpr ⟨d₂, hdirMoves, ?_⟩⟩
    exact Option.bind_eq_some_iff.mpr ⟨d₃, hmoves, hahead⟩
  rw [← flush_eq_phases] at hphases
  obtain ⟨report, -, hdisk⟩ := Option.map_eq_some_iff.mp hphases
  rw [hdisk]
  exact hbehind

/-- Behind a flush the file of the last key that has it is the one that its
text was written over. -/
theorem bytes?_flush_of_isWrittenLast (hok : (w.flush d).report?.isSome = true)
    (hkey : key ∈ w.saves.toList) (hlast : w.IsWrittenLast key) {text : String}
    (htext : w.texts.find? key = some text) :
    (w.flush d).disk.bytes? (w.place key) = some (savedBytes (w.writtenOver d key) text) := by
  have hflush := flush_savesAhead hok hkey
  rw [List.foldlM_cons] at hflush
  obtain ⟨d₁, hfirst, hrest⟩ := Option.bind_eq_some_iff.mp hflush
  rw [bytes?_foldlM_savedOn_of_ne hrest hlast, bytes?_of_savedOn hfirst, if_pos rfl, htext]
  rfl

/-- The file of the last key that has it holds its text, unless an empty one
was not written over a binary file. -/
theorem holdsText_flush_iff (hok : (w.flush d).report?.isSome = true)
    (hkey : key ∈ w.saves.toList) (hlast : w.IsWrittenLast key) {text : String}
    (htext : w.texts.find? key = some text) :
    (w.flush d).disk.holdsText (w.place key) text = true ↔
      text ≠ "" ∨ (w.writtenOver d key).any Utf8.isBinary = false := by
  rw [Disk.holdsText_iff (bytes?_flush_of_isWrittenLast hok hkey hlast htext),
    savedBytes_holds_iff]

/-! ### The texts of a run -/

/-- **A saved text reaches its file, unless it is empty and goes over a binary
file.** Take any workspace and a flush that goes through. Of the keys to be
written that lead to one file, the last one has its text in the file exactly
if the text is not empty or no binary file stood where it was written.

Behind a run with relative paths, over a disk that may have been another one,
every key to be written has a text; and if no path leads out of the project
or to its root, then every such key is the only one that leads to its file. -/
theorem flush_holds_saved_texts_iff (w : Workspace) (d : Disk)
    (hok : (w.flush d).report?.isSome = true) :
    (∀ key ∈ w.saves.toList, ∀ text, w.texts.find? key = some text → w.IsWrittenLast key →
      ((w.flush d).disk.holdsText (w.place key) text = true ↔
        text ≠ "" ∨ (w.writtenOver d key).any Utf8.isBinary = false)) ∧
    ∀ (e : Disk) (root : String) (settings : Settings) (filter : PathFilter) (calls : List Call),
      w = (ofFilter root settings filter).run e calls →
      (∀ c ∈ calls, ∀ p ∈ c.paths, Path.startsAtRoot p = false) →
      (∀ key ∈ w.saves.toList, ∃ text, w.texts.find? key = some text) ∧
      ((∀ c ∈ calls, ∀ p ∈ c.paths, w.key p ≠ "" ∧ Path.leaves (w.key p) = false) →
        ∀ key ∈ w.saves.toList, w.IsWrittenLast key) := by
  refine ⟨fun key hkey text htext hlast => holdsText_flush_iff hok hkey hlast htext, ?_⟩
  rintro e root settings filter calls rfl hrelative
  have hkept : ((ofFilter root settings filter).run e calls).SavesKept := by
    refine savesKept_run (fun k hk => by cases hk) fun c hc p hp => ?_
    obtain ⟨hkey, hself⟩ := key_normalize_of_not_startsAtRoot
      (ofFilter root settings filter) (hrelative c hc p hp)
    rw [hkey, hself]
  refine ⟨fun key hkey => (Table.mem_keys_iff_find? _ _).mp (hkept key hkey), fun hpaths => ?_⟩
  have hstaged : StagedInside ((ofFilter root settings filter).run e calls) :=
    stagedInside_run (stagedInside_ofFilter root settings filter) fun c hc p hp => by
      have hkey := hpaths c hc p hp
      rw [key_congr (root_run e _ calls)] at hkey
      exact inside_key hkey.1 hkey.2
  have hordered : IsOrdered ((ofFilter root settings filter).run e calls) :=
    (isOrdered_ofFilter root settings filter).run calls
  exact fun key => isWrittenLast_of_inside hordered.saves
    fun k hk => hstaged.texts k (hkept k hk)

/-- A text file, a binary file and an empty directory. -/
def textAndBinary : Disk :=
  ⟨[(["root"], .dir), (["root", "a.js"], .file (Disk.bytesOf "A\n")),
    (["root", "b.bin"], .file [0, 255]), (["root", "d"], .dir)]⟩

/-- A changed file is moved into a directory that is deleted, and texts are
saved over the binary file and for a new file. -/
def savedOver : List Call :=
  [.save "a.js" "new\n", .delete "d" .quiet, .moveFile "a.js" "d/c.js", .save "b.bin" "text\n",
    .save "e.js" ""]

/-- All three texts reach their files. -/
theorem flush_holds_saved_texts_iff_savedOver :
    let w := (ofFilter "/root" Settings.default PathFilter.showAll).run textAndBinary savedOver
    let after := (w.flush textAndBinary).disk
    (w.flush textAndBinary).report?.isSome = true ∧ w.saves.toList = ["b.bin", "d/c.js", "e.js"] ∧
      after.holdsText (w.place "b.bin") "text\n" = true ∧
      after.holdsText (w.place "d/c.js") "new\n" = true ∧
      after.holdsText (w.place "e.js") "" = true := by
  intro w after
  have hok : (w.flush textAndBinary).report?.isSome = true := by decide +kernel
  obtain ⟨hholds, hruns⟩ := flush_holds_saved_texts_iff w textAndBinary hok
  obtain ⟨-, hlast⟩ := hruns textAndBinary "/root" Settings.default PathFilter.showAll savedOver rfl
    (by decide +kernel)
  have hsaves : w.saves.toList = ["b.bin", "d/c.js", "e.js"] := by decide +kernel
  have hwritten := hlast (by decide +kernel)
  have hb : "b.bin" ∈ w.saves.toList := by simp [hsaves]
  have hc : "d/c.js" ∈ w.saves.toList := by simp [hsaves]
  have he : "e.js" ∈ w.saves.toList := by simp [hsaves]
  exact ⟨hok, hsaves,
    (hholds _ hb "text\n" (by decide +kernel) (hwritten _ hb)).mpr (.inl (by decide)),
    (hholds _ hc "new\n" (by decide +kernel) (hwritten _ hc)).mpr (.inl (by decide)),
    (hholds _ he "" (by decide +kernel) (hwritten _ he)).mpr (.inr (by decide +kernel))⟩

/-- The empty text saved over the binary file is not written: the flush goes
through, and the file is what it was. -/
theorem flush_empty_over_binary_loses_text :
    let w := (ofFilter "/root" Settings.default PathFilter.showAll).run textAndBinary
      [.save "b.bin" ""]
    let after := (w.flush textAndBinary).disk
    (w.flush textAndBinary).report? = some [] ∧
      w.saves.toList = ["b.bin"] ∧ w.texts.find? "b.bin" = some "" ∧
      after.bytes? (w.place "b.bin") = some [0, 255] ∧
      after.holdsText (w.place "b.bin") "" = false := by
  decide +kernel

/-- Two texts are saved for one file, the first under a path that leads out of
the project and back: the second is left. -/
theorem flush_saved_under_two_names :
    let w := (ofFilter "/root" Settings.default PathFilter.showAll).run textAndBinary
      [.save "../root/x.js" "one\n", .save "x.js" "two\n"]
    let after := (w.flush textAndBinary).disk
    (w.flush textAndBinary).report?.isSome = true ∧
      w.saves.toList = ["../root/x.js", "x.js"] ∧ ¬ w.IsWrittenLast "../root/x.js" ∧
      w.place "../root/x.js" = w.place "x.js" ∧
      after.holdsText (w.place "../root/x.js") "one\n" = false ∧
      after.holdsText (w.place "x.js") "two\n" = true := by
  decide +kernel

end ScriptRefactor.Workspace
