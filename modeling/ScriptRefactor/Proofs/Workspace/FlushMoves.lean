import ScriptRefactor.Proofs.Workspace.FileMoves

/-!
# `ScriptRefactor.Proofs.Workspace.FlushMoves`: a flush behind file calls

A flush should leave on disk what the view showed before it. Behind a
run of `content`, `save` and `moveFile` it does so for most files, and
`flush_files_iff` tells exactly for which.

The moves are carried out one after the other. Where the move to a key
comes before the move from it, the file that stood there is written
over, and the one that arrived is carried away. So nothing is left at
an *overtaken* key (`HasFiles.isSome_landing_iff`), unless a text is
written there, and a wrong file stands where a file from an overtaken
key was moved to (`HasFiles.landing_iff`).

A text is written unless the file is read as that text already. A file
that cannot be read counts as an empty one, so that an empty text is
not written over a binary file.
-/

set_option autoImplicit false

namespace ScriptRefactor.Workspace

open Text

/-- The file that the moves, carried out in order, bring to a key. -/
def landing (w : Workspace) (d : Disk) (key : String) : Option (List UInt8) :=
  (beforeMoves w.moves key).bind fun k => d.bytes? (w.place k)

/-- What the view shows at a key gets there: a text that is written
gets there unless it is empty and a binary file stands there; a file
gets there if neither its key nor its origin is overtaken. -/
def arrives (w : Workspace) (d : Disk) (key : String) : Bool :=
  if w.saves.contains key then
    w.texts.find? key ≠ some "" || !(w.landing d key).any Utf8.isBinary
  else !isOvertaken key w.moves && !isOvertaken (originOf w.moves key) w.moves

variable {d : Disk} {keys : List String} {w : Workspace}

namespace HasFiles

variable (h : HasFiles d keys w)
include h

/-- A text that is read is kept in the view, or stands in a file. -/
theorem shown_of_textOf {key text : String} (htext : w.textOf d key = .ok text) :
    (key ∈ w.saves.toList ∧ w.texts.find? key = some text) ∨
      (key ∉ w.saves.toList ∧ w.ReadsFrom d key text) := by
  by_cases hsaved : key ∈ w.saves.toList
  · rcases h.textOf_eq_ok htext with hkept | ⟨hnone, -⟩
    · exact .inl ⟨hsaved, hkept⟩
    · have := h.saved key hsaved
      rw [hnone] at this
      cases this
  · refine .inr ⟨hsaved, ?_⟩
    rcases h.textOf_eq_ok htext with hkept | ⟨-, hread⟩
    · exact h.read key text hkept hsaved
    · exact hread

/-- A file that exists and is not to be written was moved to its key,
or not moved away from there and is on disk. -/
theorem stands_of_fileExists {key : String} (hexists : w.fileExists d key = true)
    (hsaved : key ∉ w.saves.toList) :
    (∃ m ∈ w.moves, m.2 = key) ∨
      ((∀ m ∈ w.moves, m.1 ≠ key) ∧ (d.bytes? (w.place key)).isSome = true) := by
  rcases (h.fileExists_iff key).mp hexists with htext | hmoved
  · rw [Table.contains_eq_isSome] at htext
    obtain ⟨text, htext⟩ := Option.isSome_iff_exists.mp htext
    obtain ⟨hstands, hdecode⟩ := h.read key text htext hsaved
    by_cases htarget : ∃ m ∈ w.moves, m.2 = key
    · exact .inl htarget
    · have hself : originOf w.moves key = key :=
        originOf_eq_self fun m hm heq => htarget ⟨m, hm, heq⟩
      rw [hself] at hdecode
      obtain ⟨bytes, hbytes, -⟩ := Option.bind_eq_some_iff.mp hdecode
      exact .inr ⟨hstands.resolve_left htarget, by rw [hbytes]; rfl⟩
  · exact hmoved

/-- The files behind a flush: those that the moves bring, with the
texts written to them. -/
theorem bytes?_flush (hd : d.IsTree) (hapart : w.TellsApart keys)
    (hok : (w.flush d).report?.isSome = true) {key : String} (hkey : key ∈ keys) :
    (w.flush d).disk.bytes? (w.place key) =
      if key ∈ w.saves.toList then written (w.landing d key) (w.texts.find? key)
      else w.landing d key := by
  obtain ⟨d₁, d₂, d₃, hdirs, hdirMoves, hmoves, hsaves⟩ :=
    w.phases_eq_some (w.phases_of_report hok)
  -- No directory is created or moved, and nothing is deleted.
  rw [h.dirs] at hdirs
  rw [h.dirMoves] at hdirMoves
  rw [h.deletions] at hmoves
  cases hdirs
  cases hdirMoves
  obtain ⟨hd₃, hlanding⟩ :=
    bytes?_foldlM_movedOn hapart h.moveKeys h.injection hd h.files hmoves
  rw [bytes?_foldlM_savedOn hapart h.saveKeys hd₃ hsaves key hkey, hlanding key hkey]
  rfl

/-- A file stands at a key behind a flush if it existed in the view and
was not overtaken, or if its text was written. -/
theorem isSome_landing_iff {key : String} (hsaved : key ∉ w.saves.toList) :
    (w.landing d key).isSome = true ↔
      w.fileExists d key = true ∧ isOvertaken key w.moves = false := by
  by_cases htarget : ∃ m ∈ w.moves, m.2 = key
  · -- The target of a move exists, and gets a file unless it is overtaken.
    obtain ⟨m, hm, rfl⟩ := htarget
    have hexists : w.fileExists d m.2 = true :=
      (h.fileExists_iff m.2).mpr (.inr (.inl ⟨m, hm, rfl⟩))
    rw [hexists, landing]
    cases hover : isOvertaken m.2 w.moves with
    | true =>
        rw [beforeMoves_of_isOvertaken h.injection hover]
        simp
    | false =>
        obtain ⟨n, hn, hbefore⟩ := exists_beforeMoves_eq_fst h.injection hm hover
        rw [hbefore, Option.bind_some, h.files n hn]
        simp
  · -- Any other key exists if its file is on disk and stays there.
    have hnot : ∀ m ∈ w.moves, m.2 ≠ key := fun m hm heq => htarget ⟨m, hm, heq⟩
    have hexists : w.fileExists d key = true ↔
        (∀ m ∈ w.moves, m.1 ≠ key) ∧ (d.bytes? (w.place key)).isSome = true := by
      constructor
      · exact fun hexists => (h.stands_of_fileExists hexists hsaved).resolve_left htarget
      · exact fun hstands => (h.fileExists_iff key).mpr (.inr (.inr hstands))
    rw [hexists, isOvertaken_of_not_target hnot, landing, beforeMoves_of_not_target hnot,
      ← isMoveOrigin_eq_false_iff]
    show ((if w.isMoveOrigin key then none else some key).bind fun k =>
      d.bytes? (w.place k)).isSome = true ↔ _
    cases w.isMoveOrigin key <;> simp

end HasFiles

/-! ### Texts written over files -/

/-- A file that is read has a text or is binary. -/
theorem decodeText?_eq_none_iff (bytes : List UInt8) :
    Utf8.decodeText? bytes = none ↔ Utf8.isBinary bytes = true := by
  rw [Utf8.decodeText?]
  split <;> simp_all

/-- An empty file is not binary. -/
theorem ne_nil_of_isBinary {bytes : List UInt8} (h : Utf8.isBinary bytes = true) : bytes ≠ [] := by
  rintro rfl
  cases h

/-- A written text is in its file, unless an empty one was not written
over a binary file. -/
theorem savedBytes_holds_iff (before : Option (List UInt8)) (text : String) :
    (savedBytes before text = Disk.bytesOf text ∨
        Utf8.decodeText? (savedBytes before text) = some text) ↔
      text ≠ "" ∨ before.any Utf8.isBinary = false := by
  cases before with
  | none => simp [savedBytes]
  | some bytes =>
      rw [savedBytes, Option.any_some]
      split
      · rename_i hsame
        cases hread : Utf8.decodeText? bytes with
        | some read =>
            rw [hread, Option.getD_some] at hsame
            have hbinary : Utf8.isBinary bytes = false := by
              rw [← Bool.not_eq_true, ← decodeText?_eq_none_iff, hread]
              simp
            simp [hsame, hbinary]
        | none =>
            -- The file counts as empty, and so is the text.
            rw [hread, Option.getD_none] at hsame
            have hbinary := (decodeText?_eq_none_iff bytes).mp hread
            have hbytes : bytes ≠ Disk.bytesOf "" := ne_nil_of_isBinary hbinary
            simp [← hsame, hbinary, hbytes]
      · -- The text is written. An empty one over a binary file would not have been.
        rename_i hdiffers
        refine iff_of_true (.inl rfl) ?_
        by_contra hnone
        rw [not_or, not_not, Bool.not_eq_false] at hnone
        rw [(decodeText?_eq_none_iff bytes).mpr hnone.2, hnone.1] at hdiffers
        exact hdiffers rfl

/-! ### The flush -/

namespace HasFiles

variable (h : HasFiles d keys w)
include h

/-- A saved file is there behind the flush, and holds its text exactly
if that arrives. -/
theorem holdsText_saved_iff (hd : d.IsTree) (hapart : w.TellsApart keys)
    (hok : (w.flush d).report?.isSome = true) {key : String} (hkey : key ∈ keys)
    (hsaved : key ∈ w.saves.toList) :
    (w.flush d).disk.isFile (w.place key) = true ∧
      ∀ text, w.textOf d key = .ok text →
        ((w.flush d).disk.holdsText (w.place key) text = true ↔ w.arrives d key = true) := by
  have hbytes := h.bytes?_flush hd hapart hok hkey
  obtain ⟨text, htext⟩ := Option.isSome_iff_exists.mp (h.saved key hsaved)
  rw [if_pos hsaved, htext, written] at hbytes
  refine ⟨by rw [Disk.isFile, hbytes]; rfl, fun shown hshown => ?_⟩
  have hsame : shown = text := by
    rcases h.shown_of_textOf hshown with ⟨-, hkept⟩ | ⟨hnot, -⟩
    · exact Option.some.inj (hkept.symm.trans htext)
    · exact absurd hsaved hnot
  rw [hsame, Disk.holdsText_iff hbytes, savedBytes_holds_iff, arrives,
    if_pos ((KeySet.contains_iff _ _).mpr hsaved), htext]
  simp

/-- A file that is not saved is behind the flush the one that the moves
bring, and that is the one of the view exactly if it arrives. -/
theorem landing_iff {key : String} (hsaved : key ∉ w.saves.toList)
    (hexists : w.fileExists d key = true) :
    beforeMoves w.moves key = some (originOf w.moves key) ↔ w.arrives d key = true := by
  have hstands : (∃ m ∈ w.moves, m.2 = key) ∨ ∀ m ∈ w.moves, m.1 ≠ key :=
    (h.stands_of_fileExists hexists hsaved).imp_right And.left
  rw [beforeMoves_eq_some_originOf_iff h.injection hstands, arrives,
    if_neg fun hc => hsaved ((KeySet.contains_iff _ _).mp hc)]
  simp

/-- A file that is not saved holds the text that it had in the view, if
it arrives. -/
theorem holdsText_landing (hd : d.IsTree) (hapart : w.TellsApart keys)
    (hok : (w.flush d).report?.isSome = true) {key text : String} (hkey : key ∈ keys)
    (hsaved : key ∉ w.saves.toList) (htext : w.textOf d key = .ok text)
    (harrives : w.arrives d key = true) :
    (w.flush d).disk.holdsText (w.place key) text = true := by
  have hbytes := h.bytes?_flush hd hapart hok hkey
  rw [if_neg hsaved] at hbytes
  have hread : w.ReadsFrom d key text := by
    rcases h.shown_of_textOf htext with ⟨hmem, -⟩ | ⟨-, hread⟩
    · exact absurd hmem hsaved
    · exact hread
  -- A text is only given for a file that exists.
  have hexists : w.fileExists d key = true := by
    by_contra hnot
    rw [Bool.not_eq_true] at hnot
    rw [textOf, hnot] at htext
    cases htext
  obtain ⟨bytes, horigin, hdecode⟩ := Option.bind_eq_some_iff.mp hread.2
  rw [landing, (h.landing_iff hsaved hexists).mpr harrives, Option.bind_some, horigin] at hbytes
  exact (Disk.holdsText_iff hbytes text).mpr (.inr hdecode)

end HasFiles

/-- **A flush leaves what the view showed, but for what is overtaken.**
Take a run of reading, saving and moving files, and a flush that goes
through behind it. Then a file stands where one existed in the view,
unless it was overtaken and not saved. Its text is the one that it had
in the view if it `arrives`.

This is exact. A saved file holds its text only if it arrives. Any
other file is the one that the moves bring, and that is the file of
the view only if it arrives. -/
theorem flush_files_iff {d : Disk} (hd : d.IsTree) (root : String) (settings : Settings)
    (filter : PathFilter) (calls : List Call) (hcalls : ∀ c ∈ calls, c.isOfFiles = true)
    (path : String)
    (hnames : (ofFilter root settings filter).OneNameEach (path :: calls.flatMap Call.paths)) :
    let w := (ofFilter root settings filter).run d calls
    let key := w.key path
    let after := (w.flush d).disk
    (w.flush d).report?.isSome = true →
      (after.isFile (w.place key) = true ↔ w.fileExists d key = true ∧
        (w.saves.contains key = true ∨ isOvertaken key w.moves = false)) ∧
      (∀ text, (w.content d path).1 = .ok text → w.arrives d key = true →
        after.holdsText (w.place key) text = true) ∧
      (w.saves.contains key = true → ∀ text, (w.content d path).1 = .ok text →
        (after.holdsText (w.place key) text = true ↔ w.arrives d key = true)) ∧
      (w.saves.contains key = false → after.bytes? (w.place key) = w.landing d key ∧
        (w.fileExists d key = true →
          (beforeMoves w.moves key = some (originOf w.moves key) ↔ w.arrives d key = true))) := by
  intro w key after hok
  have hw : HasFiles d ((path :: calls.flatMap Call.paths).map (ofFilter root settings filter).key)
      w := by
    refine hasFiles_run (hasFiles_ofFilter ..) hnames hcalls fun c hc p hp => ?_
    exact List.mem_cons_of_mem path (List.mem_flatMap.mpr ⟨c, hc, hp⟩)
  have hroot : (ofFilter root settings filter).root = w.root := (root_run d _ calls).symm
  rw [key_congr hroot] at hw
  rw [OneNameEach, key_congr hroot, place_congr hroot] at hnames
  have hapart : w.TellsApart ((path :: calls.flatMap Call.paths).map w.key) :=
    tellsApart_of_leaves fun a ha b hb hleaves => (hnames a ha hleaves).2 b hb
  have hkey : key ∈ (path :: calls.flatMap Call.paths).map w.key :=
    List.mem_map_of_mem (List.mem_cons_self ..)
  rw [content_fst]
  by_cases hsaved : key ∈ w.saves.toList
  · -- A text is written to the file.
    have hcontains := (KeySet.contains_iff w.saves key).mpr hsaved
    obtain ⟨hfile, htext⟩ := hw.holdsText_saved_iff hd hapart hok hkey hsaved
    have hexists : w.fileExists d key = true :=
      (hw.fileExists_iff key).mpr (.inl (by rw [Table.contains_eq_isSome, hw.saved key hsaved]))
    refine ⟨iff_of_true hfile ⟨hexists, .inl hcontains⟩, fun text hshown => (htext text hshown).mpr,
      fun _ => htext, fun hnot => ?_⟩
    rw [hcontains] at hnot
    cases hnot
  · -- The file is the one that the moves bring.
    have hcontains : w.saves.contains key = false := by
      rwa [← Bool.not_eq_true, KeySet.contains_iff]
    have hbytes := hw.bytes?_flush hd hapart hok hkey
    rw [if_neg hsaved] at hbytes
    refine ⟨?_, fun text htext harrives =>
      hw.holdsText_landing hd hapart hok hkey hsaved htext harrives, fun hnot => ?_,
      fun _ => ⟨hbytes, hw.landing_iff hsaved⟩⟩
    · rw [Disk.isFile, hbytes, hw.isSome_landing_iff hsaved, hcontains]
      simp
    · rw [hcontains] at hnot
      cases hnot

/-- A project of two files. -/
def twoFiles : Disk :=
  ⟨[(["root"], .dir), (["root", "a"], .file (Disk.bytesOf "A\n")),
    (["root", "b"], .file (Disk.bytesOf "B\n"))]⟩

/-- One file moves on, and the other one takes its place. -/
def queue : List Call := [.moveFile "b" "c", .moveFile "a" "b", .content "b"]

/-- The file that takes the place holds its text there. -/
theorem flush_files_iff_queue :
    let w := (ofFilter "/root" Settings.default PathFilter.showAll).run twoFiles queue
    twoFiles.IsTree ∧ (w.flush twoFiles).report?.isSome = true ∧
      (w.flush twoFiles).disk.isFile (w.place (w.key "b")) = true ∧
      (w.flush twoFiles).disk.holdsText (w.place (w.key "b")) "A\n" = true := by
  have htree : twoFiles.IsTree := by decide
  have hok : (((ofFilter "/root" Settings.default PathFilter.showAll).run twoFiles queue).flush
      twoFiles).report?.isSome = true := by decide +kernel
  have hflush := flush_files_iff htree "/root" Settings.default PathFilter.showAll queue
    (by decide) "b" (by decide +kernel) hok
  exact ⟨htree, hok, hflush.1.mpr (by decide +kernel),
    hflush.2.1 "A\n" (by decide +kernel) (by decide +kernel)⟩

/-- A file moved through a third key to that of the other one, which
moves on meanwhile: its move is recorded first. -/
def chain : List Call := [.moveFile "a" "t", .moveFile "b" "c", .moveFile "t" "b"]

/-- The view shows both files, but the flush takes the one for the
other, and leaves none at `b`. -/
theorem flush_chain_loses_file :
    let w := (ofFilter "/root" Settings.default PathFilter.showAll).run twoFiles chain
    let after := (w.flush twoFiles).disk
    ((w.flush twoFiles).report?.isSome = true ∧ w.fileExists twoFiles (w.key "b") = true ∧
      (w.content twoFiles "b").1 = .ok "A\n" ∧ (w.content twoFiles "c").1 = .ok "B\n") ∧
      after.isFile (w.place (w.key "b")) = false ∧
      after.bytes? (w.place (w.key "c")) = some (Disk.bytesOf "A\n") := by
  decide +kernel

end ScriptRefactor.Workspace
