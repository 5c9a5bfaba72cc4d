import ScriptRefactor.Proofs.Text.FoldedBreaks
import ScriptRefactor.Proofs.Workspace.FileMoves
import ScriptRefactor.Proofs.Workspace.FlushDirs
import ScriptRefactor.Proofs.Workspace.ReadRuns
import ScriptRefactor.Proofs.Workspace.SavedFiles

/-!
# `ScriptRefactor.Proofs.Workspace.FoldedTexts`: line breaks of the kept texts

A text comes to a workspace by a call that stages it, or by a read of a file,
and is folded on both ways. Every other call leaves the texts as they are,
some under other keys (`TextEdit.forall_entries_apply_iff`). So the kept texts
have line feeds alone for their breaks as long as no call brings a double
return (`textsFolded_apply_iff`).

A saved text is folded a second time when it is read back from its file.
This changes a text that still has a carriage return before a line feed
(`decodeText?_savedBytes_iff`).
-/

set_option autoImplicit false

namespace ScriptRefactor

/-! ### Values of tables -/

namespace Table

variable {α : Type} {t : Table α}

/-- A value that is looked up is kept. -/
theorem mem_entries_of_find? {k : String} {v : α} (h : t.find? k = some v) :
    (k, v) ∈ t.entries := by
  obtain ⟨e, he, rfl⟩ := Option.map_eq_some_iff.mp h
  have hkey : e.1 = k := by simpa using List.find?_some he
  exact hkey ▸ List.mem_of_find?_eq_some he

/-- A value behind an insertion is the new one or was there. -/
theorem mem_entries_of_insert {k : String} {v : α} {e : String × α}
    (h : e ∈ (t.insert k v).entries) : e = (k, v) ∨ e ∈ t.entries := by
  have hentries : ∀ es : List (String × α), e ∈ insertEntry k v es → e = (k, v) ∨ e ∈ es := by
    intro es hmem
    induction es with
    | nil => exact .inl (List.mem_singleton.mp hmem)
    | cons f es ih =>
        rw [insertEntry] at hmem
        split at hmem
        · exact List.mem_cons.mp hmem
        · split at hmem
          · exact (List.mem_cons.mp hmem).imp_right (List.mem_cons_of_mem f)
          · rcases List.mem_cons.mp hmem with rfl | hmem
            · exact .inr (List.mem_cons_self ..)
            · exact (ih hmem).imp_right (List.mem_cons_of_mem f)
  exact hentries t.entries h

/-- A value behind a change of the keys was there under some key. -/
theorem exists_of_mem_mapKeys {f : String → String} {e : String × α}
    (h : e ∈ (t.mapKeys f).entries) : ∃ k, (k, e.2) ∈ t.entries := by
  have hfold : ∀ (es : List (String × α)) (u : Table α),
      e ∈ (es.foldl (fun u e => u.insert (f e.1) e.2) u).entries →
        e ∈ u.entries ∨ ∃ k, (k, e.2) ∈ es := by
    intro es
    induction es with
    | nil => exact fun u hmem => .inl hmem
    | cons first es ih =>
        intro u hmem
        rcases ih _ hmem with hmem | ⟨k, hk⟩
        · rcases mem_entries_of_insert hmem with rfl | hmem
          · exact .inr ⟨first.1, List.mem_cons_self ..⟩
          · exact .inl hmem
        · exact .inr ⟨k, List.mem_cons_of_mem first hk⟩
  exact (hfold t.entries empty h).resolve_left List.not_mem_nil

end Table

namespace Workspace

open Text

/-! ### Texts that are kept -/

/-- All texts that are kept have line feeds alone for their breaks. -/
def TextsFolded (w : Workspace) : Prop := ∀ e ∈ w.texts.entries, ¬ HasReturnBreak e.2

/-- The bytes that a read takes from the disk: those of a file that has no
text yet, and is neither too large nor binary. -/
def loadedBytes? (w : Workspace) (d : Disk) (key : String) : Option (List UInt8) :=
  if w.fileExists d key && !w.texts.contains key then
    (w.shownBytes? d key).filter fun bytes =>
      bytes.length ≤ w.settings.maxFileSize && !Utf8.isBinary bytes
  else none

/-- The call brings a text in which two carriage returns stand before a line
feed: the one that it stages, or that of the file that it reads. -/
def BringsDoubleReturn (w : Workspace) (d : Disk) : Call → Prop
  | .put _ text | .save _ text => HasDoubleReturn text
  | .content path => (w.loadedBytes? d (w.key path)).any (fun bytes => [13, 13, 10] <:+: bytes)
  | _ => False

instance (w : Workspace) : Decidable w.TextsFolded :=
  inferInstanceAs (Decidable (∀ e ∈ w.texts.entries, _))

instance (w : Workspace) (d : Disk) (c : Call) : Decidable (w.BringsDoubleReturn d c) :=
  match c with
  | .put .. | .save .. => inferInstanceAs (Decidable (HasDoubleReturn _))
  | .content _ => inferInstanceAs (Decidable (_ = true))
  | .mkdir .. | .delete .. | .moveFile .. | .moveDir .. | .invalidate .. =>
      inferInstanceAs (Decidable False)

variable {w : Workspace} {d : Disk} {key text : String}

/-- A new workspace keeps no texts. -/
theorem textsFolded_ofFilter (root : String) (settings : Settings) (filter : PathFilter) :
    (ofFilter root settings filter).TextsFolded := fun e he => by cases he

/-- A file is read if it is neither too large nor binary. -/
theorem readAt_eq_ok_iff {p : Place} {bytes : List UInt8} (h : d.bytes? p = some bytes)
    (path : String) (limit : Nat) :
    readAt d p path limit = .ok text ↔
      bytes.length ≤ limit ∧ Utf8.decodeText? bytes = some text := by
  rw [readAt, h]
  simp only []
  split
  · rename_i hlarge
    exact iff_of_false (by simp) fun hboth => Nat.not_lt.mpr hboth.1 hlarge
  · rename_i hsmall
    cases Utf8.decodeText? bytes with
    | none => exact iff_of_false (by simp) fun hboth => by cases hboth.2
    | some read => simp [Nat.not_lt.mp hsmall]

/-- The view shows a text that is kept, or one that a read takes from the
disk. -/
theorem textOf_eq_ok_cases (h : w.textOf d key = .ok text) :
    (key, text) ∈ w.texts.entries ∨
      ∃ bytes, w.loadedBytes? d key = some bytes ∧ Utf8.decodeText? bytes = some text := by
  unfold textOf at h
  split at h
  · cases h
  · rename_i hexists
    rw [Bool.not_eq_true, Bool.not_eq_false'] at hexists
    split at h
    · rename_i kept hkept
      cases h
      exact .inl (Table.mem_entries_of_find? hkept)
    · rename_i hnone
      split at h
      · rename_i k hk
        obtain ⟨bytes, hbytes, hread⟩ := Option.bind_eq_some_iff.mp (decodeText?_of_readAt h)
        have hsize := ((readAt_eq_ok_iff hbytes _ _).mp h).1
        have hnot : Utf8.isBinary bytes = false := by
          rw [← Bool.not_eq_true, ← decodeText?_eq_none_iff, hread]
          simp
        refine .inr ⟨bytes, ?_, hread⟩
        rw [loadedBytes?, hexists, Table.contains_eq_isSome, hnone, shownBytes?, hk]
        simp [hbytes, hsize, hnot]
      · cases h

/-- What a read takes from the disk, it shows. -/
theorem textOf_of_loadedBytes? {bytes : List UInt8} (h : w.loadedBytes? d key = some bytes) :
    ∃ text, Utf8.decodeText? bytes = some text ∧ w.textOf d key = .ok text := by
  unfold loadedBytes? at h
  split at h
  · rename_i hkey
    rw [Bool.and_eq_true, Bool.not_eq_true', Table.contains_eq_isSome, Option.isSome_eq_false_iff,
      Option.isNone_iff_eq_none] at hkey
    obtain ⟨hshown, hread⟩ := Option.filter_eq_some_iff.mp h
    rw [Bool.and_eq_true, decide_eq_true_eq, Bool.not_eq_true'] at hread
    obtain ⟨k, hk, hbytes⟩ := Option.bind_eq_some_iff.mp hshown
    obtain ⟨text, htext⟩ : ∃ text, Utf8.decodeText? bytes = some text := by
      rw [Utf8.decodeText?, if_neg (by simp [hread.2])]
      exact ⟨_, rfl⟩
    refine ⟨text, htext, ?_⟩
    rw [textOf, hkey.1, hkey.2, hk]
    exact (readAt_eq_ok_iff hbytes _ _).mpr ⟨hread.1, htext⟩
  · cases h

/-! ### One call -/

/-- An edit of texts that all have a property keeps it exactly if a text
that is put under a key has it. -/
theorem TextEdit.forall_entries_apply_iff {P : String → Prop} {texts : Table String}
    (h : ∀ e ∈ texts.entries, P e.2) (edit : TextEdit) :
    (∀ e ∈ (edit.apply texts).entries, P e.2) ↔ ∀ key text, edit = .insert key text → P text := by
  cases edit with
  | keep => exact iff_of_true h (by simp)
  | insert key text =>
      constructor
      · rintro hall _ _ ⟨⟩
        exact hall (key, text)
          (Table.mem_entries_of_find? ((Table.find?_insert ..).trans (if_pos rfl)))
      · intro htext e he
        rcases Table.mem_entries_of_insert he with rfl | he
        · exact htext key text rfl
        · exact h e he
  | filter p => exact iff_of_true (fun e he => h e (List.mem_of_mem_filter he)) (by simp)
  | move origin target =>
      refine iff_of_true (fun e he => ?_) (by simp)
      rw [TextEdit.apply] at he
      split at he
      · -- The moved text is the one of the origin.
        rename_i text htext
        rcases Table.mem_entries_of_insert he with rfl | he
        · exact h (origin, text) (Table.mem_entries_of_find? htext)
        · exact h e (List.mem_of_mem_filter he)
      · exact h e he
  | carry origin target =>
      refine iff_of_true (fun e he => ?_) (by simp)
      obtain ⟨k, hk⟩ := Table.exists_of_mem_mapKeys he
      exact h (k, e.2) hk

/-- Texts with line feeds alone for their breaks stay so behind a call
exactly if it brings no double return. -/
theorem textsFolded_apply_iff (h : w.TextsFolded) (c : Call) :
    (w.apply d c).TextsFolded ↔ ¬ w.BringsDoubleReturn d c := by
  rw [TextsFolded, texts_apply,
    TextEdit.forall_entries_apply_iff (P := fun text => ¬ HasReturnBreak text) h]
  cases c with
  | put path text =>
      rw [BringsDoubleReturn, ← Utf8.hasReturnBreak_foldLineBreaks_iff]
      exact ⟨fun hall => hall _ _ rfl, by rintro hfolded _ _ ⟨⟩; exact hfolded⟩
  | save path text =>
      rw [BringsDoubleReturn, ← Utf8.hasReturnBreak_foldLineBreaks_iff]
      exact ⟨fun hall => hall _ _ rfl, by rintro hfolded _ _ ⟨⟩; exact hfolded⟩
  | mkdir path => exact iff_of_true (by simp [textEdit]) id
  | delete path mode => exact iff_of_true (by simp [textEdit]) id
  | moveFile origin target =>
      refine iff_of_true (fun key text hedit => ?_) id
      rw [textEdit] at hedit
      split at hedit <;> cases hedit
  | moveDir origin target =>
      refine iff_of_true (fun key text hedit => ?_) id
      rw [textEdit] at hedit
      split at hedit <;> cases hedit
  | content path =>
      rw [textEdit, BringsDoubleReturn]
      cases hloaded : w.loadedBytes? d (w.key path) with
      | some bytes =>
          obtain ⟨text, hread, htext⟩ := textOf_of_loadedBytes? hloaded
          rw [htext, Option.any_some, decide_eq_true_eq, ← Utf8.hasReturnBreak_of_decodeText? hread]
          exact ⟨fun hall => hall _ _ rfl, by rintro hfolded _ _ ⟨⟩; exact hfolded⟩
      | none =>
          -- Without bytes from the disk, what is shown is kept already.
          refine iff_of_true (fun key text hedit => ?_) Bool.false_ne_true
          split at hedit
          · rename_i read htext
            cases hedit
            rcases textOf_eq_ok_cases htext with hkept | ⟨bytes, hbytes, -⟩
            · exact h _ hkept
            · rw [hloaded] at hbytes
              cases hbytes
          · cases hedit
  | invalidate path =>
      refine iff_of_true (fun key text hedit => ?_) id
      rw [textEdit] at hedit
      split at hedit <;> cases hedit

/-- A text that is kept is shown, unless its key is to be deleted. -/
theorem textOf_of_kept (htext : w.texts.find? key = some text) (hkept : key ∉ w.deletions.keys) :
    w.textOf d key = .ok text := by
  have hexists : w.fileExists d key = true := fileExists_eq_true_iff.mpr ⟨hkept, .inl <|
    List.mem_append_left _ ((Table.mem_keys_iff_find? _ _).mpr ⟨text, htext⟩)⟩
  rw [textOf, hexists, htext]
  rfl

/-- A text staged under a key is shown as it was folded. -/
theorem textOf_putKey (w : Workspace) (d : Disk) (key text : String) :
    (w.putKey key text).textOf d key = .ok (Utf8.foldLineBreaks text) := by
  refine textOf_of_kept ?_ fun hdeleted => ((Table.mem_keys_erase _ _ _).mp hdeleted).2 rfl
  exact (Table.find?_insert ..).trans (if_pos rfl)

/-! ### Saved, written and read again -/

/-- A text without the zero character is no binary file: a zero byte is read
as this character wherever it stands. -/
theorem isBinary_bytesOf (h : '\x00' ∉ text.toList) :
    Utf8.isBinary (Disk.bytesOf text) = false := by
  rw [Utf8.isBinary, List.any_eq_false]
  intro b hb hzero
  obtain rfl := beq_iff_eq.mp hzero
  obtain ⟨before, more, hbytes⟩ := List.append_of_mem (List.mem_of_mem_take hb)
  have hsteps := Utf8.steps_flatMap_utf8EncodeChar text.toList
  rw [Disk.bytesOf] at hbytes
  rw [hbytes, Utf8.steps_append_ascii (by decide) before more (Nat.zero_le _)] at hsteps
  have hmem : some '\x00' ∈ text.toList.map some := hsteps ▸ by simp
  obtain ⟨c, hc, hsome⟩ := List.mem_map.mp hmem
  exact h (Option.some_inj.mp hsome ▸ hc)

/-- A text is read back from the file that was written for it, or left
because it says the text: what is written is folded once more. -/
theorem decodeText?_savedBytes_iff (hzero : '\x00' ∉ text.toList) (before : Option (List UInt8)) :
    Utf8.decodeText? (savedBytes before text) = some text ↔
      before.bind Utf8.decodeText? = some text ∨
        (¬ HasReturnBreak text ∧ (text ≠ "" ∨ before.any Utf8.isBinary = false)) := by
  have hwritten : Utf8.decodeText? (Disk.bytesOf text) = some text ↔ ¬ HasReturnBreak text := by
    rw [← Utf8.foldLineBreaks_eq_self_iff, Disk.bytesOf, Utf8.decodeText?_flatMap_utf8EncodeChar,
      if_neg (by simpa [Disk.bytesOf] using isBinary_bytesOf hzero), Option.some_inj,
      String.ofList_toList]
  cases before with
  | none => simpa [savedBytes] using hwritten
  | some bytes =>
      rw [savedBytes, Option.bind_some, Option.any_some]
      cases hread : Utf8.decodeText? bytes with
      | none =>
          -- A binary file counts as empty, and stays for an empty text.
          have hbinary := (decodeText?_eq_none_iff bytes).mp hread
          rw [Option.getD_none]
          split
          · rename_i hempty
            simp [hread, hbinary, ← hempty]
          · rename_i htext
            simp [hwritten, Ne.symm htext]
      | some read =>
          have hnot : Utf8.isBinary bytes = false := by
            rw [← Bool.not_eq_true, ← decodeText?_eq_none_iff, hread]
            simp
          rw [Option.getD_some]
          split
          · rename_i hsame
            simp [hread, hsame]
          · rename_i hdiffers
            simp [hwritten, hdiffers, hnot]

/-- What is read at a key behind a flush that goes through. -/
theorem content_flush_eq (hok : (w.flush d).report?.isSome = true) {path : String}
    {bytes : List UInt8} (hbytes : (w.flush d).disk.bytes? (w.place (w.key path)) = some bytes) :
    ((w.flush d).workspace.content (w.flush d).disk path).1 = .ok text ↔
      bytes.length ≤ w.settings.maxFileSize ∧ Utf8.decodeText? bytes = some text := by
  have hkeys : w.reset.key = w.key := key_congr rfl
  rw [workspace_flush hok, content_fst, hkeys]
  rw [← w.shownBytes?_reset] at hbytes
  have hreset : OnlyDirs w.reset := onlyDirs_ofFilter _ _ _
  obtain ⟨k, hk, htext⟩ := hreset.textOf_of_shownBytes? hbytes
  rw [htext]
  exact readAt_eq_ok_iff hk _ _

/-- **A line feed behind two carriage returns keeps one of them, and no other
line feed keeps any.** Folding a text leaves a carriage return before a line
feed exactly if two of them stood there; only then the folded text can be
folded again. So it is with the bytes of a file that is read, and with a text
that is staged, which is then shown as it was folded.

Take any workspace whose texts have line feeds alone for their breaks. They do
so in all states of a run exactly if no call stages a text with a double
return, or reads a file with one.

Behind a flush that goes through, a saved text without zero characters is read
back as it was exactly if its file is not too large, and the flush found this
text in the file already, or else the text has no carriage return before a line
feed and is not an empty one saved over a binary file. -/
theorem kept_texts_folded_iff (w : Workspace) (d : Disk) :
    (∀ text, (HasReturnBreak (Utf8.foldLineBreaks text) ↔ HasDoubleReturn text) ∧
      (Utf8.foldLineBreaks (Utf8.foldLineBreaks text) = Utf8.foldLineBreaks text ↔
        ¬ HasDoubleReturn text)) ∧
    (∀ bytes text, Utf8.decodeText? bytes = some text →
      (HasReturnBreak text ↔ [13, 13, 10] <:+: bytes)) ∧
    (∀ path text, ((w.put path text).content d path).1 = .ok (Utf8.foldLineBreaks text) ∧
      (w.leadsInside (w.key path) = false →
        ((w.save path text).content d path).1 = .ok (Utf8.foldLineBreaks text))) ∧
    (w.TextsFolded → ∀ calls, (∀ before, before <+: calls → (w.run d before).TextsFolded) ↔
      ∀ before c, before ++ [c] <+: calls → ¬ (w.run d before).BringsDoubleReturn d c) ∧
    ((w.flush d).report?.isSome = true → ∀ path text, w.key path ∈ w.saves.toList →
      w.IsWrittenLast (w.key path) → w.texts.find? (w.key path) = some text →
      '\x00' ∉ text.toList →
      (((w.flush d).workspace.content (w.flush d).disk path).1 = .ok text ↔
        (savedBytes (w.writtenOver d (w.key path)) text).length ≤ w.settings.maxFileSize ∧
          ((w.writtenOver d (w.key path)).bind Utf8.decodeText? = some text ∨
            (¬ HasReturnBreak text ∧
              (text ≠ "" ∨ (w.writtenOver d (w.key path)).any Utf8.isBinary = false))))) := by
  refine ⟨fun text => ⟨Utf8.hasReturnBreak_foldLineBreaks_iff text, ?_⟩,
    fun bytes text => Utf8.hasReturnBreak_of_decodeText?, fun path text => ⟨?_, fun hkey => ?_⟩,
    fun hfolded calls => ?_, fun hok path text hkey hlast htext hzero => ?_⟩
  · rw [Utf8.foldLineBreaks_eq_self_iff, Utf8.hasReturnBreak_foldLineBreaks_iff]
  · rw [content_fst]
    exact w.textOf_putKey d (w.key path) text
  · -- The text is under the key of the key, which is the key.
    rw [← key_key_iff] at hkey
    rw [content_fst, save, put, hkey]
    exact textOf_of_kept ((Table.find?_insert ..).trans (if_pos rfl))
      fun hdeleted => ((Table.mem_keys_erase _ _ _).mp hdeleted).2 rfl
  · exact forall_prefix_iff (P := TextsFolded) (fun v hv c => textsFolded_apply_iff hv c) hfolded
      calls
  · rw [content_flush_eq hok (bytes?_flush_of_isWrittenLast hok hkey hlast htext),
      decodeText?_savedBytes_iff hzero]

/-- A text with both line breaks is saved over one file, and another file is
read and saved as it is. -/
def savedWithBreaks : List Call :=
  [.save "b.bin" "one\r\ntwo\n\r", .content "a.js", .save "a.js" "A\r\n"]

/-- No call brings a double return, and both texts are read back as they
were kept. -/
theorem kept_texts_folded_iff_savedWithBreaks :
    let new := ofFilter "/root" Settings.default PathFilter.showAll
    let w := new.run textAndBinary savedWithBreaks
    let after := w.flush textAndBinary
    w.TextsFolded ∧ after.report?.isSome = true ∧
      (after.workspace.content after.disk "b.bin").1 = .ok "one\ntwo\n\r" ∧
      (after.workspace.content after.disk "a.js").1 = .ok "A\n" := by
  intro new w after
  have hruns := (kept_texts_folded_iff new textAndBinary).2.2.2.1
    (textsFolded_ofFilter "/root" Settings.default PathFilter.showAll) savedWithBreaks
  have hfolded := hruns.mpr (by
    rw [forall_concat_prefix_iff]
    decide +kernel) savedWithBreaks (List.prefix_refl _)
  have hok : after.report?.isSome = true := by decide +kernel
  have hread := (kept_texts_folded_iff w textAndBinary).2.2.2.2 hok
  exact ⟨hfolded, hok,
    (hread "b.bin" "one\ntwo\n\r" (by decide +kernel) (by decide +kernel) (by decide +kernel)
      (by decide +kernel)).mpr (by decide +kernel),
    (hread "a.js" "A\n" (by decide +kernel) (by decide +kernel) (by decide +kernel)
      (by decide +kernel)).mpr (by decide +kernel)⟩

/-- A text with a double return: its kept text has a carriage return before the
line feed, is folded further the next time, and so it is when the file is read
again. -/
theorem double_return_folded_twice :
    let text := "a\r\r\nb"
    let w := (ofFilter "/root" Settings.default PathFilter.showAll).run textAndBinary
      [.save "x.js" text]
    let after := w.flush textAndBinary
    Utf8.foldLineBreaks text = "a\r\nb" ∧ HasReturnBreak (Utf8.foldLineBreaks text) ∧
      Utf8.foldLineBreaks (Utf8.foldLineBreaks text) = "a\nb" ∧
      Utf8.decodeText? (Disk.bytesOf text) = some "a\r\nb" ∧
      (w.content textAndBinary "x.js").1.toOption = some "a\r\nb" ∧
      after.report?.isSome = true ∧
      (after.workspace.content after.disk "x.js").1.toOption = some "a\nb" := by
  decide +kernel

end Workspace

end ScriptRefactor
