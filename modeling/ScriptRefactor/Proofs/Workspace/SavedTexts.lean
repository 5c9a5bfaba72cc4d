import ScriptRefactor.Proofs.Workspace.Deletions
import ScriptRefactor.Proofs.Workspace.Keys

/-!
# `ScriptRefactor.Proofs.Workspace.SavedTexts`: texts of the keys to be written

`save` puts a text under the key of the key of its path, and marks the
key itself to be written. Where the two differ, the marked key may be left
without a text (`Misplaces`). Every other call keeps the texts of the
marked keys (`savesKept_apply_iff`).

A flush passes over a marked key that has no text, as if it was not marked
(`flush_eraseSave`). For one that has a text it leaves a file with a saved
text (`exists_savedBytes`).
-/

set_option autoImplicit false

namespace ScriptRefactor.Workspace

open ScriptRefactor.Path

/-- All keys to be written have a text. -/
def SavesKept (w : Workspace) : Prop := ∀ k ∈ w.saves.toList, k ∈ w.texts.keys

instance (w : Workspace) : Decidable w.SavesKept :=
  inferInstanceAs (Decidable (∀ k ∈ w.saves.toList, _))

/-- The call marks a key that leads into the project from the root of the
file system, and puts its text under another one. -/
def Misplaces (w : Workspace) : Call → Prop
  | .save path _ => w.leadsInside (w.key path) = true ∧ w.key path ∉ w.texts.keys
  | _ => False

instance (w : Workspace) (c : Call) : Decidable (w.Misplaces c) :=
  match c with
  | .save .. => inferInstanceAs (Decidable (_ ∧ _))
  | .put .. | .mkdir .. | .delete .. | .moveFile .. | .moveDir .. | .content .. | .invalidate .. =>
      inferInstanceAs (Decidable False)

variable {w : Workspace} {d d' : Disk}

/-! ### One call -/

/-- A text that is saved keeps the texts of the marked keys, or is
misplaced. -/
theorem savesKept_save_iff (h : w.SavesKept) (path text : String) :
    (w.apply d (.save path text)).SavesKept ↔ ¬ w.Misplaces (.save path text) := by
  have htexts : ∀ k, k ∈ (w.apply d (.save path text)).texts.keys ↔
      k = w.key (w.key path) ∨ k ∈ w.texts.keys :=
    fun k => Table.mem_keys_insert w.texts (w.key (w.key path)) k _
  have hsaves : ∀ k, k ∈ (w.apply d (.save path text)).saves.toList ↔
      k = w.key path ∨ k ∈ w.saves.toList := KeySet.mem_insert w.saves (w.key path)
  rw [Misplaces, ← Bool.not_eq_false, ← w.key_key_iff, eq_comm]
  constructor
  · rintro hkept ⟨hne, hnone⟩
    exact ((htexts _).mp (hkept _ ((hsaves _).mpr (.inl rfl)))).elim hne hnone
  · intro hplaced k hk
    rw [htexts]
    rcases (hsaves k).mp hk with rfl | hk
    · by_contra hnone
      exact hplaced (not_or.mp hnone)
    · exact .inr (h k hk)

/-- A file move carries the text along with the mark. -/
theorem SavesKept.withMove (h : w.SavesKept) (origin target : String) :
    (w.withMove d origin target).SavesKept := by
  have htexts : ∀ k, k ∈ w.texts.keys → k ≠ origin →
      k ∈ (w.withMove d origin target).texts.keys := by
    intro k hk hne
    show k ∈ (w.movedTexts origin target).keys
    unfold movedTexts
    split
    · rw [Table.mem_keys_insert, Table.mem_keys_erase]
      exact .inr ⟨hk, hne⟩
    · exact hk
  have htarget : origin ∈ w.texts.keys → target ∈ (w.withMove d origin target).texts.keys := by
    intro horigin
    obtain ⟨text, htext⟩ := (Table.mem_keys_iff_find? _ _).mp horigin
    show target ∈ (w.movedTexts origin target).keys
    rw [movedTexts, htext, Table.mem_keys_insert]
    exact .inl rfl
  intro k hk
  have hmark : k ∈ (w.movedSaves origin target).toList := hk
  unfold movedSaves at hmark
  split at hmark
  · rename_i horigin
    rw [KeySet.contains_iff] at horigin
    rcases (KeySet.mem_insert _ _ _).mp hmark with rfl | hmark
    · exact htarget (h origin horigin)
    · obtain ⟨hmark, hne⟩ := (KeySet.mem_erase _ _ _).mp hmark
      exact htexts k (h k hmark) hne
  · -- The origin is not marked, so the key is another one.
    rename_i horigin
    refine htexts k (h k hmark) ?_
    rintro rfl
    exact horigin ((KeySet.contains_iff _ _).mpr hmark)

/-- Where all keys to be written have a text, they still do behind a call
exactly if it misplaces none. -/
theorem savesKept_apply_iff (h : w.SavesKept) (c : Call) :
    (w.apply d c).SavesKept ↔ ¬ w.Misplaces c := by
  cases c with
  | save path text => exact savesKept_save_iff h path text
  -- The other calls mark no key without its text.
  | put path text =>
      exact iff_of_true (fun k hk => (Table.mem_keys_insert _ _ _ _).mpr (.inr (h k hk))) id
  | mkdir path => exact iff_of_true h id
  | delete path mode =>
      obtain ⟨deletions, hdelete, -⟩ := w.delete_eq d path mode
      rw [apply, hdelete]
      refine iff_of_true (fun k hk => ?_) id
      obtain ⟨hk, hout⟩ := (KeySet.mem_filter _ _ _).mp hk
      exact (Table.mem_keys_filterKeys _ _ _).mpr ⟨h k hk, hout⟩
  | moveFile origin target =>
      refine iff_of_true ?_ id
      rcases apply_moveFile_cases d w origin target with ⟨-, happly⟩ | ⟨-, happly⟩
      · rw [happly]
        exact h.withMove _ _
      · rw [happly]
        exact h
  | moveDir origin target =>
      refine iff_of_true ?_ id
      rcases apply_moveDir_cases d w origin target with ⟨-, happly⟩ | ⟨-, happly⟩
      · rw [happly]
        intro k hk
        obtain ⟨j, hj, rfl⟩ := (KeySet.mem_map _ _ _).mp hk
        exact (Table.mem_keys_mapKeys _ _ _).mpr ⟨j, h j hj, rfl⟩
      · rw [happly]
        exact h
  | content path =>
      refine iff_of_true ?_ id
      rcases apply_content_cases d w path with ⟨text, -, happly⟩ | happly
      · rw [happly]
        exact fun k hk => (Table.mem_keys_insert _ _ _ _).mpr (.inr (h k hk))
      · rw [happly]
        exact h
  | invalidate path =>
      refine iff_of_true ?_ id
      rw [apply, invalidate]
      split
      · exact h
      · -- A marked key keeps its text.
        rename_i hunmarked
        intro k hk
        refine (Table.mem_keys_erase _ _ _).mpr ⟨h k hk, ?_⟩
        rintro rfl
        exact hunmarked ((KeySet.contains_iff _ _).mpr hk)

/-- A run of calls whose keys are their own keys keeps the texts of the
marked keys. -/
theorem savesKept_run (h : w.SavesKept) {calls : List Call}
    (hpaths : ∀ c ∈ calls, ∀ p ∈ c.paths, w.key (w.key p) = w.key p) :
    (w.run d calls).SavesKept := by
  refine run_induction_root (fun v hroot hv c hc => (savesKept_apply_iff hv c).mpr ?_) h
  cases c with
  | save path text =>
      rintro ⟨hleads, -⟩
      have hkey := hpaths _ hc path (by simp [Call.paths])
      rw [← key_congr hroot, v.key_key_iff, hleads] at hkey
      cases hkey
  | _ => exact id

/-! ### The flush -/

/-- The workspace with one key less to be written. -/
def eraseSave (w : Workspace) (key : String) : Workspace := { w with saves := w.saves.erase key }

/-- Steps that do nothing can be left out. -/
theorem foldlM_map_filter {α : Type} {step : α → Step} {p : α → Bool}
    (h : ∀ a, p a = false → step a = fun q => .ok q) (as : List α) (q : Progress) :
    ((as.filter p).map step).foldlM (fun q step => step q) q =
      (as.map step).foldlM (fun q step => step q) q := by
  induction as generalizing q with
  | nil => rfl
  | cons a as ih =>
      cases hp : p a with
      | true =>
          rw [List.filter_cons_of_pos hp, List.map_cons, List.map_cons, List.foldlM_cons,
            List.foldlM_cons]
          cases step a q with
          | ok q' => exact ih q'
          | error q' => rfl
      | false =>
          rw [List.filter_cons_of_neg (by simp [hp]), ih, List.map_cons, List.foldlM_cons, h a hp]
          rfl

/-- A flush passes over a marked key that has no text: it does what it
would do if the key was not marked. -/
theorem flush_eraseSave {key : String} (h : key ∉ w.texts.keys) (d : Disk) :
    SameFlush w (w.eraseSave key) d := by
  have hskip : ∀ k, decide (k ≠ key) = false → w.flushSave k = fun p => .ok p := by
    intro k hk
    have hkey : k = key := by simpa using hk
    have hnone : w.texts.find? k = none := (Table.find?_eq_none_iff _ _).mpr (hkey ▸ h)
    funext p
    rw [flushSave, hnone]
    rfl
  have hsteps : ∀ p, (w.eraseSave key).steps.foldlM (fun p step => step p) p =
      w.steps.foldlM (fun p step => step p) p := by
    intro p
    rw [steps, List.foldlM_append]
    conv_rhs => rw [steps, List.foldlM_append]
    exact bind_congr fun q => foldlM_map_filter hskip w.saves.toList q
  exact sameFlush_of_steps hsteps

/-- Behind all texts, there is a saved text in the file of a key that has
one: its own, or that of a key for the same file. -/
theorem exists_savedBytes {saves : List String} (h : saves.foldlM w.savedOn d = some d')
    {key : String} (hkey : key ∈ saves) (htext : key ∈ w.texts.keys) :
    ∃ k ∈ saves, w.place k = w.place key ∧ ∃ text before, w.texts.find? k = some text ∧
      d'.bytes? (w.place key) = some (savedBytes before text) := by
  induction saves using List.reverseRecOn generalizing d' with
  | nil => cases hkey
  | append_singleton saves last ih =>
      rw [List.foldlM_append] at h
      obtain ⟨d₁, hfirst, hlast⟩ := Option.bind_eq_some_iff.mp h
      rw [List.foldlM_cons] at hlast
      obtain ⟨d₂, hlast, hnil⟩ := Option.bind_eq_some_iff.mp hlast
      cases hnil
      have hbytes := bytes?_of_savedOn hlast (w.place key)
      by_cases hwritten : w.place key = w.place last ∧ ∃ text, w.texts.find? last = some text
      · -- The last text is written to the file.
        obtain ⟨hplace, text, hfind⟩ := hwritten
        rw [if_pos hplace, hfind] at hbytes
        exact ⟨last, by simp, hplace.symm, text, d₁.bytes? (w.place key), hfind, hbytes⟩
      · have hsame : d'.bytes? (w.place key) = d₁.bytes? (w.place key) := by
          rw [hbytes]
          split
          · rename_i hplace
            cases hfind : w.texts.find? last with
            | none => rfl
            | some text => exact absurd ⟨hplace, text, hfind⟩ hwritten
          · rfl
        have hne : key ≠ last := by
          rintro rfl
          exact hwritten ⟨rfl, (Table.mem_keys_iff_find? _ _).mp htext⟩
        have hbefore : key ∈ saves := by simpa [hne] using hkey
        obtain ⟨k, hk, hplace, hsaved⟩ := ih hfirst hbefore
        exact ⟨k, by simp [hk], hplace, by rwa [hsame]⟩

/-- Behind a flush that goes through, there is a saved text in the file of
a marked key that has one. -/
theorem exists_savedBytes_flush (hok : (w.flush d).report?.isSome = true) {key : String}
    (hkey : key ∈ w.saves.toList) (htext : key ∈ w.texts.keys) :
    ∃ k ∈ w.saves.toList, w.place k = w.place key ∧ ∃ text before,
      w.texts.find? k = some text ∧
      (w.flush d).disk.bytes? (w.place key) = some (savedBytes before text) := by
  obtain ⟨d₁, d₂, d₃, -, -, -, hsaves⟩ := w.phases_eq_some (w.phases_of_report hok)
  exact exists_savedBytes hsaves hkey htext

/-! ### Keys and runs -/

/-- **Keys are their own keys where they do not lead into the project from
the root of the file system, and a saved text is lost only where one
does.**

A key is its own key exactly if it does not lead into the project from
the root. Paths with one normal form have one key if they are plain, or
if they do not start at the root; and all paths with a normal form have
one key exactly if it does not start at the root.

In all states of a run every key to be written has a text if and only if
no call misplaces one. A flush leaves a saved text in the file of a key
that has a text, and passes over a key that has none as if it was not
marked. -/
theorem key_key_iff_and_saves_kept_iff (root : String) (settings : Settings) (filter : PathFilter)
    (d : Disk) (calls : List Call) :
    let new := ofFilter root settings filter
    let w := new.run d calls
    (∀ p, new.key (new.key p) = new.key p ↔ new.leadsInside (new.key p) = false) ∧
    (∀ p q, normalize p = normalize q → IsPlain p → IsPlain q →
      new.key p = new.key q ∧ new.key (new.key p) = new.key p) ∧
    (∀ s, (∀ p q, normalize p = normalize s → normalize q = normalize s →
      new.key p = new.key q) ↔ startsAtRoot s = false) ∧
    ((∀ before, before <+: calls → (new.run d before).SavesKept) ↔
      ∀ before c, before ++ [c] <+: calls → ¬ (new.run d before).Misplaces c) ∧
    ∀ k ∈ w.saves.toList,
      (k ∈ w.texts.keys → (w.flush d).report?.isSome = true →
        ∃ j ∈ w.saves.toList, w.place j = w.place k ∧ ∃ text before,
          w.texts.find? j = some text ∧
          (w.flush d).disk.bytes? (w.place k) = some (savedBytes before text)) ∧
      (k ∉ w.texts.keys → SameFlush w (w.eraseSave k) d) := by
  intro new w
  have hnew : new.SavesKept := fun k hk => by cases hk
  refine ⟨new.key_key_iff, fun p q hnormal hp hq => ?_, fun s => ⟨fun hall => ?_, fun hs => ?_⟩,
    forall_prefix_iff (P := SavesKept) (fun _ hv c => savesKept_apply_iff hv c) hnew calls,
    fun k hk => ⟨fun htext hok => exists_savedBytes_flush hok hk htext,
      fun hnone => flush_eraseSave hnone d⟩⟩
  · obtain ⟨hkey, hout⟩ := new.key_normalize_of_isPlain hp
    refine ⟨?_, (new.key_key_iff p).mpr hout⟩
    rw [hkey, hnormal, (new.key_normalize_of_isPlain hq).1]
  · by_contra hroot
    rw [Bool.not_eq_false] at hroot
    obtain ⟨p, q, hp, hq, hne⟩ := new.exists_other_key hroot
    exact hne (hall p q hp hq)
  · -- The first character of the normal form is that of all these paths.
    have hkey : ∀ p, normalize p = normalize s → new.key p = normalize s := by
      intro p hp
      rw [← isFromRoot_normalize, ← hp, isFromRoot_normalize] at hs
      exact (new.key_normalize_of_not_startsAtRoot hs).1.trans hp
    exact fun p q hp hq => (hkey p hp).trans (hkey q hq).symm

/-- A project without files. -/
def noFiles : Disk := ⟨[(["root"], .dir)]⟩

/-- A text saved by a full path with a dot in it. -/
def savedPlainly : List Call := [.save "/root/./a.js" "a\n", .mkdir "b", .delete "b" .quiet]

/-- It has the key of the path without the dot, and is written. -/
theorem key_key_iff_and_saves_kept_iff_plain :
    let new := ofFilter "/root" Settings.default PathFilter.showAll
    let w := new.run noFiles savedPlainly
    new.key "/root/./a.js" = new.key "/root//a.js" ∧ w.saves.toList = ["a.js"] ∧ w.SavesKept ∧
      ∃ before, (w.flush noFiles).disk.bytes? (w.place "a.js") =
        some (savedBytes before "a\n") := by
  intro new w
  have hkeys := key_key_iff_and_saves_kept_iff "/root" Settings.default PathFilter.showAll noFiles
    savedPlainly
  have hsaves : w.saves.toList = ["a.js"] := by decide +kernel
  have hcalls := (forall_concat_prefix_iff savedPlainly (P := fun before c =>
    ¬ (new.run noFiles before).Misplaces c)).mpr (by decide +kernel)
  have hkept : w.SavesKept := hkeys.2.2.2.1.mpr hcalls savedPlainly List.prefix_rfl
  obtain ⟨j, hj, -, text, before, htext, hbytes⟩ := (hkeys.2.2.2.2 "a.js" (by decide +kernel)).1
    (by decide +kernel) (by decide +kernel)
  have hja : j = "a.js" := by
    rw [hsaves] at hj
    exact List.mem_singleton.mp hj
  have hfind : w.texts.find? "a.js" = some "a\n" := by decide +kernel
  have hsame : text = "a\n" := by
    rw [hja, hfind] at htext
    exact (Option.some.inj htext).symm
  refine ⟨(hkeys.2.1 "/root/./a.js" "/root//a.js" (by decide +kernel) (by decide +kernel)
    (by decide +kernel)).1, hsaves, hkept, before, ?_⟩
  rw [← hsame]
  exact hbytes

/-- A text saved by a full path that leads into the project on a
detour. -/
def savedOnDetour : List Call := [.save "/x/../root/a.js" "a\n"]

/-- The path has the normal form of a file inside, but not its key, and
its key has another one. The text is put under the one and marked under
the other: the view shows it, but the flush does nothing and forgets
it. -/
theorem flush_savedOnDetour_loses_text :
    let new := ofFilter "/root" Settings.default PathFilter.showAll
    let w := new.run noFiles savedOnDetour
    let after := w.flush noFiles
    (new.key (new.key "/x/../root/a.js") ≠ new.key "/x/../root/a.js" ∧
      normalize "/x/../root/a.js" = normalize "/root/a.js" ∧
      new.key "/x/../root/a.js" ≠ new.key "/root/a.js") ∧
      (w.saves.toList = ["/root/a.js"] ∧ w.texts.keys = ["a.js"] ∧ ¬ w.SavesKept) ∧
      (w.content noFiles "a.js").1 = .ok "a\n" ∧
      after.report? = some [] ∧ after.disk = noFiles ∧
      after.disk.isFile (w.place "a.js") = false := by
  decide +kernel

end ScriptRefactor.Workspace
