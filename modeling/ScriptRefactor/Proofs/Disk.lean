import Mathlib.Data.List.Find
import Mathlib.Data.List.Infix
import ScriptRefactor.Disk

/-!
# `ScriptRefactor.Proofs.Disk`: what the places hold after a change

Each operation of `Disk` is described by one equation for `find?`:

* `find?_makeDirs`: the places on the way to the new directory hold a
  directory;
* `find?_write`: the place of the file holds its bytes;
* `find?_remove`: the place and all below it hold nothing;
* `find?_rename`: the target and what is below it hold what the
  origin and what is below it held.

All other places are left as they are. A disk on which every occupied
place stands in a directory is a tree (`IsTree`). It stays one, and in
a tree a file has nothing below it, so that a renamed file is all that
moves (`bytes?_rename`).

A directory can be created if no file is on the way to it
(`exists_makeDirs`), and one can be moved to where nothing is, or only a
bare directory (`exists_rename_of_bare`).
-/

set_option autoImplicit false

namespace ScriptRefactor.Disk

variable {d d' : Disk} {p q : Place}

/-! ### Looking -/

/-- The top holds a directory. -/
@[simp]
theorem find?_nil (d : Disk) : d.find? [] = some .dir := if_pos rfl

/-- The top is a directory. -/
@[simp]
theorem isDir_nil (d : Disk) : d.isDir [] = true := by simp [isDir]

/-- A place below the top is looked up among the entries. -/
theorem find?_of_ne_nil (hp : p ≠ []) :
    d.find? p = (d.entries.find? fun e => e.1 = p).map Prod.snd := if_neg hp

/-- A directory is what is looked up. -/
theorem isDir_iff : d.isDir p = true ↔ d.find? p = some .dir := by simp [isDir]

/-- A file is what is looked up. -/
theorem bytes?_eq_some_iff {bytes : List UInt8} :
    d.bytes? p = some bytes ↔ d.find? p = some (.file bytes) := by
  unfold bytes?
  split <;> simp_all

/-- Where there is no file, there are no bytes. -/
theorem bytes?_eq_none_of_isDir (h : d.isDir p = true) : d.bytes? p = none := by
  rw [bytes?, isDir_iff.mp h]

/-- What is no file is a directory, or nothing. -/
theorem isFile_eq_false_iff : d.isFile p = false ↔ d.find? p = none ∨ d.find? p = some .dir := by
  unfold isFile bytes?
  cases d.find? p with
  | none => simp
  | some e => cases e <;> simp

/-- Two places that hold the same hold the same bytes. -/
theorem bytes?_congr (h : d.find? p = d'.find? q) : d.bytes? p = d'.bytes? q := by
  rw [bytes?, bytes?, h]

/-- A file and a directory are something. -/
theorem occupied_of_bytes? {bytes : List UInt8} (h : d.bytes? p = some bytes) :
    d.occupied p = true := by
  rw [occupied, bytes?_eq_some_iff.mp h, Option.isSome_some]

/-- Where a file is, something is. -/
theorem occupied_of_isFile (h : d.isFile p = true) : d.occupied p = true := by
  obtain ⟨bytes, hbytes⟩ := Option.isSome_iff_exists.mp h
  exact occupied_of_bytes? hbytes

/-- Where a directory is, something is. -/
theorem occupied_of_isDir (h : d.isDir p = true) : d.occupied p = true := by
  rw [occupied, isDir_iff.mp h, Option.isSome_some]

/-- A place below the top is occupied if an entry is for it. -/
theorem occupied_iff_mem (hp : p ≠ []) : d.occupied p = true ↔ ∃ e ∈ d.entries, e.1 = p := by
  rw [occupied, find?_of_ne_nil hp, Option.isSome_map, List.isSome_find?, List.any_eq_true]
  simp only [decide_eq_true_eq]

/-- Nothing is no file. -/
theorem bytes?_eq_none_of_not_occupied (h : d.occupied p = false) : d.bytes? p = none := by
  rw [occupied, Option.isSome_eq_false_iff, Option.isNone_iff_eq_none] at h
  rw [bytes?, h]

/-- A place is below another one when its way goes on from there. -/
theorem isUnder_iff {p dir : Place} : p.isUnder dir = true ↔ dir <+: p :=
  List.isPrefixOf_iff_prefix

/-- The file at a place holds a text: its bytes are those of the text,
or they are read as the text. -/
def holdsText (d : Disk) (p : Place) (text : String) : Bool :=
  match d.bytes? p with
  | some bytes => bytes = bytesOf text || Text.Utf8.decodeText? bytes = some text
  | none => false

/-- The text of a file, by its bytes. -/
theorem holdsText_iff {bytes : List UInt8} (h : d.bytes? p = some bytes) (text : String) :
    d.holdsText p text = true ↔
      bytes = bytesOf text ∨ Text.Utf8.decodeText? bytes = some text := by
  rw [holdsText, h]
  simp

/-- On the way to a place is what is above it. -/
theorem prefix_dropLast_iff (hq : q ≠ []) : p <+: q.dropLast ↔ p <+: q ∧ p ≠ q := by
  constructor
  · intro h
    refine ⟨h.trans (List.dropLast_prefix q), fun heq => ?_⟩
    have hlength := h.length_le
    have := List.length_pos_iff.mpr hq
    rw [heq, List.length_dropLast] at hlength
    omega
  · rintro ⟨hpre, hne⟩
    rw [← List.dropLast_append_getLast hq] at hpre hne
    exact (List.prefix_concat_iff.mp hpre).resolve_left hne

/-! ### Trees -/

/-- Every occupied place stands in a directory. -/
def IsTree (d : Disk) : Prop := ∀ e ∈ d.entries, d.isDir e.1.dropLast = true

instance (d : Disk) : Decidable d.IsTree :=
  inferInstanceAs (Decidable (∀ e ∈ d.entries, _))

/-- The tree property by looking. -/
theorem isTree_iff : d.IsTree ↔ ∀ p, d.occupied p = true → d.isDir p.dropLast = true := by
  constructor
  · intro h p hp
    by_cases hnil : p = []
    · rw [hnil]
      exact isDir_nil d
    · obtain ⟨e, he, rfl⟩ := (occupied_iff_mem hnil).mp hp
      exact h e he
  · intro h e he
    refine h e.1 ?_
    by_cases hnil : e.1 = []
    · rw [occupied, hnil, find?_nil]
      rfl
    · exact (occupied_iff_mem hnil).mpr ⟨e, he, rfl⟩

/-- Above an occupied place of a tree there are directories. -/
theorem IsTree.isDir_of_prefix (h : d.IsTree) (hp : p <+: q) (hne : p ≠ q)
    (hq : d.occupied q = true) : d.isDir p = true := by
  obtain ⟨rest, rfl⟩ := hp
  -- Up from the occupied place, one directory at a time.
  induction rest using List.reverseRecOn with
  | nil => exact absurd (List.append_nil p).symm hne
  | append_singleton rest name ih =>
      have hparent := isTree_iff.mp h _ hq
      rw [← List.append_assoc, List.dropLast_concat] at hparent
      by_cases hrest : rest = []
      · rwa [hrest, List.append_nil] at hparent
      · refine ih (by simpa using hrest) ?_
        rw [occupied, isDir_iff.mp hparent, Option.isSome_some]

/-- Above an occupied place of a tree, all places are occupied. -/
theorem IsTree.occupied_of_prefix (h : d.IsTree) (hp : p <+: q) (hq : d.occupied q = true) :
    d.occupied p = true := by
  by_cases hne : p = q
  · rwa [hne]
  · rw [occupied, isDir_iff.mp (h.isDir_of_prefix hp hne hq), Option.isSome_some]

/-- Below a place of a tree that is no directory there is nothing. -/
theorem IsTree.find?_eq_none (h : d.IsTree) (hdir : d.isDir p = false) (hp : p <+: q)
    (hne : p ≠ q) : d.find? q = none := by
  rw [← Option.not_isSome_iff_eq_none]
  intro hq
  rw [h.isDir_of_prefix hp hne hq] at hdir
  cases hdir

/-- A place that holds a file holds no directory. -/
theorem isDir_eq_false_of_bytes? {bytes : List UInt8} (h : d.bytes? p = some bytes) :
    d.isDir p = false := by
  rw [isDir, bytes?_eq_some_iff.mp h]
  rfl

/-- A file is no directory. -/
theorem isDir_eq_false_of_isFile (h : d.isFile p = true) : d.isDir p = false := by
  obtain ⟨bytes, hbytes⟩ := Option.isSome_iff_exists.mp h
  exact isDir_eq_false_of_bytes? hbytes

/-! ### Directories created -/

/-- What the places hold when one was given something. -/
theorem find?_put (hp : p ≠ []) (e : Entry) (q : Place) :
    (d.put p e).find? q = if q = p then some e else d.find? q := by
  by_cases hq : q = p
  · rw [if_pos hq, hq, find?_of_ne_nil hp]
    simp [put]
  · rw [if_neg hq]
    by_cases hnil : q = []
    · rw [hnil, find?_nil, find?_nil]
    · rw [find?_of_ne_nil hnil, find?_of_ne_nil hnil, put, List.find?_cons_of_neg]
      · rw [List.find?_filter]
        congr 2
        funext e
        by_cases he : e.1 = q <;> simp [he, hq]
      · simpa using Ne.symm hq

/-- What the places hold when one directory was created. -/
theorem find?_makeDir (h : d.makeDir p = some d') (q : Place) :
    d'.find? q = if q = p then some .dir else d.find? q := by
  unfold makeDir at h
  split at h
  · rename_i hdir
    cases h
    split
    · rename_i hq
      rw [hq, hdir]
    · rfl
  · cases h
  · rename_i hnone
    cases h
    refine find?_put ?_ _ q
    rintro rfl
    rw [find?_nil] at hnone
    cases hnone

/-- Creating a directory changes no file. -/
theorem bytes?_makeDir (h : d.makeDir p = some d') (q : Place) : d'.bytes? q = d.bytes? q := by
  have hfind := find?_makeDir h q
  by_cases hq : q = p
  · rw [if_pos hq] at hfind
    -- There is a directory now, so there was no file before.
    rw [bytes?_eq_none_of_isDir (isDir_iff.mpr hfind), hq]
    unfold makeDir at h
    unfold bytes?
    split at h <;> simp_all
  · rw [if_neg hq] at hfind
    exact bytes?_congr hfind

/-- The directories up to some length of the way created. -/
theorem makeDirs_take (n : Nat) :
    ∀ d', (List.range n).foldlM (fun d m => d.makeDir (p.take m)) d = some d' → ∀ q,
      (d'.find? q = if ∃ m < n, q = p.take m then some .dir else d.find? q) ∧
        d'.bytes? q = d.bytes? q := by
  induction n with
  | zero =>
      intro d' h q
      cases h
      simp
  | succ n ih =>
      intro d' h q
      rw [List.range_succ, List.foldlM_append] at h
      obtain ⟨d₁, h₁, h₂⟩ := Option.bind_eq_some_iff.mp h
      rw [List.foldlM_cons] at h₂
      obtain ⟨d₂, h₂, h₃⟩ := Option.bind_eq_some_iff.mp h₂
      cases h₃
      obtain ⟨hfind, hbytes⟩ := ih d₁ h₁ q
      refine ⟨?_, (bytes?_makeDir h₂ q).trans hbytes⟩
      rw [find?_makeDir h₂, hfind]
      -- The last directory is the one of `n` names.
      by_cases hq : q = p.take n
      · rw [if_pos hq, if_pos ⟨n, Nat.lt_succ_self n, hq⟩]
      · rw [if_neg hq]
        congr 1
        simp only [Nat.lt_succ_iff_lt_or_eq, or_and_right, exists_or, exists_eq_left, hq, or_false]

/-- What the places hold when a directory was created. -/
theorem find?_makeDirs (h : d.makeDirs p = some d') (q : Place) :
    d'.find? q = if q <+: p then some .dir else d.find? q := by
  rw [(makeDirs_take _ d' h q).1]
  congr 1
  rw [List.prefix_iff_eq_take, eq_iff_iff]
  constructor
  · rintro ⟨m, hm, rfl⟩
    rw [List.length_take, Nat.min_eq_left (by omega)]
  · intro hq
    refine ⟨q.length, ?_, hq⟩
    have := congrArg List.length hq
    rw [List.length_take] at this
    omega

/-- Creating directories changes no file. -/
theorem bytes?_makeDirs (h : d.makeDirs p = some d') (q : Place) : d'.bytes? q = d.bytes? q :=
  (makeDirs_take _ d' h q).2

/-- A directory can be created where there is no file. -/
theorem exists_makeDir (h : d.isFile p = false) : ∃ d', d.makeDir p = some d' := by
  unfold makeDir
  rcases isFile_eq_false_iff.mp h with h | h
  · exact ⟨_, by rw [h]⟩
  · exact ⟨_, by rw [h]⟩

/-- A directory can be created if there is no file on the way to it. -/
theorem exists_makeDirs (h : ∀ q ∈ p.inits, d.isFile q = false) : ∃ d', d.makeDirs p = some d' := by
  have hsteps : ∀ n, ∃ d', (List.range n).foldlM (fun d m => d.makeDir (p.take m)) d = some d' := by
    intro n
    induction n with
    | zero => exact ⟨d, rfl⟩
    | succ n ih =>
        obtain ⟨d₁, h₁⟩ := ih
        -- The directories so far are no files.
        have hfile : d₁.isFile (p.take n) = false := by
          rw [isFile, (makeDirs_take n d₁ h₁ _).2]
          exact h _ ((List.mem_inits _ _).mpr (List.take_prefix n p))
        obtain ⟨d₂, h₂⟩ := exists_makeDir hfile
        refine ⟨d₂, ?_⟩
        rw [List.range_succ, List.foldlM_append, h₁]
        exact (Option.bind_fun_some _).trans h₂
  exact hsteps _

/-- The directories behind the creation of one with those on the way to
it. -/
theorem isDir_makeDirs_iff (h : d.makeDirs p = some d') (q : Place) :
    d'.isDir q = true ↔ d.isDir q = true ∨ q <+: p := by
  rw [isDir_iff, isDir_iff, find?_makeDirs h]
  by_cases hq : q <+: p <;> simp [hq]

/-- Creating directories keeps the directories. -/
theorem isDir_makeDirs (h : d.makeDirs p = some d') {q : Place} (hq : d.isDir q = true) :
    d'.isDir q = true :=
  (isDir_makeDirs_iff h q).mpr (.inl hq)

/-- A tree stays one when a directory is created. -/
theorem IsTree.makeDirs (hd : d.IsTree) (h : d.makeDirs p = some d') : d'.IsTree := by
  rw [isTree_iff]
  intro q hq
  rw [occupied, find?_makeDirs h] at hq
  split at hq
  · rename_i hqp
    -- On the way to the new directory everything is one.
    rw [isDir_iff, find?_makeDirs h, if_pos ((List.dropLast_prefix q).trans hqp)]
  · exact isDir_makeDirs h (isTree_iff.mp hd q hq)

/-! ### Files written -/

/-- A write needs a directory to stand in, and no directory in its
way. -/
theorem write_eq_some_iff {bytes : List UInt8} :
    d.write p bytes = some d' ↔
      d.isDir p = false ∧ d.isDir p.dropLast = true ∧ d.put p (.file bytes) = d' := by
  unfold write
  cases d.isDir p <;> cases d.isDir p.dropLast <;> simp

/-- What the places hold when a file was written. -/
theorem find?_write {bytes : List UInt8} (h : d.write p bytes = some d') (q : Place) :
    d'.find? q = if q = p then some (.file bytes) else d.find? q := by
  obtain ⟨hdir, -, rfl⟩ := write_eq_some_iff.mp h
  refine find?_put ?_ _ q
  rintro rfl
  rw [isDir_nil] at hdir
  cases hdir

/-- The bytes of the files when one was written. -/
theorem bytes?_write {bytes : List UInt8} (h : d.write p bytes = some d') (q : Place) :
    d'.bytes? q = if q = p then some bytes else d.bytes? q := by
  have hfind := find?_write h q
  by_cases hq : q = p
  · rw [if_pos hq] at hfind ⊢
    exact bytes?_eq_some_iff.mpr hfind
  · rw [if_neg hq] at hfind ⊢
    exact bytes?_congr hfind

/-- A tree stays one when a file is written. -/
theorem IsTree.write {bytes : List UInt8} (hd : d.IsTree) (h : d.write p bytes = some d') :
    d'.IsTree := by
  obtain ⟨hdir, hparent, -⟩ := write_eq_some_iff.mp h
  -- No directory was written over, so every directory is still there.
  have hkeeps : ∀ {q : Place}, d.isDir q = true → d'.isDir q = true := by
    intro q hq
    rw [isDir_iff, find?_write h, if_neg]
    · exact isDir_iff.mp hq
    · rintro rfl
      rw [hq] at hdir
      cases hdir
  rw [isTree_iff]
  intro q hq
  rw [occupied, find?_write h] at hq
  split at hq
  · rename_i hqp
    rw [hqp]
    exact hkeeps hparent
  · exact hkeeps (isTree_iff.mp hd q hq)

/-! ### Places taken away -/

/-- What the places hold when one was taken away with all below it. -/
theorem find?_remove (d : Disk) (hp : p ≠ []) (q : Place) :
    (d.remove p).find? q = if p <+: q then none else d.find? q := by
  by_cases hnil : q = []
  · rw [hnil, find?_nil, find?_nil, if_neg]
    rwa [List.prefix_nil]
  · rw [find?_of_ne_nil hnil, find?_of_ne_nil hnil, remove, List.find?_filter]
    by_cases hq : p <+: q
    · -- An entry for `q` would not have been kept.
      rw [if_pos hq, Option.map_eq_none_iff, List.find?_eq_none]
      intro e _ he
      simp only [Bool.not_eq_true', decide_eq_true_eq] at he
      rw [he.2, isUnder_iff.mpr hq] at he
      cases he.1
    · rw [if_neg hq]
      congr 2
      funext e
      by_cases he : e.1 = q
      · have hout : Place.isUnder q p = false := by rwa [← Bool.not_eq_true, isUnder_iff]
        simp [he, hout]
      · simp [he]

/-- A tree stays one when a place is taken away. -/
theorem IsTree.remove (hd : d.IsTree) (hp : p ≠ []) : (d.remove p).IsTree := by
  rw [isTree_iff]
  intro q hq
  rw [occupied, find?_remove d hp] at hq
  split at hq
  · cases hq
  · rename_i hpq
    rw [isDir_iff, find?_remove d hp, if_neg]
    · exact isDir_iff.mp (isTree_iff.mp hd q hq)
    · exact fun hpre => hpq (hpre.trans (List.dropLast_prefix q))

/-! ### Places renamed -/

/-- A rename to another place, taken apart. -/
theorem rename_eq_some {origin target : Place} (hne : origin ≠ target)
    (h : d.rename origin target = some d') :
    ¬ origin <+: target ∧ d.mayReplace origin target = true ∧
      d' = (d.remove target).carry origin target := by
  rw [rename, if_neg hne] at h
  split at h
  · cases h
  · rename_i hguard
    simp only [Bool.or_eq_true, Bool.not_eq_true', not_or, Bool.not_eq_true, Bool.not_eq_false,
      ← isUnder_iff] at hguard ⊢
    refine ⟨by simp [hguard.1], hguard.2, (Option.some.inj h).symm⟩

/-- Only something that is there is renamed. -/
theorem occupied_of_mayReplace {origin target : Place} (h : d.mayReplace origin target = true) :
    d.occupied origin = true := by
  unfold mayReplace at h
  rw [occupied]
  cases hfind : d.find? origin with
  | none => rw [hfind] at h; cases h
  | some e => rfl

/-- In a tree nothing replaces a directory above it. -/
theorem IsTree.not_prefix_of_mayReplace {origin target : Place} (hd : d.IsTree)
    (hne : origin ≠ target) (h : d.mayReplace origin target = true) : ¬ target <+: origin := by
  intro hpre
  have hoccupied := occupied_of_mayReplace h
  have hdir := isDir_iff.mp (hd.isDir_of_prefix hpre (Ne.symm hne) hoccupied)
  have hnil : origin ≠ [] := by
    rintro rfl
    exact hne (List.prefix_nil.mp hpre).symm
  unfold mayReplace at h
  rw [hdir] at h
  cases hfind : d.find? origin with
  | none => rw [hfind] at h; cases h
  | some e =>
      rw [hfind] at h
      cases e with
      | file bytes => cases h
      | dir =>
          -- The entry of the origin shows that the target is not bare.
          obtain ⟨e, he, heo⟩ := (occupied_iff_mem hnil).mp hoccupied
          have hbare := List.all_eq_true.mp h e he
          rw [heo, isUnder_iff.mpr hpre] at hbare
          simp [hne] at hbare

/-- In a tree there is a directory for what takes a place. -/
theorem IsTree.isDir_dropLast_of_mayReplace {origin target : Place} (hd : d.IsTree)
    (h : d.mayReplace origin target = true) : d.isDir target.dropLast = true := by
  by_cases ht : d.occupied target = true
  · exact isTree_iff.mp hd target ht
  · unfold mayReplace at h
    rw [occupied, Bool.not_eq_true, Option.isSome_eq_false_iff, Option.isNone_iff_eq_none] at ht
    rw [ht] at h
    split at h <;> simp_all

/-- A file does not replace a directory. -/
theorem isDir_eq_false_of_mayReplace {origin target : Place} {bytes : List UInt8}
    (hfile : d.bytes? origin = some bytes) (h : d.mayReplace origin target = true) :
    d.isDir target = false := by
  unfold mayReplace at h
  rw [bytes?_eq_some_iff.mp hfile] at h
  rw [isDir]
  cases hfind : d.find? target with
  | none => rfl
  | some e =>
      rw [hfind] at h
      cases e with
      | dir => cases h
      | file bytes => rfl

/-- Which place is carried to a given one: below the target the one
that was below the origin, and no other one was below the target. -/
theorem carried_eq_iff {origin target p : Place} (hout : ¬ target <+: p) (q : Place) :
    (if p.isUnder origin then target ++ p.drop origin.length else p) = q ↔
      if target <+: q then p = origin ++ q.drop target.length else ¬ origin <+: q ∧ p = q := by
  by_cases hunder : origin <+: p
  · -- The place is carried: to below the target, where it keeps its rest.
    obtain ⟨rest, rfl⟩ := hunder
    rw [if_pos (isUnder_iff.mpr (List.prefix_append origin rest)), List.drop_left]
    by_cases htq : target <+: q
    · obtain ⟨below, rfl⟩ := htq
      rw [if_pos (List.prefix_append target below), List.drop_left, List.append_cancel_left_eq,
        List.append_cancel_left_eq]
    · rw [if_neg htq]
      constructor
      · exact fun h => absurd (h ▸ List.prefix_append target rest) htq
      · exact fun h => absurd (h.2 ▸ List.prefix_append origin rest) h.1
  · -- The place stays, and was not below the target.
    rw [if_neg (mt isUnder_iff.mp hunder)]
    by_cases htq : target <+: q
    · rw [if_pos htq]
      constructor
      · exact fun h => absurd (h ▸ htq) hout
      · exact fun h => absurd (h ▸ List.prefix_append origin _) hunder
    · rw [if_neg htq]
      constructor
      · exact fun h => ⟨h ▸ hunder, h⟩
      · exact fun h => h.2

/-- What the places hold when one was carried to a place with nothing
at or below it. -/
theorem find?_carry {origin target : Place} (horigin : origin ≠ []) (htarget : target ≠ [])
    (hout : ∀ e ∈ d.entries, ¬ target <+: e.1) (q : Place) :
    (d.carry origin target).find? q =
      if target <+: q then d.find? (origin ++ q.drop target.length)
      else if origin <+: q then none else d.find? q := by
  by_cases hnil : q = []
  · rw [hnil, find?_nil, if_neg (by rwa [List.prefix_nil]), if_neg (by rwa [List.prefix_nil]),
      find?_nil]
  · -- Only the places of the entries change, so it remains to say which entry is found.
    have hkeeps : (Prod.snd ∘ fun e : Place × Entry => if e.1.isUnder origin then
        (target ++ e.1.drop origin.length, e.2) else e) = Prod.snd := by
      funext e
      simp only [Function.comp_apply]
      split <;> rfl
    have hplace : ∀ e ∈ d.entries,
        (if e.1.isUnder origin then (target ++ e.1.drop origin.length, e.2) else e).1 = q ↔
          if target <+: q then e.1 = origin ++ q.drop target.length
          else ¬ origin <+: q ∧ e.1 = q := by
      intro e he
      rw [apply_ite Prod.fst]
      exact carried_eq_iff (hout e he) q
    rw [find?_of_ne_nil hnil, carry, List.find?_map, Option.map_map, hkeeps]
    by_cases htq : target <+: q
    · rw [if_pos htq, find?_of_ne_nil (by simp [horigin])]
      congr 1
      refine List.find?_congr fun e he => decide_eq_decide.mpr ?_
      rw [hplace e he, if_pos htq]
    · rw [if_neg htq]
      by_cases hoq : origin <+: q
      · rw [if_pos hoq, Option.map_eq_none_iff, List.find?_eq_none]
        intro e he heq
        have := (hplace e he).mp (of_decide_eq_true heq)
        rw [if_neg htq] at this
        exact this.1 hoq
      · rw [if_neg hoq, find?_of_ne_nil hnil]
        congr 1
        refine List.find?_congr fun e he => decide_eq_decide.mpr ?_
        rw [hplace e he, if_neg htq, and_iff_right hoq]

/-- What the places hold after a rename: below the target what was
below the origin, and nothing below the origin. -/
theorem find?_rename {origin target : Place} (hd : d.IsTree) (hne : origin ≠ target)
    (h : d.rename origin target = some d') (q : Place) :
    d'.find? q =
      if target <+: q then d.find? (origin ++ q.drop target.length)
      else if origin <+: q then none else d.find? q := by
  obtain ⟨hbelow, hmay, rfl⟩ := rename_eq_some hne h
  have habove := hd.not_prefix_of_mayReplace hne hmay
  have horigin : origin ≠ [] := fun hnil => hbelow (hnil ▸ List.nil_prefix)
  have htarget : target ≠ [] := fun hnil => habove (hnil ▸ List.nil_prefix)
  rw [find?_carry horigin htarget, find?_remove d htarget, find?_remove d htarget]
  · by_cases hq : target <+: q
    · rw [if_pos hq, if_pos hq, if_neg]
      -- The target lies neither above the origin nor below it.
      intro hpre
      rcases List.prefix_or_prefix_of_prefix hpre (List.prefix_append origin _) with h | h
      · exact habove h
      · exact hbelow h
    · rw [if_neg hq, if_neg hq, if_neg hq]
  · intro e he hpre
    have hkept := (List.mem_filter.mp he).2
    rw [isUnder_iff.mpr hpre] at hkept
    cases hkept

/-- A tree stays one when a place is renamed. -/
theorem IsTree.rename {origin target : Place} (hd : d.IsTree)
    (h : d.rename origin target = some d') : d'.IsTree := by
  by_cases hne : origin = target
  · rw [Disk.rename, if_pos hne] at h
    split at h <;> cases h
    exact hd
  · obtain ⟨hbelow, hmay, -⟩ := rename_eq_some hne h
    have habove := hd.not_prefix_of_mayReplace hne hmay
    have hfind := find?_rename hd hne h
    rw [isTree_iff]
    intro q hq
    rw [occupied, hfind] at hq
    rw [isDir_iff, hfind]
    by_cases htq : target <+: q
    · rw [if_pos htq] at hq
      obtain ⟨rest, rfl⟩ := htq
      rcases List.eq_nil_or_concat rest with rfl | ⟨rest, name, rfl⟩
      · -- The target itself stands in the directory that held it before.
        have htarget : target ≠ [] := fun hnil => habove (hnil ▸ List.nil_prefix)
        have hout : ¬ target <+: target.dropLast := fun hpre =>
          ((prefix_dropLast_iff htarget).mp hpre).2 rfl
        rw [List.append_nil, if_neg hout, if_neg]
        · exact isDir_iff.mp (hd.isDir_dropLast_of_mayReplace hmay)
        · exact fun hpre => hbelow (hpre.trans (List.dropLast_prefix target))
      · -- What is below the target stands where it stood below the origin.
        rw [List.drop_left] at hq
        have hparent := isTree_iff.mp hd _ hq
        rw [List.concat_eq_append, ← List.append_assoc, List.dropLast_concat] at hparent ⊢
        rw [if_pos (List.prefix_append target rest), List.drop_left]
        exact isDir_iff.mp hparent
    · rw [if_neg htq] at hq
      by_cases hoq : origin <+: q
      · rw [if_pos hoq] at hq
        cases hq
      · rw [if_neg hoq] at hq
        rw [if_neg fun hpre => htq (hpre.trans (List.dropLast_prefix q)),
          if_neg fun hpre => hoq (hpre.trans (List.dropLast_prefix q))]
        exact isDir_iff.mp (isTree_iff.mp hd q hq)

/-- The bytes of the files after one was renamed: nothing else
moves. -/
theorem bytes?_rename {origin target : Place} {bytes : List UInt8} (hd : d.IsTree)
    (hfile : d.bytes? origin = some bytes) (hne : origin ≠ target)
    (h : d.rename origin target = some d') (q : Place) :
    d'.bytes? q = if q = target then some bytes else if q = origin then none else d.bytes? q := by
  obtain ⟨hbelow, hmay, -⟩ := rename_eq_some hne h
  have hfind := find?_rename hd hne h q
  by_cases htq : target <+: q
  · rw [if_pos htq] at hfind
    rw [bytes?_congr hfind]
    by_cases hqt : q = target
    · rw [if_pos hqt, hqt, List.drop_length, List.append_nil, hfile]
    · -- Below a file there is nothing, neither before nor after.
      have horigin : d.bytes? (origin ++ q.drop target.length) = none := by
        obtain ⟨rest, rfl⟩ := htq
        rw [List.drop_left, bytes?, hd.find?_eq_none (isDir_eq_false_of_bytes? hfile)
          (List.prefix_append origin rest) (by simpa using hqt)]
      have htarget : d.bytes? q = none := by
        rw [bytes?, hd.find?_eq_none (isDir_eq_false_of_mayReplace hfile hmay) htq (Ne.symm hqt)]
      rw [if_neg hqt, horigin, htarget, ite_self]
  · rw [if_neg htq] at hfind
    have hqt : q ≠ target := fun h => htq (h ▸ List.prefix_rfl)
    rw [if_neg hqt]
    by_cases hoq : origin <+: q
    · rw [if_pos hoq] at hfind
      -- Nothing is left at the origin, and below it there was nothing.
      have hnone : d'.bytes? q = none := by rw [bytes?, hfind]
      rw [hnone]
      by_cases hqo : q = origin
      · rw [if_pos hqo]
      · rw [if_neg hqo, bytes?, hd.find?_eq_none (isDir_eq_false_of_bytes? hfile) hoq (Ne.symm hqo)]
    · rw [if_neg hoq] at hfind
      rw [if_neg fun h : q = origin => hoq (h ▸ List.prefix_rfl), bytes?_congr hfind]

/-! ### Directories moved -/

/-- A directory may take the place of a bare one, or stand where nothing
is. -/
theorem mayReplace_of_bare {origin target : Place} (hdir : d.find? origin = some .dir)
    (hparent : d.isDir target.dropLast = true) (hnil : target ≠ [])
    (hfile : d.isFile target = false)
    (hbare : ∀ q, target <+: q → q ≠ target → d.find? q = none) :
    d.mayReplace origin target = true := by
  rw [mayReplace, hdir]
  rcases isFile_eq_false_iff.mp hfile with htarget | htarget
  · rw [htarget]
    exact hparent
  · rw [htarget]
    refine List.all_eq_true.mpr fun e he => ?_
    rw [Bool.or_eq_true, decide_eq_true_eq, Bool.not_eq_true', or_iff_not_imp_left]
    intro hne
    rw [← Bool.not_eq_true, isUnder_iff]
    intro hpre
    -- An entry below the target is something there.
    have hocc : d.occupied e.1 = true :=
      (occupied_iff_mem fun h => hnil (List.prefix_nil.mp (h ▸ hpre))).mpr ⟨e, he, rfl⟩
    rw [occupied, hbare e.1 hpre hne] at hocc
    cases hocc

/-- What the places hold when a directory was moved to a bare one, or to
where nothing is. -/
theorem exists_rename_of_bare {origin target : Place} (hd : d.IsTree)
    (hdir : d.find? origin = some .dir) (hout : ¬ origin <+: target)
    (hway : ∀ q ∈ target.dropLast.inits, d.isFile q = false) (hfile : d.isFile target = false)
    (hbare : ∀ q, target <+: q → q ≠ target → d.find? q = none) :
    ∃ d', ((d.makeParent target).bind fun d => d.rename origin target) = some d' ∧ d'.IsTree ∧
      ∀ q, d'.find? q =
        if target <+: q then d.find? (origin ++ q.drop target.length)
        else if origin <+: q then none
        else if q <+: target.dropLast then some .dir else d.find? q := by
  have hne : origin ≠ target := fun h => hout (h ▸ List.prefix_rfl)
  have hnil : target ≠ [] := by
    rintro rfl
    rw [hbare origin List.nil_prefix hne] at hdir
    cases hdir
  obtain ⟨d₁, hparent⟩ := exists_makeDirs hway
  have hd₁ := hd.makeDirs hparent
  have hfind := find?_makeDirs hparent
  -- The directories created on the way are neither at the origin nor below the target.
  have horigin : ∀ rest, d₁.find? (origin ++ rest) = d.find? (origin ++ rest) := by
    intro rest
    rw [hfind, if_neg]
    exact fun h => hout ((List.prefix_append origin rest).trans (h.trans (List.dropLast_prefix _)))
  have htarget : ∀ q, target <+: q → d₁.find? q = d.find? q := by
    intro q htq
    rw [hfind, if_neg]
    exact fun hq => ((prefix_dropLast_iff hnil).mp (htq.trans hq)).2 rfl
  have hmay : d₁.mayReplace origin target = true := by
    refine mayReplace_of_bare ?_ ?_ hnil ?_ fun q htq hq => (htarget q htq).trans (hbare q htq hq)
    · simpa [hdir] using horigin []
    · exact isDir_iff.mpr ((hfind _).trans (if_pos List.prefix_rfl))
    · rw [isFile, bytes?_makeDirs hparent]
      exact hfile
  have hrename : d₁.rename origin target = some ((d₁.remove target).carry origin target) := by
    rw [rename, if_neg hne, if_neg]
    rw [hmay, Bool.not_true, Bool.or_false, isUnder_iff]
    exact hout
  -- Below the target and the origin the created directories make no difference.
  refine ⟨_, ?_, hd₁.rename hrename, fun q => ?_⟩
  · rw [makeParent, hparent, Option.bind_some, hrename]
  · rw [find?_rename hd₁ hne hrename, horigin, hfind q]

end ScriptRefactor.Disk
