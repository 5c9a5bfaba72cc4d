import ScriptRefactor.Proofs.Table
import ScriptRefactor.Proofs.Workspace.FlushSteps
import ScriptRefactor.Proofs.Workspace.MoveOrder
import ScriptRefactor.Proofs.Workspace.Place

/-!
# `ScriptRefactor.Proofs.Workspace.FlushFiles`: the files behind a flush

The last two phases of a flush move files and write texts. Behind the
moves, the file at a key is the one that `beforeMoves` tells
(`bytes?_foldlM_movedOn`). Behind the texts, each key to be written
has its text, or a file that is already read as that text
(`bytes?_foldlM_savedOn`); a file that cannot be read counts as an
empty one there.

Both speak of keys that are told apart on disk (`TellsApart`). Keys
that do not lead out of the project always are.
-/

set_option autoImplicit false

namespace ScriptRefactor.Workspace

variable {w : Workspace} {d d' : Disk}

/-! ### Keys told apart -/

/-- No two of the keys have one place. -/
def TellsApart (w : Workspace) (keys : List String) : Prop :=
  ∀ a ∈ keys, ∀ b ∈ keys, w.place a = w.place b → a = b

/-- The keys of paths are told apart if no path leads out of the
project to the place of another one. -/
theorem tellsApart_of_leaves {paths : List String}
    (h : ∀ a ∈ paths, ∀ b ∈ paths, Path.leaves (w.key a) = true →
      w.place (w.key a) = w.place (w.key b) → w.key a = w.key b) :
    w.TellsApart (paths.map w.key) := by
  intro a ha b hb hplace
  obtain ⟨pathA, hA, rfl⟩ := List.mem_map.mp ha
  obtain ⟨pathB, hB, rfl⟩ := List.mem_map.mp hb
  by_cases hleavesA : Path.leaves (w.key pathA) = true
  · exact h pathA hA pathB hB hleavesA hplace
  · by_cases hleavesB : Path.leaves (w.key pathB) = true
    · exact (h pathB hB pathA hA hleavesB hplace.symm).symm
    · -- Both keys are names, and so are their places below the root of the project.
      rw [Bool.not_eq_true] at hleavesA hleavesB
      obtain ⟨namesA, hnamesA, heqA⟩ := w.exists_names_of_key hleavesA
      obtain ⟨namesB, hnamesB, heqB⟩ := w.exists_names_of_key hleavesB
      rw [heqA, heqB] at hplace ⊢
      rw [(w.place_ofNames_inj hnamesA hnamesB).mp hplace]

/-! ### Files moved -/

/-- The files behind the move of a file. -/
theorem bytes?_movedOn {m : String × String} {bytes : List UInt8} (hd : d.IsTree)
    (hfile : d.bytes? (w.place m.1) = some bytes) (hne : w.place m.1 ≠ w.place m.2)
    (h : w.movedOn d m = some d') :
    d'.IsTree ∧ ∀ q, d'.bytes? q =
      if q = w.place m.2 then some bytes else if q = w.place m.1 then none else d.bytes? q := by
  rw [movedOn, if_pos (Disk.occupied_of_bytes? hfile)] at h
  obtain ⟨d₁, hparent, hrename⟩ := Option.bind_eq_some_iff.mp h
  have hd₁ := hd.makeDirs hparent
  refine ⟨hd₁.rename hrename, fun q => ?_⟩
  rw [Disk.bytes?_rename hd₁ ((Disk.bytes?_makeDirs hparent _).trans hfile) hne hrename,
    Disk.bytes?_makeDirs hparent]

/-- What stands at a key behind some moves stood there before them, or
at the origin of one. -/
theorem mem_of_beforeMoves_eq_some {moves : List (String × String)} {key j : String}
    (h : beforeMoves moves key = some j) : j = key ∨ ∃ m ∈ moves, m.1 = j := by
  induction moves generalizing j with
  | nil => exact .inl (Option.some.inj h).symm
  | cons m moves ih =>
      obtain ⟨i, hi, hj⟩ := Option.bind_eq_some_iff.mp h
      unfold beforeMove at hj
      split at hj
      · exact .inr ⟨m, List.mem_cons_self .., Option.some.inj hj⟩
      · split at hj
        · cases hj
        · cases hj
          rcases ih hi with heq | ⟨n, hn, heq⟩
          · exact .inl heq
          · exact .inr ⟨n, List.mem_cons_of_mem m hn, heq⟩

/-- The files behind the move of a file, by the keys that they come
from. -/
theorem bytes?_movedOn_eq_bind {keys : List String} (hapart : w.TellsApart keys)
    {m : String × String} (hm : m.1 ∈ keys ∧ m.2 ∈ keys) (hne : m.1 ≠ m.2) (hd : d.IsTree)
    (hfile : (d.bytes? (w.place m.1)).isSome = true) (h : w.movedOn d m = some d') :
    d'.IsTree ∧ ∀ k ∈ keys,
      d'.bytes? (w.place k) = (beforeMove m k).bind fun j => d.bytes? (w.place j) := by
  obtain ⟨bytes, hbytes⟩ := Option.isSome_iff_exists.mp hfile
  have hplaces : w.place m.1 ≠ w.place m.2 := fun heq => hne (hapart _ hm.1 _ hm.2 heq)
  obtain ⟨hd', hstep⟩ := bytes?_movedOn hd hbytes hplaces h
  refine ⟨hd', fun k hk => ?_⟩
  -- On keys that are told apart, places are compared as keys are.
  have hsnd : w.place k = w.place m.2 ↔ k = m.2 := ⟨hapart k hk _ hm.2, fun heq => heq ▸ rfl⟩
  have hfst : w.place k = w.place m.1 ↔ k = m.1 := ⟨hapart k hk _ hm.1, fun heq => heq ▸ rfl⟩
  rw [hstep, beforeMove]
  simp only [hsnd, hfst]
  split
  · rw [Option.bind_some, hbytes]
  · split
    · rfl
    · rw [Option.bind_some]

/-- The files behind the moves of files: each move finds its file,
since only one move takes it away. -/
theorem bytes?_foldlM_movedOn {keys : List String} (hapart : w.TellsApart keys)
    {moves : List (String × String)} (hkeys : ∀ m ∈ moves, m.1 ∈ keys ∧ m.2 ∈ keys)
    (hinj : PartialInjection moves) (hd : d.IsTree)
    (hfiles : ∀ m ∈ moves, (d.bytes? (w.place m.1)).isSome = true)
    (h : moves.foldlM w.movedOn d = some d') :
    d'.IsTree ∧ ∀ k ∈ keys, d'.bytes? (w.place k) =
      (beforeMoves moves k).bind fun j => d.bytes? (w.place j) := by
  induction moves generalizing d with
  | nil =>
      cases h
      refine ⟨hd, fun k _ => ?_⟩
      rw [beforeMoves_nil, Option.bind_some]
  | cons m moves ih =>
      obtain ⟨hm, hkeys⟩ := List.forall_mem_cons.mp hkeys
      rw [List.foldlM_cons] at h
      obtain ⟨d₁, hfirst, hrest⟩ := Option.bind_eq_some_iff.mp h
      have hfile := hfiles m (List.mem_cons_self ..)
      obtain ⟨hd₁, hback⟩ :=
        bytes?_movedOn_eq_bind hapart hm (hinj.ne m (List.mem_cons_self ..)) hd hfile hfirst
      have hfiles₁ : ∀ n ∈ moves, (d₁.bytes? (w.place n.1)).isSome = true := by
        -- The first move takes away the file of no other one, but may put its own one there.
        intro n hn
        rw [hback n.1 (hkeys n hn).1, beforeMove, if_neg (hinj.fst_ne hn)]
        split
        · rw [Option.bind_some]
          exact hfile
        · rw [Option.bind_some]
          exact hfiles n (List.mem_cons_of_mem m hn)
      obtain ⟨hd', hall⟩ := ih hkeys hinj.tail hd₁ hfiles₁ hrest
      refine ⟨hd', fun k hk => ?_⟩
      rw [hall k hk, beforeMoves_cons, Option.bind_assoc]
      cases hbefore : beforeMoves moves k with
      | none => rw [Option.bind_none, Option.bind_none]
      | some j =>
          -- The other moves take the file from `j`, which is one of the keys.
          rw [Option.bind_some, Option.bind_some]
          refine hback j ?_
          rcases mem_of_beforeMoves_eq_some hbefore with rfl | ⟨n, hn, rfl⟩
          · exact hk
          · exact (hkeys n hn).1

/-! ### Texts written -/

/-- The bytes of a file behind the text written to it. A file that is
read as the text already stays as it is, and one that cannot be read
counts as empty. -/
def savedBytes (before : Option (List UInt8)) (text : String) : List UInt8 :=
  match before with
  | some bytes =>
    if (Text.Utf8.decodeText? bytes).getD "" = text then bytes else Disk.bytesOf text
  | none => Disk.bytesOf text

/-- The file behind the text written to it, if there is one. -/
def written (before : Option (List UInt8)) : Option String → Option (List UInt8)
  | some text => some (savedBytes before text)
  | none => before

/-- A text written twice is written once. -/
theorem written_idem (before : Option (List UInt8)) (text? : Option String) :
    written (written before text?) text? = written before text? := by
  cases text? with
  | none => rfl
  | some text =>
      cases before with
      | none =>
          simp only [written, savedBytes]
          split <;> rfl
      | some bytes =>
          simp only [written, savedBytes]
          split_ifs <;> rfl

/-- The files behind one text. -/
theorem bytes?_of_savedOn {key : String} (h : w.savedOn d key = some d') (q : Place) :
    d'.bytes? q =
      if q = w.place key then written (d.bytes? q) (w.texts.find? key) else d.bytes? q := by
  unfold savedOn at h
  split at h
  · -- Nothing is written without a text.
    rename_i htext
    cases h
    rw [htext, written, ite_self]
  · rename_i text htext
    split at h
    · -- A file that is read as the text already is left alone.
      rename_i bytes hbytes
      split at h
      · rename_i hsame
        cases h
        split
        · rename_i hq
          rw [hq, htext, hbytes, written, savedBytes, if_pos hsame]
        · rfl
      · rename_i hdiffers
        rw [Disk.bytes?_write h]
        split
        · rename_i hq
          rw [hq, htext, hbytes, written, savedBytes, if_neg hdiffers]
        · rfl
    · -- For a new file, the directories above it are created first.
      rename_i hnone
      obtain ⟨d₁, hparent, hwrite⟩ := Option.bind_eq_some_iff.mp h
      rw [Disk.bytes?_write hwrite, Disk.bytes?_makeDirs hparent]
      split
      · rename_i hq
        rw [hq, htext, hnone]
        rfl
      · rfl

/-- A tree stays one behind a text. -/
theorem isTree_savedOn {key : String} (hd : d.IsTree) (h : w.savedOn d key = some d') :
    d'.IsTree := by
  unfold savedOn at h
  split at h
  · cases h
    exact hd
  · split at h
    · split at h
      · cases h
        exact hd
      · exact hd.write h
    · obtain ⟨d₁, hparent, hwrite⟩ := Option.bind_eq_some_iff.mp h
      exact (hd.makeDirs hparent).write hwrite

/-- The files behind all texts. -/
theorem bytes?_foldlM_savedOn {keys : List String} (hapart : w.TellsApart keys)
    {saves : List String} (hkeys : ∀ k ∈ saves, k ∈ keys) (hd : d.IsTree)
    (h : saves.foldlM w.savedOn d = some d') :
    ∀ k ∈ keys, d'.bytes? (w.place k) =
      if k ∈ saves then written (d.bytes? (w.place k)) (w.texts.find? k)
      else d.bytes? (w.place k) := by
  induction saves generalizing d with
  | nil =>
      cases h
      intro k _
      rw [if_neg List.not_mem_nil]
  | cons s saves ih =>
      obtain ⟨hs, hkeys⟩ := List.forall_mem_cons.mp hkeys
      rw [List.foldlM_cons] at h
      obtain ⟨d₁, hfirst, hrest⟩ := Option.bind_eq_some_iff.mp h
      have hd₁ := isTree_savedOn hd hfirst
      have hstep := bytes?_of_savedOn hfirst
      intro k hk
      have hplace : w.place k = w.place s ↔ k = s := ⟨hapart k hk s hs, fun heq => heq ▸ rfl⟩
      rw [ih hkeys hd₁ hrest k hk, hstep]
      simp only [hplace, List.mem_cons]
      by_cases hks : k = s
      · -- The key may be written again, which changes nothing.
        subst hks
        simp only [if_true, true_or, written_idem, ite_self]
      · simp only [hks, if_false, false_or]

/-- The directories behind one text: all above it, if there is one. -/
theorem isDir_savedOn {key : String} (hd : d.IsTree) (h : w.savedOn d key = some d') (q : Place) :
    d'.isDir q = true ↔ d.isDir q = true ∨
      (key ∈ w.texts.keys ∧ q <+: w.place key ∧ q ≠ w.place key) := by
  rw [← Table.contains_iff_mem_keys, Table.contains_eq_isSome]
  unfold savedOn at h
  split at h
  · rename_i htext
    cases h
    simp [htext]
  · rename_i text htext
    rw [htext, Option.isSome_some, eq_self, true_and]
    -- A write changes no directory.
    have hwrites : ∀ {d₁ d₂ : Disk} {bytes : List UInt8}, d₁.write (w.place key) bytes = some d₂ →
        (d₂.isDir q = true ↔ d₁.isDir q = true) := by
      intro d₁ d₂ bytes hwrite
      rw [Disk.isDir_iff, Disk.find?_write hwrite]
      split
      · rename_i hq
        simp [hq, (Disk.write_eq_some_iff.mp hwrite).1]
      · exact Disk.isDir_iff.symm
    split at h
    · rename_i bytes hbytes
      have habove : q <+: w.place key ∧ q ≠ w.place key → d.isDir q = true :=
        fun hq => hd.isDir_of_prefix hq.1 hq.2 (Disk.occupied_of_bytes? hbytes)
      rw [or_iff_left_of_imp habove]
      split at h
      · cases h
        rfl
      · exact hwrites h
    · obtain ⟨d₁, hparent, hwrite⟩ := Option.bind_eq_some_iff.mp h
      have hne : w.place key ≠ [] := by
        intro hnil
        have hdir := (Disk.write_eq_some_iff.mp hwrite).1
        rw [hnil, Disk.isDir_nil] at hdir
        cases hdir
      rw [hwrites hwrite, Disk.isDir_makeDirs_iff hparent, Disk.prefix_dropLast_iff hne]

/-- The directories behind all texts. -/
theorem isDir_foldlM_savedOn {saves : List String} (hd : d.IsTree)
    (h : saves.foldlM w.savedOn d = some d') (q : Place) :
    d'.isDir q = true ↔ d.isDir q = true ∨
      ∃ k ∈ saves, k ∈ w.texts.keys ∧ q <+: w.place k ∧ q ≠ w.place k := by
  induction saves generalizing d with
  | nil =>
      cases h
      simp
  | cons key saves ih =>
      obtain ⟨d₁, hfirst, hrest⟩ := Option.bind_eq_some_iff.mp h
      simp only [ih (isTree_savedOn hd hfirst) hrest, isDir_savedOn hd hfirst, List.mem_cons,
        exists_eq_or_imp, or_assoc]

end ScriptRefactor.Workspace
