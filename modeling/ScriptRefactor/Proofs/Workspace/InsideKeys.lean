import ScriptRefactor.Proofs.Workspace.Deletions
import ScriptRefactor.Proofs.Workspace.Place

/-!
# `ScriptRefactor.Proofs.Workspace.InsideKeys`: keys inside the project

Calls that name places inside the project stage changes of such places
only (`keysInside_run`, `stagedInside_run`). What is carried along with
a directory stays inside too (`inside_carried`).
-/

set_option autoImplicit false

namespace ScriptRefactor.Workspace

open ScriptRefactor.Path

/-- The keys that a flush moves, deletes and writes are inside the
project. -/
structure KeysInside (w : Workspace) : Prop where
  /-- Files are moved inside. -/
  moves : ∀ m ∈ w.moves, Inside m.1 ∧ Inside m.2
  /-- Directories are moved inside. -/
  dirMoves : ∀ m ∈ w.dirMoves, Inside m.1 ∧ Inside m.2
  /-- Deletions are inside. -/
  deletions : ∀ k ∈ w.deletions.keys, Inside k
  /-- Texts are written inside. -/
  saves : ∀ k ∈ w.saves.toList, Inside k

/-- A new workspace changes nothing. -/
theorem keysInside_ofFilter (root : String) (settings : Settings) (filter : PathFilter) :
    KeysInside (ofFilter root settings filter) where
  moves := fun m hm => by cases hm
  dirMoves := fun m hm => by cases hm
  deletions := fun k hk => by cases hk
  saves := fun k hk => by cases hk

/-- A key of a path inside is inside. -/
theorem inside_key {w : Workspace} {path : String} (hne : w.key path ≠ "")
    (h : leaves (w.key path) = false) : Inside (w.key path) := by
  obtain ⟨q, hq⟩ := w.exists_key_eq_normalize path
  rw [hq] at h hne ⊢
  exact inside_of_normalize h hne

/-- What is carried along with a directory stays inside. -/
theorem inside_carried {origin target key : String} (horigin : Inside origin)
    (htarget : Inside target) (hkey : Inside key) : Inside (carried origin target key) := by
  obtain ⟨names, as, bs, rfl, rfl, rfl, hnames, -, ⟨hbsne, hbs⟩, hreplace⟩ :=
    replacePrefix?_inside hkey horigin htarget
  rw [carried, hreplace]
  split
  · refine ⟨bs ++ names.drop as.length, by simp [hbsne], fun n hn => ?_, rfl⟩
    rcases List.mem_append.mp hn with hn | hn
    · exact hbs n hn
    · exact hnames n (List.mem_of_mem_drop hn)
  · exact hkey

/-- What is carried along, name by name. -/
theorem carried_ofNames {os ts as : List (List Char)} (hosne : os ≠ []) (hos : ∀ n ∈ os, IsName n)
    (htsne : ts ≠ []) (hts : ∀ n ∈ ts, IsName n) (has : ∀ n ∈ as, IsName n) :
    carried (ofNames os) (ofNames ts) (ofNames as) =
      if os <+: as then ofNames (ts ++ as.drop os.length) else ofNames as := by
  rw [carried, replacePrefix?_ofNames has hos hts hosne htsne]
  split <;> rfl

/-- What is not under the origin stays. -/
theorem carried_of_not_under {origin target key : String} (h : isUnder key origin = false) :
    carried origin target key = key := by
  rw [isUnder, Option.isSome_eq_false_iff, Option.isNone_iff_eq_none] at h
  rw [carried, replacePrefix?, h]
  rfl

/-- What is under the origin gets under the target. -/
theorem isUnder_carried {origin target key : String} (horigin : Inside origin)
    (htarget : Inside target) (hkey : Inside key) (h : isUnder key origin = true) :
    isUnder (carried origin target key) target = true := by
  obtain ⟨as, -, has, rfl⟩ := hkey
  obtain ⟨os, hosne, hos, rfl⟩ := horigin
  obtain ⟨ts, htsne, hts, rfl⟩ := htarget
  rw [isUnder_ofNames has hos] at h
  have hall : ∀ n ∈ ts ++ as.drop os.length, IsName n :=
    List.forall_mem_append.mpr ⟨hts, fun n hn => has n (List.mem_of_mem_drop hn)⟩
  rw [carried_ofNames hosne hos htsne hts has, if_pos h, isUnder_ofNames hall hts]
  exact List.prefix_append _ _

/-- Two keys become one when a directory is moved. -/
def Merges (origin target a b : String) : Prop :=
  a ≠ b ∧ carried origin target a = carried origin target b

instance (origin target a b : String) : Decidable (Merges origin target a b) :=
  inferInstanceAs (Decidable (_ ∧ _))

/-- Keys that do not become one are told apart where they are carried. -/
theorem not_merges_iff {origin target a b : String} :
    ¬ Merges origin target a b ↔ (carried origin target a = carried origin target b → a = b) := by
  rw [Merges, not_and, not_imp_not]

/-- Of two keys that become one, one is under the origin, and is carried
to where the other stays. -/
theorem merges_iff {origin target a b : String} (horigin : Inside origin)
    (htarget : Inside target) (ha : Inside a) (hb : Inside b) :
    Merges origin target a b ↔ a ≠ b ∧
      ((isUnder a origin = true ∧ isUnder b origin = false ∧ carried origin target a = b) ∨
        (isUnder b origin = true ∧ isUnder a origin = false ∧ carried origin target b = a)) := by
  refine and_congr_right fun hne => ?_
  cases hao : isUnder a origin with
  | true =>
      cases hbo : isUnder b origin with
      | true =>
          -- Both go below the target, with their names behind the origin.
          simp only [Bool.true_eq_false, false_and, and_false, or_false, iff_false]
          obtain ⟨as, -, has, rfl⟩ := ha
          obtain ⟨bs, -, hbs, rfl⟩ := hb
          obtain ⟨os, hosne, hos, rfl⟩ := horigin
          obtain ⟨ts, htsne, hts, rfl⟩ := htarget
          obtain ⟨as, rfl⟩ := (isUnder_ofNames has hos).mp hao
          obtain ⟨bs, rfl⟩ := (isUnder_ofNames hbs hos).mp hbo
          have hall : ∀ cs : List (List Char), (∀ n ∈ os ++ cs, IsName n) →
              ∀ n ∈ ts ++ cs, IsName n :=
            fun cs hcs => List.forall_mem_append.mpr ⟨hts, (List.forall_mem_append.mp hcs).2⟩
          rw [carried_ofNames hosne hos htsne hts has, carried_ofNames hosne hos htsne hts hbs,
            if_pos (List.prefix_append _ _), if_pos (List.prefix_append _ _), List.drop_left,
            List.drop_left, ofNames_inj (hall as has) (hall bs hbs), List.append_cancel_left_eq]
          rintro rfl
          exact hne rfl
      | false => simp [carried_of_not_under hbo]
  | false =>
      rw [carried_of_not_under hao]
      cases hbo : isUnder b origin with
      | true => simp [eq_comm]
      | false => simp [carried_of_not_under hbo, hne]

variable {d : Disk} {w : Workspace}

/-- A file move inside keeps the keys inside. -/
theorem KeysInside.moveFile (h : KeysInside w) {origin target : String}
    (horigin : Inside (w.key origin)) (htarget : Inside (w.key target)) :
    KeysInside (w.apply d (.moveFile origin target)) := by
  rcases apply_moveFile_cases d w origin target with ⟨-, happly⟩ | ⟨-, happly⟩
  · rw [happly]
    refine { h with moves := fun n hn => ?_, saves := fun k hk => ?_ }
    · -- The move was there before, goes on from an earlier one, or is new.
      rcases mem_movedMoves hn with hn | ⟨hsnd, ⟨m, hm, heq⟩ | ⟨heq, -⟩⟩
      · exact h.moves n hn
      · exact ⟨heq ▸ (h.moves m hm).1, hsnd ▸ htarget⟩
      · exact ⟨heq ▸ horigin, hsnd ▸ htarget⟩
    · unfold withMove movedSaves at hk
      simp only at hk
      split at hk
      · rcases (KeySet.mem_insert _ _ _).mp hk with rfl | hk
        · exact htarget
        · exact h.saves k ((KeySet.mem_erase _ _ _).mp hk).1
      · exact h.saves k hk
  · rw [happly]
    exact h

/-- A directory move inside keeps the keys inside. -/
theorem KeysInside.moveDir (h : KeysInside w) {origin target : String}
    (horigin : Inside (w.key origin)) (htarget : Inside (w.key target)) :
    KeysInside (w.apply d (.moveDir origin target)) := by
  rcases apply_moveDir_cases d w origin target with ⟨-, happly⟩ | ⟨-, happly⟩
  · have hcarried : ∀ k, Inside k → Inside (carried (w.key origin) (w.key target) k) :=
      fun k => inside_carried horigin htarget
    rw [happly]
    refine ⟨fun n hn => ?_, fun n hn => ?_, fun k hk => ?_, fun k hk => ?_⟩
    · obtain ⟨m, hm, rfl⟩ := List.mem_map.mp hn
      exact ⟨hcarried _ (h.moves m hm).1, hcarried _ (h.moves m hm).2⟩
    · rcases mem_movedDirMoves hn with hn | ⟨hsnd, ⟨m, hm, heq⟩ | heq⟩
      · exact h.dirMoves n hn
      · exact ⟨heq ▸ (h.dirMoves m hm).1, hsnd ▸ htarget⟩
      · exact ⟨heq ▸ horigin, hsnd ▸ htarget⟩
    · obtain ⟨j, hj, rfl⟩ := (Table.mem_keys_mapKeys _ _ _).mp hk
      exact hcarried j (h.deletions j hj)
    · obtain ⟨j, hj, rfl⟩ := (KeySet.mem_map _ _ _).mp hk
      exact hcarried j (h.saves j hj)
  · rw [happly]
    exact h

/-- A deletion inside keeps the keys inside. -/
theorem KeysInside.delete (h : KeysInside w) {path : String} (hkey : Inside (w.key path))
    (mode : DeleteMode) : KeysInside (w.apply d (.delete path mode)) := by
  obtain ⟨deletions, hdelete, hkeys⟩ := w.delete_eq d path mode
  rw [Workspace.apply, hdelete]
  refine ⟨fun m hm => ?_, h.dirMoves, fun k hk => ?_, fun k hk => ?_⟩
  · exact h.moves m (List.mem_filter.mp hm).1
  · rcases (hkeys k).mp hk with hk | ⟨m, hm, rfl⟩ | ⟨rfl, -⟩
    · exact h.deletions k hk
    · exact (h.moves m (List.mem_filter.mp hm).1).1
    · exact hkey
  · exact h.saves k ((KeySet.mem_filter _ _ _).mp hk).1

/-- A call that names keys inside keeps the keys inside. -/
theorem KeysInside.apply (h : KeysInside w) {c : Call}
    (hpaths : ∀ p ∈ c.paths, Inside (w.key p)) : KeysInside (w.apply d c) := by
  -- What is staged is no longer deleted.
  have herase : ∀ key, ∀ k ∈ (w.deletions.erase key).keys, Inside k :=
    fun key k hk => h.deletions k ((Table.mem_keys_erase _ _ _).mp hk).1
  cases c with
  | put path text => exact { h with deletions := herase _ }
  | save path text =>
      refine { h with deletions := herase _, saves := fun k hk => ?_ }
      rcases (KeySet.mem_insert _ _ _).mp hk with rfl | hk
      · exact hpaths path (by simp [Call.paths])
      · exact h.saves k hk
  | mkdir path => exact { h with deletions := herase _ }
  | delete path mode => exact h.delete (hpaths path (by simp [Call.paths])) mode
  | moveFile origin target =>
      exact h.moveFile (hpaths origin (by simp [Call.paths])) (hpaths target (by simp [Call.paths]))
  | moveDir origin target =>
      exact h.moveDir (hpaths origin (by simp [Call.paths])) (hpaths target (by simp [Call.paths]))
  | content path =>
      rcases apply_content_cases d w path with ⟨text, -, happly⟩ | happly
      · rw [happly]
        exact { h with }
      · rw [happly]
        exact h
  | invalidate path =>
      rw [Workspace.apply, invalidate]
      split
      · exact h
      · exact { h with }

/-- A run of calls that name keys inside keeps the keys inside. -/
theorem keysInside_run (hw : KeysInside w) {calls : List Call}
    (hpaths : ∀ c ∈ calls, ∀ p ∈ c.paths, Inside (w.key p)) : KeysInside (w.run d calls) := by
  refine run_induction_root (fun v hroot hv c hc => hv.apply fun p hp => ?_) hw
  rw [key_congr hroot]
  exact hpaths c hc p hp

/-! ### Texts and directories -/

/-- The staged texts and directories are inside the project. -/
structure StagedInside (w : Workspace) : Prop where
  /-- Texts are inside. -/
  texts : ∀ k ∈ w.texts.keys, Inside k
  /-- Directories are created inside. -/
  dirs : ∀ k ∈ w.dirs.toList, Inside k

/-- A new workspace stages nothing. -/
theorem stagedInside_ofFilter (root : String) (settings : Settings) (filter : PathFilter) :
    StagedInside (ofFilter root settings filter) where
  texts := fun k hk => by cases hk
  dirs := fun k hk => by cases hk

/-- A key within is its own key. -/
theorem key_within (w : Workspace) {key : String} (h : Within key) : w.key key = key := by
  obtain ⟨names, hnames, rfl⟩ := h
  rw [Workspace.key, isFromRoot_ofNames hnames, if_neg (by simp), normalize_ofNames hnames]

/-- A file move inside stages keys inside. -/
theorem StagedInside.moveFile (h : StagedInside w) {origin target : String}
    (htarget : Inside (w.key target)) : StagedInside (w.apply d (.moveFile origin target)) := by
  rcases apply_moveFile_cases d w origin target with ⟨-, happly⟩ | ⟨-, happly⟩
  · rw [happly]
    refine { h with texts := fun k hk => ?_ }
    unfold withMove movedTexts at hk
    simp only at hk
    split at hk
    · -- The text of the file goes along.
      rcases (Table.mem_keys_insert _ _ _ _).mp hk with rfl | hk
      · exact htarget
      · exact h.texts k ((Table.mem_keys_erase _ _ _).mp hk).1
    · exact h.texts k hk
  · rw [happly]
    exact h

/-- A directory move inside stages keys inside. -/
theorem StagedInside.moveDir (h : StagedInside w) {origin target : String}
    (horigin : Inside (w.key origin)) (htarget : Inside (w.key target)) :
    StagedInside (w.apply d (.moveDir origin target)) := by
  rcases apply_moveDir_cases d w origin target with ⟨-, happly⟩ | ⟨-, happly⟩
  · rw [happly]
    refine ⟨fun k hk => ?_, fun k hk => ?_⟩
    · obtain ⟨j, hj, rfl⟩ := (Table.mem_keys_mapKeys _ _ _).mp hk
      exact inside_carried horigin htarget (h.texts j hj)
    · obtain ⟨j, hj, rfl⟩ := (KeySet.mem_map _ _ _).mp hk
      exact inside_carried horigin htarget (h.dirs j hj)
  · rw [happly]
    exact h

/-- A call that names keys inside stages keys inside. -/
theorem StagedInside.apply (h : StagedInside w) {c : Call}
    (hpaths : ∀ p ∈ c.paths, Inside (w.key p)) : StagedInside (w.apply d c) := by
  -- Three calls stage a text, each at a key inside.
  have htexts : ∀ {key text}, Inside key → ∀ k ∈ (w.texts.insert key text).keys, Inside k := by
    intro key text hkey k hk
    rcases (Table.mem_keys_insert _ _ _ _).mp hk with rfl | hk
    · exact hkey
    · exact h.texts k hk
  cases c with
  | put path text => exact { h with texts := htexts (hpaths path (by simp [Call.paths])) }
  | save path text =>
      have hkey := hpaths path (by simp [Call.paths])
      rw [apply_save (w.key_within hkey.within)]
      exact { h with texts := htexts hkey }
  | mkdir path =>
      refine { h with dirs := fun k hk => ?_ }
      rcases (KeySet.mem_insert _ _ _).mp hk with rfl | hk
      · exact hpaths path (by simp [Call.paths])
      · exact h.dirs k hk
  | delete path mode =>
      obtain ⟨deletions, hdelete, -⟩ := w.delete_eq d path mode
      rw [Workspace.apply, hdelete]
      exact ⟨fun k hk => h.texts k ((Table.mem_keys_filterKeys _ _ _).mp hk).1,
        fun k hk => h.dirs k ((KeySet.mem_filter _ _ _).mp hk).1⟩
  | moveFile origin target => exact h.moveFile (hpaths target (by simp [Call.paths]))
  | moveDir origin target =>
      exact h.moveDir (hpaths origin (by simp [Call.paths])) (hpaths target (by simp [Call.paths]))
  | content path =>
      rcases apply_content_cases d w path with ⟨text, -, happly⟩ | happly
      · rw [happly]
        exact { h with texts := htexts (hpaths path (by simp [Call.paths])) }
      · rw [happly]
        exact h
  | invalidate path =>
      rw [Workspace.apply, invalidate]
      split
      · exact h
      · exact { h with texts := fun k hk => h.texts k ((Table.mem_keys_erase _ _ _).mp hk).1 }

/-- A run of calls that name keys inside stages keys inside. -/
theorem stagedInside_run (hw : StagedInside w) {calls : List Call}
    (hpaths : ∀ c ∈ calls, ∀ p ∈ c.paths, Inside (w.key p)) : StagedInside (w.run d calls) := by
  refine run_induction_root (fun v hroot hv c hc => hv.apply fun p hp => ?_) hw
  rw [key_congr hroot]
  exact hpaths c hc p hp

end ScriptRefactor.Workspace
