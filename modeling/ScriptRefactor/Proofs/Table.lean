import Mathlib.Data.List.Induction
import Mathlib.Data.List.Sort
import Mathlib.Tactic.SplitIfs
import Mathlib.Tactic.Tauto
import ScriptRefactor.Table

/-!
# `ScriptRefactor.Proofs.Table`: what a table holds

Lookup after each operation of `Table`, and membership after each
operation of `KeySet`. Most of the lemmas do not ask for the order of
the keys: an insertion looks for its key from the front, like a lookup.

Each operation keeps the keys in ascending order (`IsAscending`), so
each key is there once. That counts where all keys are changed
(`Table.find?_mapKeys`), and where a set is known by its members
(`KeySet.pairwise_ofList`).
-/

set_option autoImplicit false

namespace ScriptRefactor

namespace Table

variable {α : Type} (t : Table α)

/-! ### Lookup -/

/-- The empty table has no keys. -/
@[simp]
theorem contains_empty (k : String) : (empty : Table α).contains k = false := rfl

/-- A table contains the keys under which it holds a value. -/
theorem contains_eq_isSome (k : String) : t.contains k = (t.find? k).isSome := by
  rw [contains, find?, Option.isSome_map, List.isSome_find?]

/-- A table contains a key in its list of keys. -/
theorem contains_iff_mem_keys (k : String) : t.contains k = true ↔ k ∈ t.keys := by
  simp [contains, keys]

/-- Lookup among entries after an insertion. -/
theorem find?_insertEntry (k q : String) (v : α) (es : List (String × α)) :
    ((insertEntry k v es).find? fun e => e.1 = q).map Prod.snd =
      if q = k then some v else (es.find? fun e => e.1 = q).map Prod.snd := by
  induction es with
  | nil => by_cases h : k = q <;> simp [insertEntry, h, eq_comm]
  | cons e es ih =>
      -- The new entry goes before the first larger key, and replaces an equal one.
      rw [insertEntry]
      by_cases hlt : k < e.1
      · rw [if_pos hlt]
        by_cases hq : k = q <;> simp [hq, eq_comm]
      · rw [if_neg hlt]
        by_cases heq : k = e.1
        · rw [if_pos heq]
          by_cases hq : k = q
          · simp [hq]
          · have he : e.1 ≠ q := heq ▸ hq
            simp [hq, he, Ne.symm hq]
        · rw [if_neg heq]
          by_cases he : e.1 = q
          · have hq : q ≠ k := he ▸ Ne.symm heq
            simp [he, hq]
          · simpa [he] using ih

/-- Lookup after an insertion. -/
theorem find?_insert (k q : String) (v : α) :
    (t.insert k v).find? q = if q = k then some v else t.find? q :=
  find?_insertEntry k q v t.entries

/-- Lookup of another key than the inserted one. -/
theorem find?_insert_of_ne {k q : String} (h : q ≠ k) (v : α) :
    (t.insert k v).find? q = t.find? q := by
  rw [find?_insert, if_neg h]

/-- Lookup among the keys that were kept. -/
theorem find?_filterKeys (p : String → Bool) (q : String) :
    (t.filterKeys p).find? q = if p q then t.find? q else none := by
  rw [filterKeys, find?, List.find?_filter, find?]
  by_cases hq : p q = true
  · rw [if_pos hq]
    congr 2
    funext e
    by_cases he : e.1 = q <;> simp [he, hq]
  · rw [if_neg hq, Option.map_eq_none_iff, List.find?_eq_none]
    intro e _ he
    simp only [decide_eq_true_eq] at he
    exact hq (he.2 ▸ he.1)

/-- Lookup after a key was erased. -/
theorem find?_erase (k q : String) :
    (t.erase k).find? q = if q = k then none else t.find? q := by
  rw [erase, find?_filterKeys]
  by_cases h : q = k <;> simp [h]

/-! ### Keys -/

/-- The empty table has no keys. -/
@[simp]
theorem keys_empty : (empty : Table α).keys = [] := rfl

/-- The keys are those under which a value is found. -/
theorem mem_keys_iff_find? (k : String) : k ∈ t.keys ↔ ∃ v, t.find? k = some v := by
  rw [← contains_iff_mem_keys, contains_eq_isSome, Option.isSome_iff_exists]

/-- Under other keys no value is found. -/
theorem find?_eq_none_iff (k : String) : t.find? k = none ↔ k ∉ t.keys := by
  rw [mem_keys_iff_find?, Option.eq_none_iff_forall_ne_some, not_exists]

/-- The keys after an insertion. -/
theorem mem_keys_insert (k q : String) (v : α) :
    q ∈ (t.insert k v).keys ↔ q = k ∨ q ∈ t.keys := by
  simp only [← contains_iff_mem_keys, contains_eq_isSome, find?_insert]
  by_cases h : q = k <;> simp [h]

/-- The keys that were kept. -/
theorem mem_keys_filterKeys (p : String → Bool) (q : String) :
    q ∈ (t.filterKeys p).keys ↔ q ∈ t.keys ∧ p q = true := by
  simp only [← contains_iff_mem_keys, contains_eq_isSome, find?_filterKeys]
  by_cases h : p q = true <;> simp [h]

/-- The keys after one was erased. -/
theorem mem_keys_erase (k q : String) : q ∈ (t.erase k).keys ↔ q ∈ t.keys ∧ q ≠ k := by
  rw [erase, mem_keys_filterKeys, decide_eq_true_eq]

/-- The keys after many insertions. -/
theorem mem_keys_foldl_insert {β : Type} (f : β → String) (v : β → α) (bs : List β) (q : String) :
    q ∈ (bs.foldl (fun u b => u.insert (f b) (v b)) t).keys ↔
      q ∈ t.keys ∨ ∃ b ∈ bs, f b = q := by
  induction bs generalizing t with
  | nil => simp
  | cons b bs ih =>
      rw [List.foldl_cons, ih, mem_keys_insert]
      simp only [List.mem_cons, exists_eq_or_imp, eq_comm (a := q) (b := f b)]
      tauto

/-- The keys after every key was changed. -/
theorem mem_keys_mapKeys (f : String → String) (q : String) :
    q ∈ (t.mapKeys f).keys ↔ ∃ k ∈ t.keys, f k = q := by
  rw [mapKeys, mem_keys_foldl_insert (empty : Table α) (fun e : String × α => f e.1) (fun e => e.2),
    keys_empty]
  simp [keys]

end Table

namespace KeySet

variable (s : KeySet)

/-! ### Members of key sets -/

/-- A key set contains the keys of its list. -/
theorem contains_iff (k : String) : s.contains k = true ↔ k ∈ s.toList := by
  simp [contains]

/-- The empty set has no members. -/
@[simp]
theorem contains_empty (k : String) : empty.contains k = false := rfl

/-- The keys of a list after an insertion. -/
theorem mem_insertKey (k q : String) (ks : List String) :
    q ∈ insertKey k ks ↔ q = k ∨ q ∈ ks := by
  induction ks with
  | nil => simp [insertKey]
  | cons l ls ih =>
      rw [insertKey]
      split_ifs with hlt heq
      · simp
      · simp [heq]
      · simp only [List.mem_cons, ih]
        tauto

/-- The members after an insertion. -/
theorem mem_insert (k q : String) : q ∈ (s.insert k).toList ↔ q = k ∨ q ∈ s.toList :=
  mem_insertKey k q s.toList

/-- The members that were kept. -/
theorem mem_filter (p : String → Bool) (q : String) :
    q ∈ (s.filter p).toList ↔ q ∈ s.toList ∧ p q = true :=
  List.mem_filter

/-- The members after one was erased. -/
theorem mem_erase (k q : String) : q ∈ (s.erase k).toList ↔ q ∈ s.toList ∧ q ≠ k := by
  rw [erase, mem_filter, decide_eq_true_eq]

/-- The members of the set of a list. -/
theorem mem_ofList (keys : List String) (q : String) : q ∈ (ofList keys).toList ↔ q ∈ keys := by
  have hfold : ∀ s : KeySet, q ∈ (keys.foldl insert s).toList ↔ q ∈ s.toList ∨ q ∈ keys := by
    induction keys with
    | nil => simp
    | cons k ks ih =>
        intro s
        rw [List.foldl_cons, ih, mem_insert, List.mem_cons]
        tauto
  rw [ofList, hfold]
  simp [empty]

/-- The members after every key was changed. -/
theorem mem_map (f : String → String) (q : String) :
    q ∈ (s.map f).toList ↔ ∃ k ∈ s.toList, f k = q := by
  rw [map, mem_ofList, List.mem_map]

/-! ### Order -/

/-- Of two texts that are not the same, one comes first. -/
theorem lt_of_not_lt {a b : String} (h : ¬ a < b) (hne : a ≠ b) : b < a := by
  by_contra hnot
  exact hne (String.le_antisymm (String.not_lt.mp hnot) (String.not_lt.mp h))

/-- A key goes between the smaller and the greater ones. -/
theorem pairwise_insertKey (k : String) {ks : List String} (h : ks.Pairwise (· < ·)) :
    (insertKey k ks).Pairwise (· < ·) := by
  induction ks with
  | nil => exact List.pairwise_singleton ..
  | cons l ls ih =>
      obtain ⟨hfirst, hrest⟩ := List.pairwise_cons.mp h
      rw [insertKey]
      split_ifs with hlt heq
      · refine List.pairwise_cons.mpr ⟨fun q hq => ?_, h⟩
        rcases List.mem_cons.mp hq with rfl | hq
        · exact hlt
        · exact String.lt_trans hlt (hfirst q hq)
      · exact h
      · refine List.pairwise_cons.mpr ⟨fun q hq => ?_, ih hrest⟩
        rcases (mem_insertKey k q ls).mp hq with rfl | hq
        · exact lt_of_not_lt hlt heq
        · exact hfirst q hq

/-- The set of a list is in ascending order. -/
theorem pairwise_ofList (keys : List String) : (ofList keys).toList.Pairwise (· < ·) := by
  have hfold : ∀ s : KeySet, s.toList.Pairwise (· < ·) →
      (keys.foldl insert s).toList.Pairwise (· < ·) := by
    induction keys with
    | nil => exact fun s hs => hs
    | cons k ks ih => exact fun s hs => ih _ (pairwise_insertKey k hs)
  exact hfold empty List.Pairwise.nil

/-- Sets in ascending order are known by their members. -/
theorem ext_of_pairwise {s u : KeySet} (hs : s.toList.Pairwise (· < ·))
    (hu : u.toList.Pairwise (· < ·)) (h : ∀ k, k ∈ s.toList ↔ k ∈ u.toList) : s = u := by
  obtain ⟨ks⟩ := s
  obtain ⟨ls⟩ := u
  exact congrArg mk (List.Pairwise.eq_of_mem_iff hs hu h)

end KeySet

namespace Table

variable {α : Type} {t : Table α}

/-- The keys are in ascending order. -/
def IsAscending (t : Table α) : Prop := t.keys.Pairwise (· < ·)

/-- The empty table has no keys. -/
theorem isAscending_empty : (empty : Table α).IsAscending := List.Pairwise.nil

/-- A value goes between the smaller and the greater keys. -/
theorem IsAscending.insert (h : t.IsAscending) (k : String) (v : α) :
    (t.insert k v).IsAscending := by
  have hkeys : ∀ es : List (String × α),
      (insertEntry k v es).map Prod.fst = KeySet.insertKey k (es.map Prod.fst) := by
    intro es
    induction es with
    | nil => rfl
    | cons e es ih =>
        rw [insertEntry, List.map_cons, KeySet.insertKey, ← ih]
        split_ifs with hlt heq
        · rfl
        · rw [heq, List.map_cons]
        · rfl
  show ((insertEntry k v t.entries).map Prod.fst).Pairwise (· < ·)
  rw [hkeys]
  exact KeySet.pairwise_insertKey k h

/-- Some of the keys. -/
theorem IsAscending.filterKeys (h : t.IsAscending) (p : String → Bool) :
    (t.filterKeys p).IsAscending :=
  List.Pairwise.sublist (List.filter_sublist.map Prod.fst) h

/-- Changed keys are put in order again. -/
theorem isAscending_mapKeys (t : Table α) (f : String → String) : (t.mapKeys f).IsAscending := by
  have hfold : ∀ u : Table α, u.IsAscending →
      (t.entries.foldl (fun u e => u.insert (f e.1) e.2) u).IsAscending := by
    induction t.entries with
    | nil => exact fun u hu => hu
    | cons e es ih => exact fun u hu => ih _ (hu.insert (f e.1) e.2)
  exact hfold empty isAscending_empty

/-- A value is found under the key that it is kept with. -/
theorem IsAscending.mem_entries_iff (h : t.IsAscending) {k : String} {v : α} :
    (k, v) ∈ t.entries ↔ t.find? k = some v := by
  obtain ⟨es⟩ := t
  rw [find?, Option.map_eq_some_iff]
  constructor
  · intro hmem
    obtain ⟨e, he⟩ : ∃ e, es.find? (fun e => e.1 = k) = some e :=
      Option.isSome_iff_exists.mp (List.find?_isSome.mpr ⟨(k, v), hmem, by simp⟩)
    have hkey : e.1 = k := by simpa using List.find?_some he
    have hnodup : (es.map Prod.fst).Nodup := h.imp fun hlt => (String.ne_of_lt hlt)
    exact ⟨e, he, congrArg Prod.snd
      (List.inj_on_of_nodup_map hnodup (List.mem_of_find?_eq_some he) hmem hkey)⟩
  · rintro ⟨e, he, rfl⟩
    have hkey : e.1 = k := by simpa using List.find?_some he
    exact hkey ▸ List.mem_of_find?_eq_some he

/-- Tables in ascending order are known by what they hold. -/
theorem IsAscending.ext {u : Table α} (ht : t.IsAscending) (hu : u.IsAscending)
    (h : ∀ k, t.find? k = u.find? k) : t = u := by
  have hmem : ∀ e, e ∈ t.entries ↔ e ∈ u.entries := fun e => by
    rw [ht.mem_entries_iff, hu.mem_entries_iff, h]
  obtain ⟨es⟩ := t
  obtain ⟨fs⟩ := u
  have hes : es.Pairwise fun a b => a.1 < b.1 := List.pairwise_map.mp ht
  have hfs : fs.Pairwise fun a b => a.1 < b.1 := List.pairwise_map.mp hu
  have hirrefl : Std.Irrefl fun a b : String × α => a.1 < b.1 := ⟨fun a => String.lt_irrefl a.1⟩
  have hantisymm : Std.Antisymm fun a b : String × α => a.1 < b.1 :=
    ⟨fun a b hab hba => absurd (String.lt_trans hab hba) (String.lt_irrefl a.1)⟩
  exact congrArg mk (List.Pairwise.eq_of_mem_iff hes hfs hmem)

/-- Keys that stay different take their values along. -/
theorem find?_mapKeys (h : t.IsAscending) {f : String → String}
    (hinj : ∀ a ∈ t.keys, ∀ b ∈ t.keys, f a = f b → a = b) {k : String} (hk : k ∈ t.keys) :
    (t.mapKeys f).find? (f k) = t.find? k := by
  obtain ⟨es⟩ := t
  -- From the right, so that the last key inserted is looked up first.
  induction es using List.reverseRecOn with
  | nil => cases hk
  | append_singleton es e ih =>
      have hkeys : (⟨es ++ [e]⟩ : Table α).keys = (⟨es⟩ : Table α).keys ++ [e.1] := by simp [keys]
      rw [IsAscending, hkeys, List.pairwise_append] at h
      rw [hkeys] at hinj hk
      have hlast : (⟨es ++ [e]⟩ : Table α).mapKeys f =
          ((⟨es⟩ : Table α).mapKeys f).insert (f e.1) e.2 := by
        simp [mapKeys]
      rw [hlast, find?_insert]
      by_cases hke : k = e.1
      · have hfirst : (⟨es⟩ : Table α).find? k = none := (find?_eq_none_iff _ k).mpr
          fun hmem => String.lt_irrefl _ (hke ▸ h.2.2 k hmem e.1 (by simp))
        rw [if_pos (hke ▸ rfl), find?, List.find?_append]
        rw [find?, Option.map_eq_none_iff] at hfirst
        rw [hfirst]
        simp [hke]
      · have hmem : k ∈ (⟨es⟩ : Table α).keys := by simpa [hke] using hk
        have hne : f k ≠ f e.1 := fun heq => hke (hinj k hk e.1 (by simp) heq)
        rw [if_neg hne, ih h.1 (fun a ha b hb => hinj a (by simp [ha]) b (by simp [hb])) hmem,
          find?, find?, List.find?_append]
        simp [Ne.symm hke]

end Table

end ScriptRefactor
