import ScriptRefactor.Proofs.Disk
import ScriptRefactor.Proofs.Path.Names
import ScriptRefactor.Workspace.Basic

/-!
# `ScriptRefactor.Proofs.Workspace.Place`: keys and their places

A key that does not lead out of the project is a list of names
(`exists_names_of_key`). Its place is that of the root of the project,
with the names behind it (`place_ofNames`). So keys inside the project
have different places (`place_ofNames_inj`), and a place lies below
another one exactly if the key does (`prefix_place_iff`).
-/

set_option autoImplicit false

namespace ScriptRefactor.Workspace

open ScriptRefactor.Path Text

variable (w : Workspace)

/-- A key is in normal form. -/
theorem exists_key_eq_normalize (path : String) : ∃ q, w.key path = normalize q := by
  unfold key
  split
  · split
    · exact ⟨_, rfl⟩
    · exact ⟨_, rfl⟩
  · exact ⟨_, rfl⟩

/-- A key that does not lead out of the project is a list of names. -/
theorem exists_names_of_key {path : String} (h : leaves (w.key path) = false) :
    ∃ names, (∀ n ∈ names, IsName n) ∧ w.key path = ofNames names := by
  obtain ⟨q, hq⟩ := exists_key_eq_normalize w path
  rw [hq] at h ⊢
  exact exists_names_of_normalize h

/-- A key that does not lead out of the project is its own key. -/
theorem key_key {path : String} (h : leaves (w.key path) = false) :
    w.key (w.key path) = w.key path := by
  obtain ⟨names, hnames, hkey⟩ := exists_names_of_key w h
  rw [hkey, key, isFromRoot_ofNames hnames, if_neg (by simp), normalize_ofNames hnames]

/-- The full path of names has the segments of the root, perhaps an
empty one, and the names. -/
theorem exists_splitOn_fullPath {names : List (List Char)} (h : ∀ n ∈ names, IsName n) :
    ∃ rootSegments, (rootSegments ++ [[]] = splitOn '/' w.root.toList ∨
        rootSegments = splitOn '/' w.root.toList) ∧
      splitOn '/' (w.fullPath (ofNames names)).toList =
        rootSegments ++ splitOn '/' (joinWith ['/'] names) := by
  rw [fullPath, isFromRoot_ofNames h, if_neg (by simp)]
  split
  · -- The root ends with a separator, behind which its last segment is empty.
    rename_i hends
    rw [endsWith, startsWith, Option.isSome_iff_exists] at hends
    obtain ⟨rest, hrest⟩ := hends
    rw [afterPrefix?_eq_some_iff, List.reverse_eq_iff, List.reverse_append, List.reverse_reverse]
      at hrest
    refine ⟨splitOn '/' rest.reverse, .inl ?_, ?_⟩
    · rw [hrest, splitOn_append]
      rfl
    · rw [String.toList_append, hrest, ofNames, String.toList_ofList, List.append_assoc,
        List.singleton_append, splitOn_append]
  · refine ⟨_, .inr rfl, ?_⟩
    have hpath : (w.root ++ "/" ++ ofNames names).toList =
        w.root.toList ++ '/' :: joinWith ['/'] names := by
      simp [ofNames]
    rw [hpath, splitOn_append]

/-- The place of names lies below that of the root of the project. -/
theorem place_ofNames {names : List (List Char)} (h : ∀ n ∈ names, IsName n) :
    w.place (ofNames names) = Place.ofPath w.root ++ names.map String.ofList := by
  obtain ⟨rootSegments, hroot, hsplit⟩ := exists_splitOn_fullPath w h
  have hkept : rootSegments.foldl (keepSegment true) [] =
      (splitOn '/' w.root.toList).foldl (keepSegment true) [] := by
    rcases hroot with hroot | hroot
    · rw [← hroot, List.foldl_append]
      simp [keepSegment]
    · rw [hroot]
  rw [place, Place.ofPath, hsplit, List.foldl_append, hkept, foldl_keepSegment_splitOn true h,
    Place.ofPath, List.reverse_append, List.reverse_reverse, List.map_append]

/-- The place of more names lies below that of the first ones. -/
theorem place_ofNames_append {a b : List (List Char)} (ha : ∀ n ∈ a, IsName n)
    (hb : ∀ n ∈ b, IsName n) :
    w.place (ofNames (a ++ b)) = w.place (ofNames a) ++ b.map String.ofList := by
  rw [place_ofNames w (List.forall_mem_append.mpr ⟨ha, hb⟩), place_ofNames w ha,
    List.map_append, List.append_assoc]

/-- Names are told apart as texts. -/
theorem map_ofList_injective :
    Function.Injective (List.map String.ofList : List (List Char) → Place) :=
  List.map_injective_iff.mpr fun _ _ h => String.ofList_injective h

/-- The place of a key inside the project lies at or below that of
another one exactly if the key does. -/
theorem prefix_place_ofNames {a b : List (List Char)} (ha : ∀ n ∈ a, IsName n)
    (hb : ∀ n ∈ b, IsName n) : w.place (ofNames b) <+: w.place (ofNames a) ↔ b <+: a := by
  rw [place_ofNames w ha, place_ofNames w hb, List.prefix_append_right_inj]
  constructor
  · intro h
    rw [List.prefix_iff_eq_take, ← List.map_take, List.length_map] at h
    rw [List.prefix_iff_eq_take]
    exact map_ofList_injective h
  · exact fun h => h.map _

/-- Keys inside the project have different places. -/
theorem place_ofNames_inj {a b : List (List Char)} (ha : ∀ n ∈ a, IsName n)
    (hb : ∀ n ∈ b, IsName n) : w.place (ofNames a) = w.place (ofNames b) ↔ a = b := by
  rw [place_ofNames w ha, place_ofNames w hb, List.append_cancel_left_eq]
  exact map_ofList_injective.eq_iff

/-- Keys within have places of their own. -/
theorem place_inj {a b : String} (ha : Within a) (hb : Within b) :
    w.place a = w.place b ↔ a = b := by
  obtain ⟨as, has, rfl⟩ := ha
  obtain ⟨bs, hbs, rfl⟩ := hb
  rw [w.place_ofNames_inj has hbs, ofNames_inj has hbs]

/-- The place of a key inside is below the top. -/
theorem place_ne_nil {key : String} (h : Inside key) : w.place key ≠ [] := by
  obtain ⟨names, hne, hnames, rfl⟩ := h
  rw [w.place_ofNames hnames]
  simp [hne]

/-- The place of a key is at or below that of another one exactly if the
key is. -/
theorem prefix_place_iff {a b : String} (ha : Within a) (hb : Within b) :
    w.place b <+: w.place a ↔ isUnder a b = true := by
  obtain ⟨as, has, rfl⟩ := ha
  obtain ⟨bs, hbs, rfl⟩ := hb
  rw [w.prefix_place_ofNames has hbs, isUnder_ofNames has hbs]

end ScriptRefactor.Workspace
