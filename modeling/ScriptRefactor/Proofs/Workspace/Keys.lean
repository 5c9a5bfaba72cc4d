import ScriptRefactor.Proofs.Path.Normal
import ScriptRefactor.Proofs.Table
import ScriptRefactor.Proofs.Workspace.FlushFiles
import ScriptRefactor.Proofs.Workspace.Run

/-!
# `ScriptRefactor.Proofs.Workspace.Keys`: the keys of paths

A key should be its own key, and depend on the normal form of a path
alone. `key_ofRoot` tells why it need not: the key of a path is found on
its segments as they are written, before it is brought into normal form.
So a path that only leads into the project in normal form keeps its key
from the root of the file system, and that key has another one
(`key_key_iff`).

Paths that do not start at the root, and plain ones, have the key of
their normal form (`key_normalize_of_not_startsAtRoot`,
`key_normalize_of_isPlain`). Every other normal form has paths of
different keys (`exists_other_key`).
-/

set_option autoImplicit false

namespace ScriptRefactor.Workspace

open ScriptRefactor.Path Text

variable (w : Workspace)

/-! ### Segments -/

/-- What follows some segments. -/
theorem afterSegments?_eq_some_iff {front segments rest : List (List Char)} :
    afterSegments? front segments = some rest ↔ segments = front ++ rest := by
  induction front generalizing segments with
  | nil => simp [afterSegments?, eq_comm]
  | cons r front ih =>
      cases segments with
      | nil => simp [afterSegments?]
      | cons s segments =>
          rw [afterSegments?]
          split
          · rename_i h
            simp [ih, h]
          · rename_i h
            simp [Ne.symm h]

/-- The segments of names joined are the names. -/
theorem filter_splitOn_joinWith {segments : List (List Char)}
    (h : ∀ s ∈ segments, (s ≠ [] ∧ s ≠ ['.']) ∧ '/' ∉ s) :
    (splitOn '/' (joinWith ['/'] segments)).filter (fun s => s ≠ [] ∧ s ≠ ['.']) = segments := by
  by_cases hnil : segments = []
  · rw [hnil]
    rfl
  · rw [splitOn_joinWith hnil fun s hs => (h s hs).2, List.filter_eq_self]
    exact fun s hs => decide_eq_true (h s hs).1

/-- The segments of a path from the root. -/
theorem pathSegments_ofRoot {names : List (List Char)} (h : ∀ s ∈ names, IsName s) :
    pathSegments (ofRoot names) = names := by
  have hcut : splitOn '/' ('/' :: joinWith ['/'] names) =
      [] :: splitOn '/' (joinWith ['/'] names) := splitOn_append '/' [] _
  rw [pathSegments, ofRoot, String.toList_ofList, hcut, List.filter_cons_of_neg (by simp)]
  exact filter_splitOn_joinWith fun s hs => ⟨⟨(h s hs).1.1, (h s hs).1.2.1⟩, (h s hs).2.1⟩

/-! ### The key of a key -/

/-- The path starts at the root of the file system, and leads into the
project by its segments. -/
def leadsInside (path : String) : Bool :=
  isFromRoot path.toList && (afterSegments? (pathSegments w.root) (pathSegments path)).isSome

/-- The key of a path from the root whose segments lead into the
project. -/
theorem key_of_append {path : String} {rest : List (List Char)}
    (hroot : isFromRoot path.toList = true) (h : pathSegments path = pathSegments w.root ++ rest) :
    w.key path = normalize (ofNames rest) := by
  rw [key, if_pos hroot, afterSegments?_eq_some_iff.mpr h]
  rfl

/-- The key of a path that does not lead into the project by its
segments. -/
theorem key_of_not_leadsInside {path : String} (h : w.leadsInside path = false) :
    w.key path = normalize path := by
  rw [leadsInside, Bool.and_eq_false_iff] at h
  rw [key]
  split
  · rename_i hroot
    have hnone := h.resolve_left (by simp [hroot])
    rw [Option.isSome_eq_false_iff, Option.isNone_iff_eq_none] at hnone
    rw [hnone]
  · rfl

/-- The key of a path from the root through names. -/
theorem key_ofRoot {names : List (List Char)} (h : ∀ s ∈ names, IsName s) :
    (∃ rest, names = pathSegments w.root ++ rest ∧ w.leadsInside (ofRoot names) = true ∧
        w.key (ofRoot names) = ofNames rest) ∨
      (w.leadsInside (ofRoot names) = false ∧ w.key (ofRoot names) = ofRoot names) := by
  cases hafter : afterSegments? (pathSegments w.root) names with
  | some rest =>
      have hnames := afterSegments?_eq_some_iff.mp hafter
      refine .inl ⟨rest, hnames, ?_, ?_⟩
      · rw [leadsInside, isFromRoot_ofRoot, pathSegments_ofRoot h, hafter]
        rfl
      · rw [w.key_of_append (isFromRoot_ofRoot names) ((pathSegments_ofRoot h).trans hnames)]
        exact normalize_ofNames fun s hs => h s (hnames ▸ List.mem_append_right _ hs)
  | none =>
      have hout : w.leadsInside (ofRoot names) = false := by
        rw [leadsInside, pathSegments_ofRoot h, hafter, Option.isSome_none, Bool.and_false]
      exact .inr ⟨hout, (w.key_of_not_leadsInside hout).trans (normalize_ofRoot h)⟩

/-- The key of a path in normal form is the path itself exactly if that
does not lead into the project from the root. -/
theorem key_normalize_eq_iff (path : String) :
    w.key (normalize path) = normalize path ↔ w.leadsInside (normalize path) = false := by
  refine ⟨fun hkey => ?_, fun h => ?_⟩
  · obtain ⟨names, n, hnames, hnormal⟩ := normalize_cases path
    have hroot := isFromRoot_normalize path
    rw [hnormal] at hroot hkey ⊢
    cases hstart : startsAtRoot path with
    | false =>
        rw [hstart] at hroot
        rw [leadsInside, hroot, Bool.false_and]
    | true =>
        rw [hstart, if_pos rfl] at hkey
        rw [if_pos rfl]
        rcases w.key_ofRoot hnames with ⟨rest, hrest, -, hinside⟩ | ⟨hout, -⟩
        · -- The key would not start at the root any more.
          have hnot := isFromRoot_ofNames fun s (hs : s ∈ rest) =>
            hnames s (hrest ▸ List.mem_append_right _ hs)
          rw [← hinside, hkey, isFromRoot_ofRoot] at hnot
          cases hnot
        · exact hout
  · rw [w.key_of_not_leadsInside h, normalize_normalize]

/-- A key is its own key exactly if it does not lead into the project from
the root of the file system. -/
theorem key_key_iff (path : String) :
    w.key (w.key path) = w.key path ↔ w.leadsInside (w.key path) = false := by
  obtain ⟨q, hq⟩ := w.exists_key_eq_normalize path
  rw [hq]
  exact w.key_normalize_eq_iff q

/-! ### Paths with one normal form -/

/-- A path that does not start at the root has the key of its normal form,
which is the normal form. -/
theorem key_normalize_of_not_startsAtRoot {path : String} (h : startsAtRoot path = false) :
    w.key path = normalize path ∧ w.key (normalize path) = normalize path := by
  have hroot : isFromRoot path.toList = false := by
    rw [startsAtRoot, isFromRoot, List.head?_map] at h
    rw [isFromRoot, decide_eq_false_iff_not]
    intro hslash
    rw [hslash] at h
    cases h
  refine ⟨?_, ?_⟩
  · rw [key, hroot, if_neg (by simp)]
  · rw [w.key_normalize_eq_iff, leadsInside, isFromRoot_normalize, h, Bool.false_and]

/-- A plain path from the root has the key of its normal form, and that is
its own key. -/
theorem key_normalize_of_isPlain {path : String} (h : IsPlain path) :
    w.key path = w.key (normalize path) ∧ w.leadsInside (w.key path) = false := by
  obtain ⟨hnames, hnormal⟩ := normalize_of_isPlain h
  have hsegments : pathSegments path =
      (splitOn '/' path.toList).filter fun s => s ≠ [] ∧ s ≠ ['.'] := rfl
  rw [← hsegments] at hnames hnormal
  rw [hnormal]
  rcases w.key_ofRoot hnames with ⟨rest, hrest, -, hinside⟩ | ⟨hout, houtside⟩
  · have hall : ∀ s ∈ rest, IsName s := fun s hs => hnames s (hrest ▸ List.mem_append_right _ hs)
    have hkey : w.key path = ofNames rest :=
      (w.key_of_append h.1 hrest).trans (normalize_ofNames hall)
    refine ⟨hkey.trans hinside.symm, ?_⟩
    rw [hkey, leadsInside, isFromRoot_ofNames hall, Bool.false_and]
  · have hkey : w.key path = ofRoot (pathSegments path) := by
      rw [leadsInside, isFromRoot_ofRoot, Bool.true_and, pathSegments_ofRoot hnames] at hout
      rw [← hnormal]
      refine w.key_of_not_leadsInside ?_
      rw [leadsInside, hout, Bool.and_false]
    refine ⟨hkey.trans houtside.symm, ?_⟩
    rw [hkey]
    exact hout

/-- As many steps up as there are names lead back to the root. -/
theorem foldl_keepSegment_up {kept : List (List Char)} (h : ∀ s ∈ kept, IsName s) :
    (List.replicate kept.length up).foldl (keepSegment true) kept = [] := by
  induction kept with
  | nil => rfl
  | cons last kept ih =>
      have hlast : last ≠ up := (h last (by simp)).1.2.2
      have hstep : keepSegment true (last :: kept) up = kept := by
        unfold keepSegment
        rw [if_neg (by decide), if_pos rfl]
        exact if_neg hlast
      rw [List.length_cons, List.replicate_succ, List.foldl_cons, hstep]
      exact ih fun s hs => h s (List.mem_cons_of_mem last hs)

/-- The path from the root of the file system through some segments, up
some times, and through names. -/
def detour (root : List (List Char)) (n : Nat) (names : List (List Char)) : String :=
  String.ofList ('/' :: joinWith ['/'] root ++ '/' :: joinWith ['/'] (List.replicate n up ++ names))

/-- The segments of a detour. -/
theorem pathSegments_detour {root : List (List Char)} (n : Nat) {names : List (List Char)}
    (hroot : ∀ s ∈ root, (s ≠ [] ∧ s ≠ ['.']) ∧ '/' ∉ s) (h : ∀ s ∈ names, IsName s) :
    pathSegments (detour root n names) = root ++ (List.replicate n up ++ names) := by
  have hcut : splitOn '/' ('/' :: joinWith ['/'] root) =
      [] :: splitOn '/' (joinWith ['/'] root) := splitOn_append '/' [] _
  have hback : ∀ s ∈ List.replicate n up ++ names, (s ≠ [] ∧ s ≠ ['.']) ∧ '/' ∉ s := by
    intro s hs
    rcases List.mem_append.mp hs with hup | hname
    · rw [List.eq_of_mem_replicate hup]
      decide
    · exact ⟨⟨(h s hname).1.1, (h s hname).1.2.1⟩, (h s hname).2.1⟩
  rw [pathSegments, detour, String.toList_ofList, splitOn_append, hcut, List.filter_append,
    List.filter_cons_of_neg (by simp), filter_splitOn_joinWith hroot, filter_splitOn_joinWith hback]

/-- A detour that goes up as often as its first segments lead down has the
normal form of its names. -/
theorem normalize_detour {root kept names : List (List Char)} (h : ∀ s ∈ names, IsName s)
    (hkept : ∀ s ∈ kept, IsName s)
    (hfold : (splitOn '/' (('/' :: joinWith ['/'] root).map separator)).foldl
      (keepSegment true) [] = kept) :
    normalize (detour root kept.length names) = ofRoot names := by
  have hsegments := segments_ups h kept.length
  -- The way up takes away all names of the front.
  have hpieces : (splitOn '/' (joinWith ['/'] (List.replicate kept.length up ++ names))).foldl
      (keepSegment true) kept = names.reverse := by
    by_cases hnil : List.replicate kept.length up ++ names = []
    · have hempty := List.append_eq_nil_iff.mp hnil
      have hkeptnil : kept = [] := by simpa using hempty.1
      rw [hnil, hempty.2, hkeptnil]
      rfl
    · rw [splitOn_joinWith hnil fun s hs => (hsegments s hs).2.1, List.foldl_append,
        foldl_keepSegment_up hkept, foldl_keepSegment_names true names h, List.append_nil]
  have hslash : separator '/' = '/' := rfl
  have hunified : ('/' :: joinWith ['/'] root ++
      '/' :: joinWith ['/'] (List.replicate kept.length up ++ names)).map separator =
        ('/' :: joinWith ['/'] root).map separator ++
          '/' :: joinWith ['/'] (List.replicate kept.length up ++ names) := by
    rw [List.map_append]
    congr 1
    rw [List.map_cons, hslash, map_separator (mem_joinWith_segments hsegments).1]
  have hfirst : isFromRoot (('/' :: joinWith ['/'] root).map separator ++
      '/' :: joinWith ['/'] (List.replicate kept.length up ++ names)) = true := rfl
  rw [Path.normalize, detour, String.toList_ofList, normalChars]
  simp only [hunified, hfirst, splitOn_append, List.foldl_append, hfold, hpieces,
    List.reverse_reverse]
  rfl

/-- To every path from the root there is a detour through the project: its
segments lead into the project and up out of it again. -/
theorem exists_detour (root : List (List Char)) {names : List (List Char)}
    (h : ∀ s ∈ names, IsName s) (hroot : ∀ s ∈ root, (s ≠ [] ∧ s ≠ ['.']) ∧ '/' ∉ s) :
    ∃ path n, isFromRoot path.toList = true ∧ normalize path = ofRoot names ∧
      pathSegments path = root ++ (List.replicate n up ++ names) := by
  obtain ⟨kept, m, hkept, hnoup, hfold⟩ := exists_names_of_foldl_keepSegment true
    (splitOn '/' (('/' :: joinWith ['/'] root).map separator))
    fun s => not_mem_of_mem_splitOn_separator
  rw [hnoup rfl, List.replicate_zero, List.append_nil] at hfold
  refine ⟨detour root kept.length names, kept.length, ?_, normalize_detour h hkept hfold,
    pathSegments_detour kept.length hroot h⟩
  rw [detour, String.toList_ofList]
  rfl

/-- A path that starts at the root shares its normal form with a path of
another key. -/
theorem exists_other_key {path : String} (h : startsAtRoot path = true) :
    ∃ p q, normalize p = normalize path ∧ normalize q = normalize path ∧ w.key p ≠ w.key q := by
  obtain ⟨names, n, hnames, hnormal⟩ := normalize_cases path
  rw [h, if_pos rfl] at hnormal
  have hself : normalize (ofRoot names) = normalize path := (normalize_ofRoot hnames).trans hnormal.symm
  rcases w.key_ofRoot hnames with ⟨rest, hrest, -, hinside⟩ | ⟨-, houtside⟩
  · -- With a backslash in front, the path is not looked for in the project.
    let other : String := String.ofList ('\\' :: joinWith ['/'] names)
    have hother : normalize other = ofRoot names := by
      rw [← normalize_ofRoot hnames, Path.normalize, Path.normalize, normalChars, normalChars]
      simp only [other, ofRoot, String.toList_ofList, List.map_cons]
      rfl
    have hkey : w.key other = ofRoot names := by
      have hslash : isFromRoot other.toList = false := by
        rw [String.toList_ofList]
        rfl
      rw [key, hslash, if_neg (by simp), hother]
    refine ⟨other, ofRoot names, hother.trans hnormal.symm, hself, fun heq => ?_⟩
    have hnot := isFromRoot_ofNames fun s (hs : s ∈ rest) =>
      hnames s (hrest ▸ List.mem_append_right _ hs)
    rw [← hinside, ← heq, hkey, isFromRoot_ofRoot] at hnot
    cases hnot
  · -- A detour through the project is seen from there.
    have hroot : ∀ s ∈ pathSegments w.root, (s ≠ [] ∧ s ≠ ['.']) ∧ '/' ∉ s := by
      intro s hs
      obtain ⟨hs, hstay⟩ := List.mem_filter.mp hs
      exact ⟨of_decide_eq_true hstay, (not_mem_of_mem_splitOn hs).1⟩
    obtain ⟨around, n, hfrom, haround, hsegments⟩ := exists_detour _ hnames hroot
    refine ⟨around, ofRoot names, haround.trans hnormal.symm, hself, fun heq => ?_⟩
    have hkey : w.key around = ofUps n names :=
      (w.key_of_append hfrom hsegments).trans (normalize_ofUps hnames n)
    have hnot := isFromRoot_ofUps hnames n
    rw [← hkey, heq, houtside, isFromRoot_ofRoot] at hnot
    cases hnot

end ScriptRefactor.Workspace
