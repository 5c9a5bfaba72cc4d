import ScriptRefactor.Proofs.Path.Names

/-!
# `ScriptRefactor.Proofs.Path.Normal`: paths in normal form

The normal form of a path starts at the root of the file system and goes
through names (`ofRoot`), or it goes up some times and then through names
(`normalize_cases`). Which of the two it is, is told by the first
character of the path (`isFromRoot_normalize`). Both are their own normal
forms, so that a normal form is brought into normal form without a change
(`normalize_normalize`).

A path is *plainly* written when it starts at the root with `/`, and
neither goes up nor has a backslash. Its names are its segments
(`normalize_of_isPlain`).
-/

set_option autoImplicit false

namespace ScriptRefactor.Path

open Text

/-! ### Two kinds of normal forms -/

/-- The path from the root of the file system through some names. -/
def ofRoot (names : List (List Char)) : String := String.ofList ('/' :: joinWith ['/'] names)

/-- The path that goes up some times and then through some names. -/
def ofUps (n : Nat) (names : List (List Char)) : String := ofNames (List.replicate n up ++ names)

/-- The path starts with a separator of either kind. -/
def startsAtRoot (path : String) : Bool := isFromRoot (path.toList.map separator)

/-- The normal form of a path: from the root of the file system, or from
the project and perhaps out of it. -/
theorem normalize_cases (path : String) :
    ∃ names n, (∀ s ∈ names, IsName s) ∧
      normalize path = if startsAtRoot path then ofRoot names else ofUps n names := by
  obtain ⟨names, n, hnames, hroot, hkept⟩ := exists_names_of_foldl_keepSegment
    (startsAtRoot path) (splitOn '/' (path.toList.map separator))
    fun s => not_mem_of_mem_splitOn_separator
  refine ⟨names.reverse, n, fun s hs => hnames s (List.mem_reverse.mp hs), ?_⟩
  rw [startsAtRoot] at hroot hkept ⊢
  rw [normalize, normalChars]
  simp only [hkept, List.reverse_append, List.reverse_replicate]
  cases hfirst : isFromRoot (path.toList.map separator) with
  | true =>
      -- From the root no step up is kept.
      rw [hroot hfirst]
      rfl
  | false => rfl

/-- The segments of a path that goes up and through names. -/
theorem segments_ups {names : List (List Char)} (h : ∀ s ∈ names, IsName s) (n : Nat) :
    ∀ s ∈ List.replicate n up ++ names, s ≠ [] ∧ '/' ∉ s ∧ '\\' ∉ s := by
  intro s hs
  rcases List.mem_append.mp hs with hs | hs
  · rw [List.eq_of_mem_replicate hs]
    decide
  · exact ⟨(h s hs).1.1, (h s hs).2⟩

/-- A path from the root starts there. -/
@[simp]
theorem isFromRoot_ofRoot (names : List (List Char)) : isFromRoot (ofRoot names).toList = true := by
  rw [ofRoot, String.toList_ofList]
  rfl

/-- A path that goes up and through names does not start at the root. -/
theorem isFromRoot_ofUps {names : List (List Char)} (h : ∀ s ∈ names, IsName s) (n : Nat) :
    isFromRoot (ofUps n names).toList = false := by
  rw [ofUps, ofNames, String.toList_ofList]
  simpa [isFromRoot] using (mem_joinWith_segments (segments_ups h n)).2

/-- The normal form starts at the root exactly if the path does. -/
theorem isFromRoot_normalize (path : String) :
    isFromRoot (normalize path).toList = startsAtRoot path := by
  obtain ⟨names, n, hnames, hnormal⟩ := normalize_cases path
  rw [hnormal]
  cases startsAtRoot path with
  | true => exact isFromRoot_ofRoot names
  | false => exact isFromRoot_ofUps hnames n

/-! ### Their own normal forms -/

/-- From the project, steps up in front are kept. -/
theorem foldl_keepSegment_ups (n : Nat) :
    (List.replicate n up).foldl (keepSegment false) [] = List.replicate n up := by
  induction n with
  | zero => rfl
  | succ n ih =>
      rw [List.replicate_succ', List.foldl_append, ih, ← List.replicate_succ']
      cases n with
      | zero => rfl
      | succ n => simp [keepSegment, List.replicate_succ, up]

/-- A path from the root through names is in normal form. -/
theorem normalize_ofRoot {names : List (List Char)} (h : ∀ s ∈ names, IsName s) :
    normalize (ofRoot names) = ofRoot names := by
  have hunified : ('/' :: joinWith ['/'] names).map separator = '/' :: joinWith ['/'] names := by
    refine map_separator fun hmem => ?_
    rcases List.mem_cons.mp hmem with hc | hmem
    · exact absurd hc (by decide)
    · exact (mem_joinWith_names h).1 hmem
  have hfirst : isFromRoot ('/' :: joinWith ['/'] names) = true := rfl
  have hcut : splitOn '/' ('/' :: joinWith ['/'] names) =
      [] :: splitOn '/' (joinWith ['/'] names) := splitOn_append '/' [] _
  have hkeep : keepSegment true [] [] = [] := rfl
  rw [normalize, ofRoot, String.toList_ofList, normalChars]
  simp only [hunified, hfirst, hcut, List.foldl_cons, hkeep, foldl_keepSegment_splitOn true h,
    List.append_nil, List.reverse_reverse]
  rfl

/-- A path that goes up and then through names is in normal form. -/
theorem normalize_ofUps {names : List (List Char)} (h : ∀ s ∈ names, IsName s) (n : Nat) :
    normalize (ofUps n names) = ofUps n names := by
  have hsegments := segments_ups h n
  have hunified := map_separator (mem_joinWith_segments hsegments).1
  have hroot := isFromRoot_ofUps h n
  have hkept : (splitOn '/' (joinWith ['/'] (List.replicate n up ++ names))).foldl
      (keepSegment false) [] = (List.replicate n up ++ names).reverse := by
    by_cases hnil : List.replicate n up ++ names = []
    · -- The empty path has one piece, which is not kept.
      rw [hnil]
      rfl
    · rw [splitOn_joinWith hnil fun s hs => (hsegments s hs).2.1, List.foldl_append,
        foldl_keepSegment_ups, foldl_keepSegment_names false names h, List.reverse_append,
        List.reverse_replicate]
  rw [ofUps, ofNames, String.toList_ofList] at hroot
  rw [normalize, ofUps, ofNames, String.toList_ofList, normalChars]
  simp only [hunified, hroot, hkept, List.reverse_reverse]
  rfl

/-- A normal form is its own normal form. -/
theorem normalize_normalize (path : String) : normalize (normalize path) = normalize path := by
  obtain ⟨names, n, hnames, hnormal⟩ := normalize_cases path
  rw [hnormal]
  split
  · exact normalize_ofRoot hnames
  · exact normalize_ofUps hnames n

/-! ### Plain paths from the root -/

/-- The path starts at the root with `/`, and has neither a backslash nor
a step up. -/
def IsPlain (path : String) : Prop :=
  isFromRoot path.toList = true ∧ '\\' ∉ path.toList ∧ up ∉ splitOn '/' path.toList

instance (path : String) : Decidable (IsPlain path) :=
  inferInstanceAs (Decidable (_ ∧ _ ∧ _))

/-- Where no segment goes up, all names are kept. -/
theorem foldl_keepSegment_of_not_up (fromRoot : Bool) {segments : List (List Char)}
    (h : up ∉ segments) (kept : List (List Char)) :
    segments.foldl (keepSegment fromRoot) kept =
      (segments.filter fun s => s ≠ [] ∧ s ≠ ['.']).reverse ++ kept := by
  induction segments generalizing kept with
  | nil => rfl
  | cons s segments ih =>
      rw [List.mem_cons, not_or] at h
      rw [List.foldl_cons, ih h.2]
      unfold keepSegment
      by_cases hstay : s = [] ∨ s = ['.']
      · rw [if_pos hstay, List.filter_cons_of_neg (by simp; tauto)]
      · rw [if_neg hstay, if_neg (Ne.symm h.1), List.filter_cons_of_pos (by simp; tauto)]
        simp

/-- A plain path goes from the root through its segments. -/
theorem normalize_of_isPlain {path : String} (h : IsPlain path) :
    (∀ s ∈ (splitOn '/' path.toList).filter (fun s => s ≠ [] ∧ s ≠ ['.']), IsName s) ∧
      normalize path =
        ofRoot ((splitOn '/' path.toList).filter fun s => s ≠ [] ∧ s ≠ ['.']) := by
  obtain ⟨hroot, hback, hup⟩ := h
  refine ⟨fun s hs => ?_, ?_⟩
  · obtain ⟨hs, hstay⟩ := List.mem_filter.mp hs
    obtain ⟨hslash, hchars⟩ := not_mem_of_mem_splitOn hs
    refine ⟨⟨(of_decide_eq_true hstay).1, (of_decide_eq_true hstay).2, ?_⟩, hslash,
      fun hc => hback (hchars _ hc)⟩
    rintro rfl
    exact hup hs
  · rw [normalize, normalChars]
    simp only [map_separator hback, hroot, foldl_keepSegment_of_not_up true hup, List.append_nil,
      List.reverse_reverse]
    rfl

end ScriptRefactor.Path
