import ScriptRefactor.Proofs.Path.Normal
import ScriptRefactor.Proofs.Path.Parents

/-!
# `ScriptRefactor.Proofs.Path.Canonical`: which paths are normal forms

A path is canonical when nothing in it could be left out: it has no
backslash, no segment that is empty or stays where it is, and it goes up
only in front, and never from the root of the file system
(`IsCanonical`). These are the paths that are their own normal forms
(`normalize_eq_self_iff`), so that `normalize` is the identity on them and
gives nothing else.

A normal form leads where the path leads, seen from any directory
(`join_normalize`). Both come from what a walk through a path keeps of its
segments (`walk`): from what is kept of a path, the same is kept again,
whatever was kept before it (`walk_normalize`).
-/

set_option autoImplicit false

namespace ScriptRefactor.Path

open Text

variable {path base rest : String} {names : List (List Char)}

/-! ### Segments -/

/-- The pieces between separators. The empty text has none. -/
def pieces (cs : List Char) : List (List Char) := if cs = [] then [] else splitOn '/' cs

/-- The segments of a path. The separator at the root of the file system
stands in front of them, and a path that ends there has none, like the
empty one. -/
def segments (path : String) : List (List Char) :=
  pieces (if isFromRoot path.toList then path.toList.tail else path.toList)

/-- The pieces, joined, are the text. -/
theorem joinWith_pieces (cs : List Char) : joinWith ['/'] (pieces cs) = cs := by
  unfold pieces
  split
  · rename_i hnil
    rw [hnil]
    rfl
  · exact joinWith_splitOn '/' cs

/-- Segments that are not empty are the pieces of their path. -/
theorem pieces_joinWith {segments : List (List Char)}
    (h : ∀ s ∈ segments, s ≠ [] ∧ '/' ∉ s) : pieces (joinWith ['/'] segments) = segments := by
  cases segments with
  | nil => rfl
  | cons s segments =>
      have hne : joinWith ['/'] (s :: segments) ≠ [] := by
        simp [joinWith_cons_eq_append, (h s (by simp)).1]
      rw [pieces, if_neg hne]
      exact splitOn_joinWith (List.cons_ne_nil s segments) fun t ht => (h t ht).2

/-- A piece has no separator, and only characters of the text. -/
theorem not_mem_of_mem_pieces {cs s : List Char} (h : s ∈ pieces cs) :
    '/' ∉ s ∧ ∀ c ∈ s, c ∈ cs := by
  unfold pieces at h
  split at h
  · cases h
  · exact not_mem_of_mem_splitOn h

/-- The segments of a path that does not start at the root are its
pieces. -/
theorem segments_of_not_isFromRoot (h : isFromRoot path.toList = false) :
    segments path = pieces path.toList := by
  rw [segments, h, if_neg Bool.false_ne_true]

/-- The segments of a path from the root. -/
theorem segments_ofRoot (h : ∀ s ∈ names, IsName s) : segments (ofRoot names) = names := by
  rw [segments, isFromRoot_ofRoot, if_pos rfl, ofRoot, String.toList_ofList, List.tail_cons]
  exact pieces_joinWith fun s hs => ⟨(h s hs).1.1, (h s hs).2.1⟩

/-- The segments of a path that goes up and through names. -/
theorem segments_ofUps (h : ∀ s ∈ names, IsName s) (n : Nat) :
    segments (ofUps n names) = List.replicate n up ++ names := by
  rw [segments_of_not_isFromRoot (isFromRoot_ofUps h n), ofUps, ofNames, String.toList_ofList]
  exact pieces_joinWith fun s hs => ⟨(segments_ups h n s hs).1, (segments_ups h n s hs).2.1⟩

/-! ### Canonical paths -/

/-- A path in which nothing could be left out:

- `no_backslash`: its separators are written `/`;
- `no_idle`: no segment is empty or `.`;
- `ups_first`: segments that go up stand in front of all others;
- `no_ups`: from the root of the file system none goes up. -/
structure IsCanonical (path : String) : Prop where
  no_backslash : '\\' ∉ path.toList
  no_idle : ∀ s ∈ segments path, s ≠ [] ∧ s ≠ ['.']
  ups_first : ∃ n rest, segments path = List.replicate n up ++ rest ∧ up ∉ rest
  no_ups : isFromRoot path.toList = true → up ∉ segments path

/-- No name goes up. -/
theorem up_not_mem (h : ∀ s ∈ names, IsName s) : up ∉ names := fun hup => (h up hup).1.2.2 rfl

/-- A path from the root through names is canonical. -/
theorem isCanonical_ofRoot (h : ∀ s ∈ names, IsName s) : IsCanonical (ofRoot names) where
  no_backslash := by
    rw [ofRoot, String.toList_ofList, List.mem_cons, not_or]
    exact ⟨by decide, (mem_joinWith_names h).1⟩
  no_idle s hs := by
    rw [segments_ofRoot h] at hs
    exact ⟨(h s hs).1.1, (h s hs).1.2.1⟩
  ups_first := ⟨0, names, segments_ofRoot h, up_not_mem h⟩
  no_ups _ := by
    rw [segments_ofRoot h]
    exact up_not_mem h

/-- A path that goes up and then through names is canonical. -/
theorem isCanonical_ofUps (h : ∀ s ∈ names, IsName s) (n : Nat) : IsCanonical (ofUps n names) where
  no_backslash := by
    rw [ofUps, ofNames, String.toList_ofList]
    exact (mem_joinWith_segments (segments_ups h n)).1
  no_idle s hs := by
    rw [segments_ofUps h n] at hs
    rcases List.mem_append.mp hs with hs | hs
    · rw [List.eq_of_mem_replicate hs]
      decide
    · exact ⟨(h s hs).1.1, (h s hs).1.2.1⟩
  ups_first := ⟨n, names, segments_ofUps h n, up_not_mem h⟩
  no_ups hroot := by
    rw [isFromRoot_ofUps h n] at hroot
    cases hroot

/-- A segment of a canonical path that does not go up is a name. -/
theorem IsCanonical.isName (h : IsCanonical path) {s : List Char} (hs : s ∈ segments path)
    (hup : s ≠ up) : IsName s := by
  obtain ⟨hslash, hchars⟩ := not_mem_of_mem_pieces hs
  refine ⟨⟨(h.no_idle s hs).1, (h.no_idle s hs).2, hup⟩, hslash, fun hback => ?_⟩
  have hmem := hchars _ hback
  split at hmem
  · exact h.no_backslash (List.mem_of_mem_tail hmem)
  · exact h.no_backslash hmem

/-- A canonical path goes from the root through names, or up and then
through names. -/
theorem IsCanonical.exists_names (h : IsCanonical path) :
    ∃ names n, (∀ s ∈ names, IsName s) ∧
      path = if isFromRoot path.toList then ofRoot names else ofUps n names := by
  cases hroot : isFromRoot path.toList with
  | true =>
      refine ⟨segments path, 0, fun s hs => h.isName hs fun hup => h.no_ups hroot (hup ▸ hs), ?_⟩
      obtain ⟨body, hbody⟩ : ∃ body, path.toList = '/' :: body :=
        List.head?_eq_some_iff.mp (of_decide_eq_true hroot)
      rw [if_pos rfl, ofRoot, segments, hroot, if_pos rfl, joinWith_pieces, hbody, List.tail_cons,
        ← hbody, String.ofList_toList]
  | false =>
      obtain ⟨n, rest, hsegments, hups⟩ := h.ups_first
      refine ⟨rest, n, fun s hs => h.isName (by simp [hsegments, hs]) fun hup => hups (hup ▸ hs),
        ?_⟩
      rw [if_neg Bool.false_ne_true, ofUps, ← hsegments, segments_of_not_isFromRoot hroot, ofNames,
        joinWith_pieces, String.ofList_toList]

/-- A normal form is canonical. -/
theorem isCanonical_normalize (path : String) : IsCanonical (normalize path) := by
  obtain ⟨names, n, hnames, hnormal⟩ := normalize_cases path
  rw [hnormal]
  split
  · exact isCanonical_ofRoot hnames
  · exact isCanonical_ofUps hnames n

/-- The paths that are their own normal forms are the canonical ones. -/
theorem normalize_eq_self_iff : normalize path = path ↔ IsCanonical path := by
  refine ⟨fun h => h ▸ isCanonical_normalize path, fun h => ?_⟩
  obtain ⟨names, n, hnames, hpath⟩ := h.exists_names
  rw [hpath]
  split
  · exact normalize_ofRoot hnames
  · exact normalize_ofUps hnames n

/-! ### Keys -/

/-- A path in normal form that does not start at the root of the file
system: the project is `""`, what is above it goes up. -/
def IsKey (path : String) : Prop := normalize path = path ∧ isFromRoot path.toList = false

instance (path : String) : Decidable (IsKey path) := inferInstanceAs (Decidable (_ ∧ _))

/-- A key goes up some times and then through names. -/
theorem IsKey.exists_names (h : IsKey path) :
    ∃ n names, (∀ s ∈ names, IsName s) ∧ path = ofUps n names := by
  obtain ⟨names, n, hnames, hpath⟩ := (normalize_eq_self_iff.mp h.1).exists_names
  rw [h.2, if_neg Bool.false_ne_true] at hpath
  exact ⟨n, names, hnames, hpath⟩

/-- Neither kind of separator stands in front of a key. -/
theorem IsKey.startsAtRoot_eq (h : IsKey path) : startsAtRoot path = false := by
  rw [← isFromRoot_normalize, h.1, h.2]

/-- A path that goes up and through names is a key. -/
theorem isKey_ofUps (h : ∀ s ∈ names, IsName s) (n : Nat) : IsKey (ofUps n names) :=
  ⟨normalize_ofUps h n, isFromRoot_ofUps h n⟩

/-! ### Walks -/

/-- The segments kept behind a walk through a path, the last one first,
when `kept` were kept in front of it. -/
def walk (fromRoot : Bool) (kept : List (List Char)) (path : String) : List (List Char) :=
  (splitOn '/' (path.toList.map separator)).foldl (keepSegment fromRoot) kept

/-- A walk through joined segments takes them one after the other. -/
theorem walk_ofNames {segments : List (List Char)}
    (h : ∀ s ∈ segments, s ≠ [] ∧ '/' ∉ s ∧ '\\' ∉ s) (fromRoot : Bool)
    (kept : List (List Char)) :
    walk fromRoot kept (ofNames segments) = segments.foldl (keepSegment fromRoot) kept := by
  rw [walk, ofNames, String.toList_ofList, map_separator (mem_joinWith_segments h).1]
  by_cases hnil : segments = []
  · -- The empty path has one piece, which is not kept.
    rw [hnil]
    rfl
  · rw [splitOn_joinWith hnil fun s hs => (h s hs).2.1]

/-- The normal form of a path is what a walk through it keeps. -/
theorem normalize_eq_walk (path : String) :
    normalize path = if startsAtRoot path then ofRoot (walk true [] path).reverse
      else ofNames (walk false [] path).reverse := by
  rw [normalize, normalChars]
  unfold startsAtRoot
  cases isFromRoot (path.toList.map separator) <;> rfl

/-- To walk a path with another one behind it is to walk one after the
other. -/
theorem walk_append (fromRoot : Bool) (kept : List (List Char)) (base rest : String) :
    walk fromRoot kept (base ++ "/" ++ rest)
      = walk fromRoot (walk fromRoot kept base) rest := by
  have hslash : "/".toList = ['/'] := rfl
  have hsep : separator '/' = '/' := rfl
  unfold walk
  rw [String.toList_append, String.toList_append, hslash, List.append_assoc, List.singleton_append,
    List.map_append, List.map_cons, hsep, splitOn_append, List.foldl_append]

/-- A segment that stays where it is is not kept. -/
theorem keepSegment_of_idle {s : List Char} (h : s = [] ∨ s = ['.']) (fromRoot : Bool)
    (kept : List (List Char)) : keepSegment fromRoot kept s = kept := if_pos h

/-- A segment that goes down is kept. -/
theorem keepSegment_of_down {s : List Char} (h : ¬ (s = [] ∨ s = ['.'])) (hup : s ≠ up)
    (fromRoot : Bool) (kept : List (List Char)) : keepSegment fromRoot kept s = s :: kept := by
  rw [keepSegment.eq_def, if_neg h, if_neg hup]

/-- A segment that goes up takes the name before it away. -/
theorem keepSegment_up_cons {last : List Char} (h : last ≠ up) (fromRoot : Bool)
    (kept : List (List Char)) : keepSegment fromRoot (last :: kept) up = kept := by
  rw [keepSegment.eq_def, if_neg (by decide), if_pos rfl]
  exact if_neg h

/-- Behind others that go up, a segment that goes up is kept. -/
theorem keepSegment_up_ups (n : Nat) :
    keepSegment false (List.replicate n up) up = up :: List.replicate n up := by
  rw [keepSegment.eq_def, if_neg (by decide), if_pos rfl]
  cases n <;> simp [List.replicate_succ]

/-- What a walk keeps, walked again, is kept again, whatever was kept
before it. -/
theorem foldl_keepSegment_kept (fromRoot : Bool) (kept : List (List Char))
    {segments : List (List Char)} (h : ∀ s ∈ segments, '/' ∉ s ∧ '\\' ∉ s) :
    (segments.foldl (keepSegment false) []).reverse.foldl (keepSegment fromRoot) kept
      = segments.foldl (keepSegment fromRoot) kept := by
  induction segments using List.reverseRecOn with
  | nil => rfl
  | append_singleton segments s ih =>
      have hfront : ∀ t ∈ segments, '/' ∉ t ∧ '\\' ∉ t := fun t ht => h t (by simp [ht])
      obtain ⟨names, n, hnames, -, hkept⟩ := exists_names_of_foldl_keepSegment false segments hfront
      have hpast (t : List Char) (ts : List (List Char)) :
          (t :: ts).reverse.foldl (keepSegment fromRoot) kept
            = keepSegment fromRoot (ts.reverse.foldl (keepSegment fromRoot) kept) t := by
        rw [List.reverse_cons, List.foldl_append]
        rfl
      rw [List.foldl_append, List.foldl_append, ← ih hfront, hkept]
      simp only [List.foldl_cons, List.foldl_nil]
      by_cases hstay : s = [] ∨ s = ['.']
      · rw [keepSegment_of_idle hstay, keepSegment_of_idle hstay]
      · by_cases hup : s = up
        · subst hup
          cases names with
          | nil => rw [List.nil_append, keepSegment_up_ups, hpast]
          | cons last names =>
              -- The last name is kept at first, and left again on both sides.
              have hlast := (hnames last (by simp)).1
              rw [List.cons_append, keepSegment_up_cons hlast.2.2, hpast,
                keepSegment_of_down (not_or.mpr ⟨hlast.1, hlast.2.1⟩) hlast.2.2,
                keepSegment_up_cons hlast.2.2]
        · rw [keepSegment_of_down hstay hup, hpast]

/-- A walk through the normal form of a path keeps what a walk through the
path keeps, whatever was kept before it. -/
theorem walk_normalize (h : startsAtRoot path = false) (fromRoot : Bool)
    (kept : List (List Char)) :
    walk fromRoot kept (normalize path) = walk fromRoot kept path := by
  have hsegments : ∀ s ∈ splitOn '/' (path.toList.map separator), '/' ∉ s ∧ '\\' ∉ s :=
    fun s => not_mem_of_mem_splitOn_separator
  obtain ⟨names, n, hnames, -, hkept⟩ := exists_names_of_foldl_keepSegment false _ hsegments
  have hplain : ∀ s ∈ (walk false [] path).reverse, s ≠ [] ∧ '/' ∉ s ∧ '\\' ∉ s := by
    rw [walk, hkept, List.reverse_append, List.reverse_replicate]
    exact segments_ups (fun s hs => hnames s (List.mem_reverse.mp hs)) n
  rw [normalize_eq_walk, h, if_neg Bool.false_ne_true, walk_ofNames hplain]
  exact foldl_keepSegment_kept fromRoot kept hsegments

/-- What a path starts with decides where it starts, not what is behind. -/
theorem startsAtRoot_append (h : base ≠ "") (rest : String) :
    startsAtRoot (base ++ "/" ++ rest) = startsAtRoot base := by
  have hne : base.toList ≠ [] := fun hnil => h (String.toList_eq_nil_iff.mp hnil)
  obtain ⟨c, cs, hbase⟩ := List.exists_cons_of_ne_nil hne
  simp [startsAtRoot, isFromRoot, hbase]

/-- The normal form of a relative path leads where the path leads, seen
from any directory. -/
theorem join_normalize (h : startsAtRoot rest = false) (base : String) :
    join base (normalize rest) = join base rest := by
  unfold join
  split
  · exact normalize_normalize rest
  · rename_i hbase
    have hbase : base ≠ "" := fun hempty => hbase (by rw [hempty]; rfl)
    rw [normalize_eq_walk, normalize_eq_walk (base ++ "/" ++ rest), startsAtRoot_append hbase,
      startsAtRoot_append hbase]
    simp only [walk_append, walk_normalize h]

/-- Joined segments do not start at the root of the file system. -/
theorem startsAtRoot_ofNames {segments : List (List Char)}
    (h : ∀ s ∈ segments, s ≠ [] ∧ '/' ∉ s ∧ '\\' ∉ s) : startsAtRoot (ofNames segments) = false := by
  obtain ⟨hback, hhead⟩ := mem_joinWith_segments h
  rw [startsAtRoot, ofNames, String.toList_ofList, map_separator hback]
  simpa [isFromRoot] using hhead

/-- A path joined to another one is what is kept of both. -/
theorem join_eq_walk (hbase : startsAtRoot base = false) (hrest : startsAtRoot rest = false) :
    join base rest = ofNames (walk false (walk false [] base) rest).reverse := by
  unfold join
  split
  · rename_i hempty
    rw [normalize_eq_walk, hrest, String.isEmpty_iff.mp hempty]
    rfl
  · rename_i hne
    have hne : base ≠ "" := fun hempty => hne (by rw [hempty]; rfl)
    rw [normalize_eq_walk, startsAtRoot_append hne, hbase, if_neg Bool.false_ne_true, walk_append]

/-! ### Normal forms -/

/-- A path starts at the root of the file system with a separator of
either kind. -/
theorem startsAtRoot_iff :
    startsAtRoot path = true ↔ path.toList.head? = some '/' ∨ path.toList.head? = some '\\' := by
  rw [startsAtRoot, isFromRoot, decide_eq_true_iff, List.head?_map, Option.map_eq_some_iff]
  constructor
  · rintro ⟨c, hhead, hc⟩
    rw [hhead, Option.some.injEq, Option.some.injEq]
    unfold separator at hc
    split at hc
    · exact .inr ‹_›
    · exact .inl hc
  · rintro (hhead | hhead)
    · exact ⟨'/', hhead, rfl⟩
    · exact ⟨'\\', hhead, rfl⟩

/-- **A normal form is canonical.** The normal form of a path has nothing
that could be left out, starts at the root of the file system exactly if
the path starts with a separator of either kind, and is its own normal
form. Every canonical path is one, and the normal form of a relative path
leads, seen from any directory, where the path leads. -/
theorem normalize_is_canonical (path : String) :
    IsCanonical (normalize path) ∧
      (isFromRoot (normalize path).toList = true ↔
        path.toList.head? = some '/' ∨ path.toList.head? = some '\\') ∧
      normalize (normalize path) = normalize path ∧
      (normalize path = path ↔ IsCanonical path) ∧
      (startsAtRoot path = false → ∀ base, join base (normalize path) = join base path) :=
  ⟨isCanonical_normalize path, by rw [isFromRoot_normalize, startsAtRoot_iff],
    normalize_normalize path, normalize_eq_self_iff, join_normalize⟩

example : normalize "..\\src//a/./../.b/" = "../src/.b" ∧ normalize "\\../a" = "/a" := by decide

end ScriptRefactor.Path
