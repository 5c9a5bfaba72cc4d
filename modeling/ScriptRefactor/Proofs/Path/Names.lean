import Mathlib.Data.List.Induction
import ScriptRefactor.Path.Basic
import ScriptRefactor.Proofs.Text.Pieces

/-!
# `ScriptRefactor.Proofs.Path.Names`: paths as lists of names

A path in normal form that neither starts at the root of the file
system nor leads out of the project is a list of names, joined by `/`
(`exists_names_of_normalize`). On such paths the operations of `Path`
are those on lists:

* `ofNames_inj`: a path has one list of names;
* `isUnder_ofNames`: to be below is to go on from a prefix;
* `replacePrefix?_ofNames`: a prefix is replaced by another one.
-/

set_option autoImplicit false

namespace ScriptRefactor.Path

open Text

/-! ### Names -/

/-- A segment that is a name: it is not empty, it goes neither up nor
nowhere, and no separator is in it. -/
def IsName (segment : List Char) : Prop :=
  (segment ≠ [] ∧ segment ≠ ['.'] ∧ segment ≠ up) ∧ '/' ∉ segment ∧ '\\' ∉ segment

instance (segment : List Char) : Decidable (IsName segment) :=
  inferInstanceAs (Decidable (_ ∧ _))

/-- The path through some names. -/
def ofNames (names : List (List Char)) : String := String.ofList (joinWith ['/'] names)

/-- The path leads out of the project: it starts at the root of the
file system, or goes up first. -/
def leaves (path : String) : Bool := isFromRoot path.toList || isUnder path ".."

/-- A path inside the project, and not the project itself: names,
joined. -/
def Inside (path : String) : Prop :=
  ∃ names, names ≠ [] ∧ (∀ n ∈ names, IsName n) ∧ path = ofNames names

/-- The path of the project, or one inside. -/
def Within (path : String) : Prop := ∃ names, (∀ n ∈ names, IsName n) ∧ path = ofNames names

/-- Names are kept one after the other. -/
theorem foldl_keepSegment_names (fromRoot : Bool) (names : List (List Char))
    (h : ∀ n ∈ names, IsName n) (kept : List (List Char)) :
    names.foldl (keepSegment fromRoot) kept = names.reverse ++ kept := by
  induction names generalizing kept with
  | nil => rfl
  | cons n names ih =>
      have hn := (h n (by simp)).1
      have hkeep : keepSegment fromRoot kept n = n :: kept := by
        unfold keepSegment
        rw [if_neg (not_or.mpr ⟨hn.1, hn.2.1⟩), if_neg hn.2.2]
      rw [List.foldl_cons, hkeep, ih fun m hm => h m (List.mem_cons_of_mem n hm)]
      simp

/-- The segments kept of a path: some that go up, and names behind them.
From the root of the file system none goes up. -/
theorem exists_names_of_foldl_keepSegment (fromRoot : Bool) (segments : List (List Char))
    (h : ∀ s ∈ segments, '/' ∉ s ∧ '\\' ∉ s) :
    ∃ names n, (∀ s ∈ names, IsName s) ∧ (fromRoot = true → n = 0) ∧
      segments.foldl (keepSegment fromRoot) [] = names ++ List.replicate n up := by
  induction segments using List.reverseRecOn with
  | nil => exact ⟨[], 0, by simp, fun _ => rfl, rfl⟩
  | append_singleton segments s ih =>
      obtain ⟨names, n, hnames, hroot, hkept⟩ := ih fun t ht => h t (by simp [ht])
      rw [List.foldl_append, List.foldl_cons, List.foldl_nil, hkept]
      unfold keepSegment
      by_cases hstay : s = [] ∨ s = ['.']
      · rw [if_pos hstay]
        exact ⟨names, n, hnames, hroot, rfl⟩
      · rw [if_neg hstay]
        by_cases hup : s = up
        · -- A step up leaves the last name, or goes up once more.
          rw [if_pos hup]
          cases names with
          | nil =>
              cases fromRoot with
              | true =>
                  refine ⟨[], 0, by simp, fun _ => rfl, ?_⟩
                  rw [hroot rfl]
                  rfl
              | false =>
                  refine ⟨[], n + 1, by simp, by simp, ?_⟩
                  cases n with
                  | zero => rfl
                  | succ n => simp [List.replicate_succ]
          | cons last names =>
              have hlast : last ≠ up := (hnames last (by simp)).1.2.2
              refine ⟨names, n, fun t ht => hnames t (List.mem_cons_of_mem last ht), hroot, ?_⟩
              simp [hlast]
        · rw [if_neg hup]
          rw [not_or] at hstay
          refine ⟨s :: names, n, ?_, hroot, rfl⟩
          intro t ht
          rcases List.mem_cons.mp ht with rfl | ht
          · exact ⟨⟨hstay.1, hstay.2, hup⟩, h _ (by simp)⟩
          · exact hnames t ht

/-- No names are joined to the empty path. -/
theorem joinWith_ne_nil {names : List (List Char)} (hne : names ≠ [])
    (h : ∀ n ∈ names, IsName n) : joinWith ['/'] names ≠ [] := by
  cases names with
  | nil => exact absurd rfl hne
  | cons n names => simp [joinWith_cons_eq_append, (h n (by simp)).1.1]

/-- The names of a path are its pieces. -/
theorem splitOn_joinWith_names {names : List (List Char)} (hne : names ≠ [])
    (h : ∀ n ∈ names, IsName n) : splitOn '/' (joinWith ['/'] names) = names :=
  splitOn_joinWith hne fun n hn => (h n hn).2.1

/-- The pieces of a path are its names, which are all kept. -/
theorem foldl_keepSegment_splitOn (fromRoot : Bool) {names : List (List Char)}
    (h : ∀ n ∈ names, IsName n) (kept : List (List Char)) :
    (splitOn '/' (joinWith ['/'] names)).foldl (keepSegment fromRoot) kept =
      names.reverse ++ kept := by
  by_cases hne : names = []
  · -- The empty path has one piece, which is empty and not kept.
    rw [hne]
    simp [joinWith, splitOn, keepSegment]
  · rw [splitOn_joinWith_names hne h, foldl_keepSegment_names fromRoot names h]

/-- A path has one list of names. -/
theorem ofNames_inj {a b : List (List Char)} (ha : ∀ n ∈ a, IsName n) (hb : ∀ n ∈ b, IsName n) :
    ofNames a = ofNames b ↔ a = b := by
  refine ⟨fun h => ?_, fun h => h ▸ rfl⟩
  have hjoined : joinWith ['/'] a = joinWith ['/'] b := String.ofList_injective h
  by_cases hanil : a = []
  · by_contra hne
    have hbnil : b ≠ [] := fun hb => hne (hanil.trans hb.symm)
    exact joinWith_ne_nil hbnil hb (by rw [← hjoined, hanil]; rfl)
  · have hbnil : b ≠ [] := by
      rintro rfl
      exact joinWith_ne_nil hanil ha hjoined
    rw [← splitOn_joinWith_names hanil ha, hjoined, splitOn_joinWith_names hbnil hb]

/-! ### Normal form -/

/-- The characters of segments in a path: no backslash, and no separator
in front. -/
theorem mem_joinWith_segments {segments : List (List Char)}
    (h : ∀ s ∈ segments, s ≠ [] ∧ '/' ∉ s ∧ '\\' ∉ s) :
    '\\' ∉ joinWith ['/'] segments ∧ (joinWith ['/'] segments).head? ≠ some '/' := by
  cases segments with
  | nil => simp [joinWith]
  | cons n names =>
      rw [joinWith_cons_eq_append]
      obtain ⟨hne, hslash, hback⟩ := h n (by simp)
      refine ⟨?_, ?_⟩
      · rw [List.mem_append, not_or, List.mem_flatMap]
        refine ⟨hback, ?_⟩
        rintro ⟨m, hm, hin⟩
        rcases List.mem_cons.mp hin with hc | hin
        · exact absurd hc (by decide)
        · exact (h m (List.mem_cons_of_mem n hm)).2.2 hin
      · -- The path starts with the first character of its first segment.
        cases n with
        | nil => exact absurd rfl hne
        | cons c n =>
            rw [List.mem_cons, not_or] at hslash
            simpa [joinWith] using Ne.symm hslash.1

/-- The characters of names in a path. -/
theorem mem_joinWith_names {names : List (List Char)} (h : ∀ n ∈ names, IsName n) :
    '\\' ∉ joinWith ['/'] names ∧ (joinWith ['/'] names).head? ≠ some '/' :=
  mem_joinWith_segments fun n hn => ⟨(h n hn).1.1, (h n hn).2⟩

/-- A path without a backslash has one kind of separator. -/
theorem map_separator {cs : List Char} (h : '\\' ∉ cs) : cs.map separator = cs := by
  refine (List.map_congr_left fun c hc => ?_).trans (List.map_id _)
  have hne : c ≠ '\\' := fun hback => h (hback ▸ hc)
  rw [separator, if_neg hne, id]

/-- The pieces of a path have no separator of either kind. -/
theorem not_mem_of_mem_splitOn_separator {cs s : List Char}
    (hs : s ∈ splitOn '/' (cs.map separator)) : '/' ∉ s ∧ '\\' ∉ s := by
  obtain ⟨hslash, hchars⟩ := not_mem_of_mem_splitOn hs
  refine ⟨hslash, fun hback => ?_⟩
  obtain ⟨c, -, hc⟩ := List.mem_map.mp (hchars _ hback)
  unfold separator at hc
  split at hc
  · cases hc
  · contradiction

/-- A path of names does not start at the root of the file system. -/
theorem isFromRoot_ofNames {names : List (List Char)} (h : ∀ n ∈ names, IsName n) :
    isFromRoot (ofNames names).toList = false := by
  rw [ofNames, String.toList_ofList]
  simpa [isFromRoot] using (mem_joinWith_names h).2

/-- Names in a path are in normal form. -/
theorem normalize_ofNames {names : List (List Char)} (h : ∀ n ∈ names, IsName n) :
    normalize (ofNames names) = ofNames names := by
  have hunified := map_separator (mem_joinWith_names h).1
  have hroot := isFromRoot_ofNames h
  rw [ofNames, String.toList_ofList] at hroot
  rw [normalize, ofNames, String.toList_ofList, normalChars]
  simp only [hunified, hroot, foldl_keepSegment_splitOn false h, List.append_nil,
    List.reverse_reverse]
  rfl

/-! ### Being below -/

/-- The rest of a path below a directory that is not the project. -/
theorem below?_eq_some_iff {path dir : String} {rest : List Char} :
    below? path dir = some rest ↔ path.toList = dir.toList ++ rest ∧
      (dir = "" ∨ rest = [] ∨ rest.head? = some '/') := by
  unfold below?
  cases hafter : afterPrefix? dir.toList path.toList with
  | none =>
      simp only [reduceCtorEq, false_iff, not_and]
      intro hpath
      rw [afterPrefix?_eq_some_iff.mpr hpath] at hafter
      cases hafter
  | some tail =>
      -- The path starts with the directory, so only the end of a name is left to check.
      rw [afterPrefix?_eq_some_iff] at hafter
      simp only [hafter, List.append_cancel_left_eq, Option.ite_none_right_eq_some,
        Option.some.injEq, Bool.or_eq_true, String.isEmpty_iff, List.isEmpty_iff,
        decide_eq_true_eq, or_assoc]
      constructor
      · rintro ⟨hends, rfl⟩
        exact ⟨rfl, hends⟩
      · rintro ⟨rfl, hends⟩
        exact ⟨hends, rfl⟩

/-- A path is under itself. -/
theorem isUnder_self (path : String) : isUnder path path = true :=
  Option.isSome_iff_exists.mpr ⟨[], below?_eq_some_iff.mpr ⟨by simp, .inr (.inl rfl)⟩⟩

/-- What is under a directory is under all above it. -/
theorem isUnder_trans {path dir top : String} (h : isUnder path dir = true)
    (h' : isUnder dir top = true) : isUnder path top = true := by
  obtain ⟨rest, hrest⟩ := Option.isSome_iff_exists.mp h
  obtain ⟨rest', hrest'⟩ := Option.isSome_iff_exists.mp h'
  obtain ⟨htext, hends⟩ := below?_eq_some_iff.mp hrest
  obtain ⟨htext', hends'⟩ := below?_eq_some_iff.mp hrest'
  refine Option.isSome_iff_exists.mpr ⟨rest' ++ rest, below?_eq_some_iff.mpr ⟨?_, ?_⟩⟩
  · rw [htext, htext', List.append_assoc]
  · -- Behind the top comes what follows it in the directory, if that is anything.
    rcases hends' with htop | rfl | hslash
    · exact .inl htop
    · rw [List.append_nil, String.toList_inj] at htext'
      exact htext' ▸ hends
    · obtain ⟨tail, rfl⟩ := List.head?_eq_some_iff.mp hslash
      exact .inr (.inr rfl)

/-- What follows a first step up. -/
theorem below?_ofNames_up (segments : List (List Char)) :
    below? (ofNames (up :: segments)) ".." = some (segments.flatMap ('/' :: ·)) := by
  rw [below?_eq_some_iff, ofNames, String.toList_ofList, joinWith_cons_eq_append]
  refine ⟨rfl, .inr ?_⟩
  cases segments <;> simp

/-- A path in normal form that does not lead out of the project is a
list of names. -/
theorem exists_names_of_normalize {path : String} (h : leaves (normalize path) = false) :
    ∃ names, (∀ n ∈ names, IsName n) ∧ normalize path = ofNames names := by
  rw [leaves, Bool.or_eq_false_iff] at h
  obtain ⟨hroot, hup⟩ := h
  obtain ⟨names, n, hnames, -, hkept⟩ := exists_names_of_foldl_keepSegment false
    (splitOn '/' (path.toList.map separator)) fun s => not_mem_of_mem_splitOn_separator
  by_cases habsolute : isFromRoot (path.toList.map separator) = true
  · -- The normal form would start at the root, too.
    rw [normalize, String.toList_ofList, normalChars] at hroot
    simp only [habsolute, if_true] at hroot
    cases hroot
  · have hnormal : normalize path = ofNames (List.replicate n up ++ names.reverse) := by
      rw [Bool.not_eq_true] at habsolute
      rw [normalize, normalChars]
      simp only [habsolute, hkept, List.reverse_append, List.reverse_replicate]
      rfl
    cases n with
    | zero => exact ⟨names.reverse, fun m hm => hnames m (List.mem_reverse.mp hm), hnormal⟩
    | succ n =>
        -- A path that goes up first is below the directory above.
        rw [hnormal, List.replicate_succ, List.cons_append, isUnder, below?_ofNames_up] at hup
        cases hup

/-- What follows some names in a path. -/
theorem below?_ofNames {a b : List (List Char)} (ha : ∀ n ∈ a, IsName n)
    (hb : ∀ n ∈ b, IsName n) (hbne : b ≠ []) :
    below? (ofNames a) (ofNames b) =
      if b <+: a then some ((a.drop b.length).flatMap ('/' :: ·)) else none := by
  by_cases hpre : b <+: a
  · obtain ⟨rest, rfl⟩ := hpre
    rw [if_pos (List.prefix_append b rest), List.drop_left, below?_eq_some_iff]
    refine ⟨?_, ?_⟩
    · rw [ofNames, ofNames, String.toList_ofList, String.toList_ofList, joinWith_append '/' hbne]
    · cases rest <;> simp
  · rw [if_neg hpre]
    by_contra hsome
    obtain ⟨rest, hrest⟩ := Option.ne_none_iff_exists'.mp hsome
    obtain ⟨hpath, hends⟩ := below?_eq_some_iff.mp hrest
    rw [ofNames, ofNames, String.toList_ofList, String.toList_ofList] at hpath
    have hane : a ≠ [] := by
      rintro rfl
      exact joinWith_ne_nil hbne hb (List.append_eq_nil_iff.mp hpath.symm).1
    have hsplit := splitOn_joinWith_names hane ha
    -- Cut apart again, the first path shows the names of the second at its front.
    rcases hends with hnil | rfl | hslash
    · exact joinWith_ne_nil hbne hb (String.ofList_injective hnil)
    · rw [hpath, List.append_nil, splitOn_joinWith_names hbne hb] at hsplit
      exact hpre (hsplit ▸ List.prefix_rfl)
    · obtain ⟨tail, rfl⟩ := List.head?_eq_some_iff.mp hslash
      rw [hpath, splitOn_append, splitOn_joinWith_names hbne hb] at hsplit
      exact hpre (hsplit ▸ List.prefix_append b _)

/-- To be below a path is to go on from its names. -/
theorem isUnder_ofNames {a b : List (List Char)} (ha : ∀ n ∈ a, IsName n)
    (hb : ∀ n ∈ b, IsName n) : isUnder (ofNames a) (ofNames b) = true ↔ b <+: a := by
  by_cases hbne : b = []
  · have hunder : below? (ofNames a) (ofNames []) = some (ofNames a).toList :=
      below?_eq_some_iff.mpr ⟨rfl, .inl rfl⟩
    rw [hbne, isUnder, hunder]
    simp
  · rw [isUnder, below?_ofNames ha hb hbne]
    split <;> simp_all

/-- Another beginning for a path. -/
theorem replacePrefix?_ofNames {a old new : List (List Char)} (ha : ∀ n ∈ a, IsName n)
    (hold : ∀ n ∈ old, IsName n) (hnew : ∀ n ∈ new, IsName n) (holdne : old ≠ [])
    (hnewne : new ≠ []) :
    replacePrefix? (ofNames a) (ofNames old) (ofNames new) =
      if old <+: a then some (ofNames (new ++ a.drop old.length)) else none := by
  rw [replacePrefix?, below?_ofNames ha hold holdne]
  split
  · rw [Option.map_some]
    congr 1
    have hall : ∀ n ∈ new ++ a.drop old.length, IsName n :=
      List.forall_mem_append.mpr ⟨hnew, fun n hn => ha n (List.mem_of_mem_drop hn)⟩
    rw [← normalize_ofNames hall, ofNames, ofNames, joinWith_append '/' hnewne,
      String.ofList_append]
  · rfl

/-! ### Paths inside the project -/

/-- A path in normal form that does not lead out of the project and is
not the project is inside. -/
theorem inside_of_normalize {path : String} (h : leaves (normalize path) = false)
    (hne : normalize path ≠ "") : Inside (normalize path) := by
  obtain ⟨names, hnames, heq⟩ := exists_names_of_normalize h
  refine ⟨names, ?_, hnames, heq⟩
  rintro rfl
  exact hne heq

/-- What is inside is within. -/
theorem Inside.within {path : String} (h : Inside path) : Within path := by
  obtain ⟨names, -, hnames, rfl⟩ := h
  exact ⟨names, hnames, rfl⟩

/-- The project is not inside itself. -/
theorem Inside.ne_empty {path : String} (h : Inside path) : path ≠ "" := by
  obtain ⟨names, hne, hnames, rfl⟩ := h
  exact fun hempty => joinWith_ne_nil hne hnames (String.ofList_injective hempty)

/-- The project is under nothing inside. -/
theorem Inside.not_above_root {path : String} (h : Inside path) : isUnder "" path = false := by
  obtain ⟨names, hne, hnames, rfl⟩ := h
  rw [← Bool.not_eq_true]
  exact fun hunder =>
    hne (List.prefix_nil.mp ((isUnder_ofNames (a := []) (by simp) hnames).mp hunder))

/-- A path within is the project, or inside. -/
theorem Within.inside {path : String} (h : Within path) (hne : path ≠ "") : Inside path := by
  obtain ⟨names, hnames, rfl⟩ := h
  refine ⟨names, ?_, hnames, rfl⟩
  rintro rfl
  exact hne rfl

/-- Another beginning for a path inside. -/
theorem replacePrefix?_inside {path old new : String} (hpath : Inside path) (hold : Inside old)
    (hnew : Inside new) : ∃ names as bs, path = ofNames names ∧ old = ofNames as ∧
      new = ofNames bs ∧ (∀ n ∈ names, IsName n) ∧ (as ≠ [] ∧ ∀ n ∈ as, IsName n) ∧
      (bs ≠ [] ∧ ∀ n ∈ bs, IsName n) ∧
      replacePrefix? path old new =
        if as <+: names then some (ofNames (bs ++ names.drop as.length)) else none := by
  obtain ⟨names, -, hnames, rfl⟩ := hpath
  obtain ⟨as, hasne, has, rfl⟩ := hold
  obtain ⟨bs, hbsne, hbs, rfl⟩ := hnew
  exact ⟨names, as, bs, rfl, rfl, rfl, hnames, ⟨hasne, has⟩, ⟨hbsne, hbs⟩,
    replacePrefix?_ofNames hnames has hbs hasne hbsne⟩

end ScriptRefactor.Path
