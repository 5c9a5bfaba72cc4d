import Mathlib.Data.List.Basic
import ScriptRefactor.Proofs.Path.Canonical

/-!
# `ScriptRefactor.Proofs.Path.Prefixes`: one directory in place of another

`replacePrefix?` puts a new directory in front of what follows an old one
in a path. It refuses a path exactly if the segments of the old directory
are not in front of its own ones (`isUnder_iff`).

What follows a directory starts with a separator, except in the project
itself, which has no name and no separator behind it (`behind`). Whatever
the two directories are, nothing is left to normalize behind the
substitution (`normalize_append_behind`): the text that followed the one
follows the other. So a path in one directory becomes the path in the
other, unless one of the two is the project and the other is not
(`replacePrefix?_join_iff`). Out of the project the first name is glued to
the new directory, and into the project a separator is left in front
(`replacePrefix?_project_glues`).
-/

set_option autoImplicit false

namespace ScriptRefactor.Path

open Text

variable {path dir old new rest : String} {names rs : List (List Char)} {n : Nat}

/-! ### Being below -/

/-- To be below a directory is to go on from its pieces. -/
theorem isUnder_iff : isUnder path dir = true ↔ pieces dir.toList <+: pieces path.toList := by
  rw [isUnder, Option.isSome_iff_exists]
  constructor
  · rintro ⟨rest, hrest⟩
    obtain ⟨htext, hends⟩ := below?_eq_some_iff.mp hrest
    rcases hends with rfl | rfl | hslash
    · exact List.nil_prefix
    · have hsame : path.toList = dir.toList := htext.trans (List.append_nil _)
      exact hsame ▸ List.prefix_rfl
    · -- A separator behind the directory ends its last piece.
      obtain ⟨tail, rfl⟩ := List.head?_eq_some_iff.mp hslash
      have hne : dir.toList ++ '/' :: tail ≠ [] := by simp
      rw [htext, pieces, pieces, if_neg hne, splitOn_append]
      split
      · exact List.nil_prefix
      · exact List.prefix_append _ _
  · rintro ⟨ps, hps⟩
    have htext := joinWith_pieces path.toList
    rw [← hps] at htext
    by_cases hdir : dir = ""
    · exact ⟨path.toList, below?_eq_some_iff.mpr ⟨by rw [hdir]; rfl, .inl hdir⟩⟩
    · have hne : pieces dir.toList ≠ [] := by
        rw [pieces, if_neg fun hnil => hdir (String.toList_eq_nil_iff.mp hnil)]
        exact splitOn_ne_nil '/' _
      rw [joinWith_append '/' hne, joinWith_pieces] at htext
      exact ⟨_, below?_eq_some_iff.mpr ⟨htext.symm, .inr (by cases ps <;> simp)⟩⟩

/-- A path is refused if it is not below the old directory. -/
theorem replacePrefix?_eq_none_iff : replacePrefix? path old new = none ↔ isUnder path old = false := by
  rw [replacePrefix?, Option.map_eq_none_iff, isUnder, Option.isSome_eq_false_iff,
    Option.isNone_iff_eq_none]

/-- A path from the root of the file system is below no key but the
project. -/
theorem isUnder_of_isFromRoot (hpath : isFromRoot path.toList = true) (hold : IsKey old) :
    isUnder path old = true ↔ old = "" := by
  rw [isUnder, Option.isSome_iff_exists]
  constructor
  · rintro ⟨rest, hrest⟩
    obtain ⟨htext, -⟩ := below?_eq_some_iff.mp hrest
    by_contra hne
    -- The path would start with the first character of the key.
    obtain ⟨c, cs, hchars⟩ :=
      List.exists_cons_of_ne_nil fun hnil => hne (String.toList_eq_nil_iff.mp hnil)
    have hkey := hold.2
    rw [htext, hchars] at hpath
    rw [hchars] at hkey
    exact Bool.false_ne_true (hkey.symm.trans hpath)
  · rintro rfl
    exact ⟨path.toList, below?_eq_some_iff.mpr ⟨rfl, .inl rfl⟩⟩

/-! ### What goes down -/

/-- A relative path that only goes down: no segment of it is `.` or
`..`. -/
def GoesDown (rest : String) : Prop :=
  startsAtRoot rest = false ∧
    ∀ s ∈ splitOn '/' (rest.toList.map separator), s ≠ ['.'] ∧ s ≠ up

instance (rest : String) : Decidable (GoesDown rest) := inferInstanceAs (Decidable (_ ∧ _))

/-- A path that only goes down goes through names. -/
theorem GoesDown.exists_names (h : GoesDown rest) :
    ∃ rs, (∀ s ∈ rs, IsName s) ∧ normalize rest = ofNames rs := by
  obtain ⟨hrelative, hdown⟩ := h
  refine ⟨(splitOn '/' (rest.toList.map separator)).filter fun s => s ≠ [] ∧ s ≠ ['.'],
    fun s hs => ?_, ?_⟩
  · obtain ⟨hs, hstay⟩ := List.mem_filter.mp hs
    obtain ⟨hne, hdot⟩ := of_decide_eq_true hstay
    exact ⟨⟨hne, hdot, (hdown s hs).2⟩, not_mem_of_mem_splitOn_separator hs⟩
  · rw [normalize_eq_walk, hrelative, if_neg Bool.false_ne_true, walk,
      foldl_keepSegment_of_not_up false fun hup => (hdown up hup).2 rfl, List.append_nil,
      List.reverse_reverse]

/-- Names joined to a key go behind its own ones. -/
theorem join_ofUps (hnames : ∀ s ∈ names, IsName s) (n : Nat) (hrest : GoesDown rest)
    (hrs : ∀ s ∈ rs, IsName s) (hnormal : normalize rest = ofNames rs) :
    join (ofUps n names) rest = ofUps n (names ++ rs) := by
  have hsegments : ∀ s ∈ rs, s ≠ [] ∧ '/' ∉ s ∧ '\\' ∉ s := fun s hs => ⟨(hrs s hs).1.1, (hrs s hs).2⟩
  rw [join_eq_walk (isKey_ofUps hnames n).startsAtRoot_eq hrest.1, ← walk_normalize hrest.1, hnormal,
    ofUps, walk_ofNames (segments_ups hnames n), walk_ofNames hsegments, List.foldl_append,
    foldl_keepSegment_ups, foldl_keepSegment_names false names hnames,
    foldl_keepSegment_names false rs hrs]
  simp [ofUps]

/-! ### What follows a directory -/

/-- The text behind a directory in the path that goes on through names:
behind the project no separator stands. -/
def behind (dir : String) (rs : List (List Char)) : String :=
  if dir = "" then ofNames rs else String.ofList (rs.flatMap ('/' :: ·))

/-- A path that goes on from a key is the key and the text behind it. -/
theorem ofUps_append (hnames : ∀ s ∈ names, IsName s) (n : Nat) (rs : List (List Char)) :
    ofUps n (names ++ rs) = ofUps n names ++ behind (ofUps n names) rs := by
  have hsegments : segments (ofUps n names) = List.replicate n up ++ names :=
    segments_ofUps hnames n
  unfold behind
  split
  · -- The project has no segments.
    rename_i hproject
    have hnil : List.replicate n up ++ names = [] := by rw [← hsegments, hproject]; rfl
    rw [hproject, ofUps, ← List.append_assoc, hnil, String.empty_append]
    rfl
  · rename_i hne
    have hsome : List.replicate n up ++ names ≠ [] := fun hnil => hne (by rw [ofUps, hnil]; rfl)
    rw [ofUps, ofUps, ofNames, ofNames, ← List.append_assoc, joinWith_append '/' hsome,
      String.ofList_append]

/-- A name behind another one, or behind a step up, makes a name with
it. -/
theorem isName_append {l c : List Char} (hl : l = up ∨ IsName l) (hc : IsName c) :
    IsName (l ++ c) := by
  have hplain : l ≠ [] ∧ l ≠ ['.'] ∧ '/' ∉ l ∧ '\\' ∉ l := by
    rcases hl with rfl | hl
    · decide
    · exact ⟨hl.1.1, hl.1.2.1, hl.2⟩
  obtain ⟨hne, hdot, hslash, hback⟩ := hplain
  refine ⟨⟨by simp [hne], fun h => ?_, fun h => ?_⟩, by simp [hslash, hc.2.1],
    by simp [hback, hc.2.2]⟩
  · -- Both have a character, and the two are more than one.
    rcases List.append_eq_singleton_iff.mp h with ⟨h, -⟩ | ⟨-, h⟩
    · exact hne h
    · exact hc.1.1 h
  · obtain ⟨x, xs, rfl⟩ := List.exists_cons_of_ne_nil hne
    obtain ⟨y, ys, rfl⟩ := List.exists_cons_of_ne_nil hc.1.1
    cases xs <;> simp_all [up]

/-- A key that is not the project has a last segment, a step up or a
name. -/
theorem exists_last_segment (hnames : ∀ s ∈ names, IsName s) (hne : ofUps n names ≠ "") :
    ∃ m front l, (∀ s ∈ front, IsName s) ∧ (l = up ∨ IsName l) ∧
      List.replicate n up ++ names = List.replicate m up ++ front ++ [l] := by
  rcases List.eq_nil_or_concat' names with rfl | ⟨front, l, rfl⟩
  · cases n with
    | zero => exact absurd rfl hne
    | succ n => exact ⟨n, [], up, by simp, .inl rfl, by simp [List.replicate_succ']⟩
  · exact ⟨n, front, l, fun s hs => hnames s (by simp [hs]), .inr (hnames l (by simp)), by simp⟩

/-- Names behind a key, without a separator between them, make a key with
it: the first one is glued to its last segment. -/
theorem normalize_append_ofNames (hkey : IsKey new) (hne : new ≠ "") (hrs : ∀ s ∈ rs, IsName s) :
    normalize (new ++ ofNames rs) = new ++ ofNames rs := by
  obtain ⟨n, names, hnames, rfl⟩ := hkey.exists_names
  cases rs with
  | nil =>
      have hempty : ofNames [] = "" := rfl
      rw [hempty, String.append_empty, hkey.1]
  | cons c rs =>
      obtain ⟨m, front, l, hfront, hl, hlast⟩ := exists_last_segment hnames hne
      obtain ⟨hc, hrs⟩ := List.forall_mem_cons.mp hrs
      have hglued : ofUps n names ++ ofNames (c :: rs) = ofUps m (front ++ [l ++ c] ++ rs) := by
        rw [ofUps, ofUps, ofNames, ofNames, ofNames, hlast, ← String.ofList_append,
          joinWith_append_joinWith]
        simp only [List.append_assoc]
      rw [hglued]
      refine normalize_ofUps (List.forall_mem_append.mpr ⟨?_, hrs⟩) m
      exact List.forall_mem_append.mpr
        ⟨hfront, List.forall_mem_singleton.mpr (isName_append hl hc)⟩

/-- A text that stood behind one directory is put behind another one
without anything left to normalize. -/
theorem normalize_append_behind (hkey : IsKey new) (old : String) (hrs : ∀ s ∈ rs, IsName s) :
    normalize (new ++ behind old rs) = new ++ behind old rs := by
  unfold behind
  split
  · by_cases hproject : new = ""
    · rw [hproject, String.empty_append, normalize_ofNames hrs]
    · exact normalize_append_ofNames hkey hproject hrs
  · by_cases hproject : new = ""
    · -- A separator is left in front of the first name, if there is one.
      rw [hproject, String.empty_append]
      cases rs with
      | nil => rfl
      | cons c rs =>
          have hroot : String.ofList ((c :: rs).flatMap ('/' :: ·)) = ofRoot (c :: rs) := by
            rw [ofRoot, joinWith_cons_eq_append]
            rfl
          rw [hroot, normalize_ofRoot hrs]
    · obtain ⟨n, names, hnames, rfl⟩ := hkey.exists_names
      have happend := ofUps_append hnames n rs
      rw [behind, if_neg hproject] at happend
      rw [← happend, normalize_ofUps (List.forall_mem_append.mpr ⟨hnames, hrs⟩)]

/-- What follows the project starts with a name, what follows any other
directory with a separator. -/
theorem head_behind (hrs : ∀ s ∈ rs, IsName s) (hne : rs ≠ []) (dir : String) :
    (behind dir rs).toList.head? = some '/' ↔ dir ≠ "" := by
  unfold behind
  split
  · rename_i hproject
    rw [ofNames, String.toList_ofList]
    simp [hproject, (mem_joinWith_names hrs).2]
  · rename_i hdir
    obtain ⟨c, rs, rfl⟩ := List.exists_cons_of_ne_nil hne
    simp [hdir]

/-- What follows two directories is the same exactly if nothing follows, or
if both of them are the project, or none of them is. -/
theorem behind_eq_iff (hrs : ∀ s ∈ rs, IsName s) (old new : String) :
    behind old rs = behind new rs ↔ rs = [] ∨ (old = "" ↔ new = "") := by
  constructor
  · intro h
    by_cases hne : rs = []
    · exact .inl hne
    · have hold := head_behind hrs hne old
      rw [h, head_behind hrs hne new] at hold
      exact .inr (not_iff_not.mp hold.symm)
  · rintro (rfl | hsame)
    · unfold behind
      split <;> split <;> rfl
    · simp only [behind, hsame]

/-! ### Substitution -/

/-- The text behind one directory is found behind another one unless a name
was glued to that. -/
theorem below?_append_behind_iff (hrs : ∀ s ∈ rs, IsName s) (old dir : String) :
    below? (dir ++ behind old rs) dir = some (behind old rs).toList ↔
      rs = [] ∨ (old = "" → dir = "") := by
  rw [below?_eq_some_iff, and_iff_right String.toList_append]
  by_cases hne : rs = []
  · have hempty : (behind old []).toList = [] := by
      unfold behind
      split <;> rfl
    simp [hne, hempty]
  · have hsome : (behind old rs).toList ≠ [] := by
      unfold behind
      split
      · rw [ofNames, String.toList_ofList]
        exact joinWith_ne_nil hne hrs
      · simpa using List.exists_mem_of_ne_nil rs hne
    rw [head_behind hrs hne old]
    simp only [hsome, hne, false_or]
    tauto

/-- The text behind one directory is put from another one behind a third
unless a name was glued to the second. -/
theorem replacePrefix?_append_behind_iff (hnew : IsKey new) (old dir : String)
    (hrs : ∀ s ∈ rs, IsName s) :
    replacePrefix? (dir ++ behind old rs) dir new = some (new ++ behind old rs) ↔
      rs = [] ∨ (old = "" → dir = "") := by
  rw [← below?_append_behind_iff hrs old dir, replacePrefix?, Option.map_eq_some_iff]
  constructor
  · rintro ⟨tail, htail, -⟩
    have htext := (below?_eq_some_iff.mp htail).1
    rw [String.toList_append, List.append_cancel_left_eq] at htext
    rw [htail, htext]
  · intro hbelow
    exact ⟨_, hbelow, by rw [String.ofList_toList, normalize_append_behind hnew old hrs]⟩

/-- **One directory in place of another.** For keys of two directories and
a path that only goes down, the path in the one becomes the path in the
other if and only if the path goes nowhere, or both directories are the
project or none of them is; and the substitution the other way round
brings it back if and only if it goes nowhere, or the old directory is not
the project or the new one is. A relative path is refused exactly if the
segments of the old directory are not in front of its own ones, and a path
from the root of the file system unless the old directory is the
project. -/
theorem replacePrefix?_join_iff (hold : IsKey old) (hnew : IsKey new) (hrest : GoesDown rest) :
    (replacePrefix? (join old rest) old new = some (join new rest) ↔
      normalize rest = "" ∨ (old = "" ↔ new = "")) ∧
    ((replacePrefix? (join old rest) old new).bind (replacePrefix? · new old)
        = some (join old rest) ↔
      normalize rest = "" ∨ (old = "" → new = "")) ∧
    (∀ path, isFromRoot path.toList = false →
      (replacePrefix? path old new = none ↔ ¬ segments old <+: segments path)) ∧
    ∀ path, isFromRoot path.toList = true → (replacePrefix? path old new = none ↔ old ≠ "") := by
  obtain ⟨rs, hrs, hnormal⟩ := hrest.exists_names
  have hjoin {dir : String} (hdir : IsKey dir) : join dir rest = dir ++ behind dir rs := by
    obtain ⟨n, names, hnames, rfl⟩ := hdir.exists_names
    rw [join_ofUps hnames n hrest hrs hnormal, ofUps_append hnames]
  have hnowhere : normalize rest = "" ↔ rs = [] := by
    have hnil : ofNames [] = "" := rfl
    rw [hnormal, ← hnil, ofNames_inj hrs (by simp)]
  have hthere := (replacePrefix?_append_behind_iff hnew old old hrs).mpr (.inr id)
  rw [hjoin hold, hjoin hnew, hthere, hnowhere]
  refine ⟨?_, ?_, fun path hpath => ?_, fun path hpath => ?_⟩
  · rw [Option.some.injEq, String.append_right_inj, behind_eq_iff hrs]
  · rw [Option.bind_some, replacePrefix?_append_behind_iff hold old new hrs]
  · rw [replacePrefix?_eq_none_iff, ← Bool.not_eq_true, isUnder_iff,
      segments_of_not_isFromRoot hpath, segments_of_not_isFromRoot hold.2]
  · rw [replacePrefix?_eq_none_iff, ← Bool.not_eq_true, isUnder_of_isFromRoot hpath hold]

/-- A file is brought two directories up and back, past a directory with a
longer name. -/
theorem replacePrefix?_join_iff_siblings :
    IsKey "src/a" ∧ IsKey "../lib" ∧ GoesDown "b\\\\.c/x.js" ∧
      replacePrefix? (join "src/a" "b\\\\.c/x.js") "src/a" "../lib" = some "../lib/b/.c/x.js" ∧
      replacePrefix? "../lib/b/.c/x.js" "../lib" "src/a" = some "src/a/b/.c/x.js" ∧
      replacePrefix? "src/ab/x.js" "src/a" "../lib" = none := by
  have hold : IsKey "src/a" := by decide
  have hnew : IsKey "../lib" := by decide
  have hrest : GoesDown "b\\\\.c/x.js" := by decide
  obtain ⟨hthere, hback, hrefused, -⟩ := replacePrefix?_join_iff hold hnew hrest
  have hjoin : join "../lib" "b\\\\.c/x.js" = "../lib/b/.c/x.js" := by decide
  have hplace : join "src/a" "b\\\\.c/x.js" = "src/a/b/.c/x.js" := by decide
  have hmoved := hthere.mpr (.inr (by decide))
  have hmovedBack := hback.mpr (.inr (by decide))
  rw [hmoved, hjoin, hplace] at hmovedBack
  rw [hjoin] at hmoved
  exact ⟨hold, hnew, hrest, hmoved, hmovedBack, (hrefused _ (by decide)).mpr (by decide)⟩

/-- Out of the project the name is glued to the new directory, and into the
project the separator stays in front. -/
theorem replacePrefix?_project_glues :
    IsKey "" ∧ IsKey "src" ∧ GoesDown "x.js" ∧
      replacePrefix? (join "" "x.js") "" "src" = some "srcx.js" ∧ join "src" "x.js" = "src/x.js" ∧
      replacePrefix? (join "src" "x.js") "src" "" = some "/x.js" ∧ join "" "x.js" = "x.js" := by
  decide

end ScriptRefactor.Path
