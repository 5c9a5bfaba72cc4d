import Mathlib.Data.List.Basic
import ScriptRefactor.Proofs.Path.Relative

/-!
# `ScriptRefactor.Proofs.Path.ModuleSources`: where module sources lead

The source that one file writes for another one leads back: seen from the
directory of the one file it is the path of the other without its extension
(`join_parent_moduleSource`), because the steps up take away what the one
directory has behind the names that both share.

A source is relative when it starts with `./` or `../` (`IsRelative`).
`moduleSource` puts `./` in front of a way only if the way does not start
with a dot. So a way that leads down at once, and to a dot file or into a dot
directory, gets none (`isRelative_moduleSource_iff`,
`moduleSource_of_hidden`).
-/

set_option autoImplicit false

namespace ScriptRefactor.Path

open Text

variable {origin target stem path rest : String} {b c : List (List Char)} {n m : List Char}

/-! ### Files in directories -/

/-- The path of what is in a directory. The project has no name that could
stand in front. -/
def pathIn (dir rest : String) : String := if dir = "" then rest else dir ++ "/" ++ rest

/-- A path in a directory goes on from its segments. -/
theorem pathIn_ofNames (hb : ∀ s ∈ b, s ≠ []) (hc : c ≠ []) :
    pathIn (ofNames b) (ofNames c) = ofNames (b ++ c) := by
  unfold pathIn
  cases b with
  | nil => rfl
  | cons s b =>
      have hne : ofNames (s :: b) ≠ "" := fun h => by
        have hnil := String.ofList_injective h
        rw [joinWith_cons_eq_append] at hnil
        exact hb s (by simp) (List.append_eq_nil_iff.mp hnil).1
      have hslash : "/" = String.ofList ['/'] := rfl
      obtain ⟨t, c, rfl⟩ := List.exists_cons_of_ne_nil hc
      rw [if_neg hne, hslash, ofNames, ofNames, ofNames, ← String.ofList_append,
        ← String.ofList_append, joinWith_append '/' (List.cons_ne_nil s b),
        joinWith_cons_eq_append '/' t c]
      simp

/-- A key that does not go up goes through names. -/
theorem IsKey.exists_ofNames (h : IsKey path) (hups : up ∉ segments path) :
    ∃ names, (∀ s ∈ names, IsName s) ∧ path = ofNames names := by
  obtain ⟨n, names, hnames, rfl⟩ := h.exists_names
  rw [segments_ofUps hnames] at hups
  cases n with
  | zero => exact ⟨names, hnames, rfl⟩
  | succ n => exact absurd (by simp [List.replicate_succ]) hups

/-- A key is its directory's segments and a last one, which is empty only in
the project. -/
theorem IsKey.exists_snoc (h : IsKey path) :
    ∃ b n, (∀ s ∈ b, s ≠ [] ∧ s ≠ ['.'] ∧ '/' ∉ s) ∧ '/' ∉ n ∧ path = ofNames (b ++ [n]) := by
  obtain ⟨n, names, hnames, rfl⟩ := h.exists_names
  have hall : ∀ s ∈ List.replicate n up ++ names, s ≠ [] ∧ s ≠ ['.'] ∧ '/' ∉ s := by
    intro s hs
    rcases List.mem_append.mp hs with hs | hs
    · rw [List.eq_of_mem_replicate hs]
      decide
    · exact ⟨(hnames s hs).1.1, (hnames s hs).1.2.1, (hnames s hs).2.1⟩
  rw [ofUps]
  rcases List.eq_nil_or_concat' (List.replicate n up ++ names) with hnil | ⟨b, m, hsnoc⟩
  · rw [hnil]
    exact ⟨[], [], by simp, by simp, rfl⟩
  · rw [hsnoc] at hall ⊢
    exact ⟨b, m, fun s hs => hall s (by simp [hs]), (hall m (by simp)).2.2, rfl⟩

/-- What goes on from a directory in a path are the segments behind its
own ones. -/
theorem ofNames_eq_pathIn_iff (hb : ∀ s ∈ b, s ≠ [] ∧ '/' ∉ s) (hne : c ≠ [])
    (hc : ∀ s ∈ c, '/' ∉ s) (rest : String) :
    ofNames c = pathIn (ofNames b) rest ↔ c = b ++ splitOn '/' rest.toList := by
  have hrest : rest = ofNames (splitOn '/' rest.toList) := by
    rw [ofNames, joinWith_splitOn, String.ofList_toList]
  have hsplit := splitOn_ne_nil '/' rest.toList
  rw [hrest, pathIn_ofNames (fun s hs => (hb s hs).1) hsplit, ← hrest, ofNames, ofNames,
    String.ofList_inj, joinWith_inj hne (by simp [hsplit]) hc]
  exact List.forall_mem_append.mpr ⟨fun s hs => (hb s hs).2,
    fun s hs => (not_mem_of_mem_splitOn hs).1⟩

/-! ### The way back -/

/-- **A module source leads back.** The source that a file writes for
another one, joined to the directory of the file, is the path of the stem of
the other one in its directory, if the stem is a name. -/
theorem join_parent_moduleSource (horigin : IsKey origin) (hin : up ∉ segments origin)
    (htarget : IsKey target) (hin' : up ∉ segments target) (hfile : target ≠ "")
    (hstem : IsStemOf stem (fileName target)) (hdot : stem ≠ ".") (hup : stem ≠ "..") :
    join (parent origin) (moduleSource origin target) = pathIn (parent target) stem := by
  -- The origin gives its directory only, so its own name need be none.
  obtain ⟨b, n, hb, hn, rfl⟩ :
      ∃ b n, (∀ s ∈ b, IsName s) ∧ '/' ∉ n ∧ origin = ofNames (b ++ [n]) := by
    obtain ⟨names, hnames, rfl⟩ := horigin.exists_ofNames hin
    rcases List.eq_nil_or_concat' names with rfl | ⟨b, n, rfl⟩
    · exact ⟨[], [], by simp, by simp, rfl⟩
    · exact ⟨b, n, fun s hs => hnames s (by simp [hs]), (hnames n (by simp)).2.1, rfl⟩
  obtain ⟨names, hnames, rfl⟩ := htarget.exists_ofNames hin'
  obtain rfl | ⟨c, m, rfl⟩ := List.eq_nil_or_concat' names
  · exact absurd rfl hfile
  obtain ⟨hc, hm⟩ := List.forall_mem_append.mp hnames
  rw [List.forall_mem_singleton] at hm
  obtain rfl := hstem.dropExtension_eq
  rw [fileName_ofNames hm] at hdot hup ⊢
  have hname := isName_dropExtension hm hdot hup
  -- Both directories start with `p`; from there the way leads up over `b'` and down along `c'`.
  obtain ⟨p, b', c', lead, rfl, rfl, hlead, hsource, -⟩ := exists_moduleSource hb hn hc hm
  generalize dropExtension (String.ofList m) = stem at hname hsource
  obtain ⟨hp, hb'⟩ := List.forall_mem_append.mp hb
  have hdown : ∀ s ∈ c' ++ [stem.toList], IsName s :=
    List.forall_mem_append.mpr ⟨(List.forall_mem_append.mp hc).2, List.forall_mem_singleton.mpr hname⟩
  have hway : moduleSource (ofNames (p ++ b' ++ [n])) (ofNames (p ++ c' ++ [m]))
      = ofNames (lead ++ List.replicate b'.length up ++ (c' ++ [stem.toList])) := by
    rw [← List.append_assoc]
    exact String.toList_inj.mp (hsource.trans String.toList_ofList.symm)
  have hlast : stem = ofNames [stem.toList] := by rw [ofNames, joinWith, String.ofList_toList]
  rw [hway, parent_snoc hn, join_relative hp hb' hdown hlead, parent_ofNames hm, hlast,
    pathIn_ofNames (fun s hs => (hc s hs).1.1) (List.cons_ne_nil _ _), ← hlast, List.append_assoc]

/-- From a dot directory to a file with two dots in a directory with one. -/
theorem join_parent_moduleSource_dotted :
    moduleSource "src/a/.b/A.js" "src/.c/d.e/x.test.js" = "../../.c/d.e/x.test" ∧
      join "src/a/.b" "../../.c/d.e/x.test" = "src/.c/d.e/x.test" := by
  have hsource : moduleSource "src/a/.b/A.js" "src/.c/d.e/x.test.js" = "../../.c/d.e/x.test" := by
    decide
  have hstem : IsStemOf "x.test" (fileName "src/.c/d.e/x.test.js") :=
    .inl ⟨"js".toList, by decide, by decide, by decide⟩
  have hback := @join_parent_moduleSource "src/a/.b/A.js" "src/.c/d.e/x.test.js" "x.test"
    (by decide) (by decide) (by decide) (by decide) (by decide) hstem (by decide) (by decide)
  have hfrom : parent "src/a/.b/A.js" = "src/a/.b" := by decide
  have hto : pathIn (parent "src/.c/d.e/x.test.js") "x.test" = "src/.c/d.e/x.test" := by decide
  rw [hsource, hfrom, hto] at hback
  exact ⟨hsource, hback⟩

/-! ### Relative sources -/

/-- The source starts with a step in the directory, or out of it. -/
def IsRelative (source : String) : Prop :=
  ['.', '/'] <+: source.toList ∨ ['.', '.', '/'] <+: source.toList

instance (source : String) : Decidable (IsRelative source) := inferInstanceAs (Decidable (_ ∨ _))

/-- The first segment of a path starts with a dot, and does not lead up to
another one. -/
def StartsHidden (rest : String) : Prop :=
  rest.toList.head? = some '.' ∧ ¬ ['.', '.', '/'] <+: rest.toList

instance (rest : String) : Decidable (StartsHidden rest) := inferInstanceAs (Decidable (_ ∧ _))

/-- Which paths start hidden. -/
theorem startsHidden_ofNames {s : List Char} (hs : '/' ∉ s) (ss : List (List Char)) :
    StartsHidden (ofNames (s :: ss)) ↔ s.head? = some '.' ∧ ¬ (ss ≠ [] ∧ up = s) := by
  rw [StartsHidden, ofNames, String.toList_ofList, head_joinWith_iff (by decide),
    ← prefix_joinWith_iff (by decide) hs]
  rfl

/-- Which ways make relative sources once they have a dot in front. -/
theorem isRelative_iff_of_withDot {s : List Char} {ss : List (List Char)} (hs : '/' ∉ s)
    (hdot : ss ≠ [] → s ≠ ['.']) {source : String}
    (hsource : source.toList = withDot (joinWith ['/'] (s :: ss))) :
    IsRelative source ↔ ¬ (s.head? = some '.' ∧ ¬ (ss ≠ [] ∧ up = s)) := by
  have hhere : ['.', '/'] <+: joinWith ['/'] (s :: ss) ↔ ss ≠ [] ∧ ['.'] = s :=
    prefix_joinWith_iff (by decide : '/' ∉ ['.']) hs ss
  have hup : ['.', '.', '/'] <+: joinWith ['/'] (s :: ss) ↔ ss ≠ [] ∧ up = s :=
    prefix_joinWith_iff (by decide : '/' ∉ up) hs ss
  have hstays : ¬ (ss ≠ [] ∧ ['.'] = s) := fun h => hdot h.1 h.2.symm
  rw [IsRelative, hsource]
  unfold withDot
  split
  · rename_i hfirst
    rw [head_joinWith_iff (by decide)] at hfirst
    rw [hhere, hup]
    simp only [hstays, hfirst, false_or, true_and, not_not]
  · rename_i hfirst
    rw [head_joinWith_iff (by decide)] at hfirst
    simp [hfirst]

/-- Segments that part at once go on from each other only if the ones are
none. -/
theorem PartAtOnce.eq_nil {as bs ss : List (List Char)} (h : PartAtOnce as bs) (hne : ss ≠ [])
    (hgoes : bs ++ [m] = as ++ ss) : as = [] := by
  cases as with
  | nil => rfl
  | cons a as =>
      cases bs with
      | nil => exact absurd (List.append_eq_nil_iff.mp (List.cons_eq_cons.mp hgoes).2.symm).2 hne
      | cons b bs => exact absurd (List.cons_eq_cons.mp hgoes).1.symm h

/-- **Which module sources are relative.** The source that a file writes for
another one starts with `./` or `../` unless the other one lies in or below
the directory of the file, and what goes on there starts with a dot and does
not lead up. -/
theorem isRelative_moduleSource_iff (horigin : IsKey origin) (htarget : IsKey target) :
    IsRelative (moduleSource origin target) ↔
      ¬ ∃ rest, target = pathIn (parent origin) rest ∧ StartsHidden rest := by
  obtain ⟨b, n, hb, hn, rfl⟩ := horigin.exists_snoc
  obtain ⟨c, m, hc, hm, rfl⟩ := htarget.exists_snoc
  have hplain {l : List (List Char)} (h : ∀ s ∈ l, s ≠ [] ∧ s ≠ ['.'] ∧ '/' ∉ s) :
      ∀ s ∈ l, s ≠ [] ∧ '/' ∉ s := fun s hs => ⟨(h s hs).1, (h s hs).2.2⟩
  obtain ⟨p, b', c', rfl, rfl, hpart, hsource⟩ := exists_way (hplain hb) hn (hplain hc) hm
  have hsegments : ∀ s ∈ p ++ c' ++ [m], '/' ∉ s :=
    List.forall_mem_append.mpr ⟨fun s hs => (hc s hs).2.2, List.forall_mem_singleton.mpr hm⟩
  have hgoes (rest : String) : ofNames (p ++ c' ++ [m]) = pathIn (ofNames (p ++ b')) rest ↔
      c' ++ [m] = b' ++ splitOn '/' rest.toList := by
    rw [ofNames_eq_pathIn_iff (hplain hb) (by simp) hsegments, List.append_assoc, List.append_assoc,
      List.append_cancel_left_eq]
  rw [parent_snoc hn]
  simp only [hgoes]
  cases b' with
  | cons x b' =>
      -- The way starts with a step up, and the other file is not below.
      have hrelative := (isRelative_iff_of_withDot (by decide) (fun _ => by decide) hsource).mpr
        fun h => h.2 ⟨by simp, rfl⟩
      refine iff_of_true hrelative ?_
      rintro ⟨rest, hrest, -⟩
      cases hpart.eq_nil (splitOn_ne_nil '/' rest.toList) hrest
  | nil =>
      -- The way leads down at once, along what goes on in the directory.
      have hrest : (∃ rest : String, c' ++ [m] = [] ++ splitOn '/' rest.toList ∧ StartsHidden rest) ↔
          StartsHidden (ofNames (c' ++ [m])) := by
        constructor
        · rintro ⟨rest, hrest, hhidden⟩
          rwa [hrest, List.nil_append, ofNames, joinWith_splitOn, String.ofList_toList]
        · intro hhidden
          refine ⟨_, ?_, hhidden⟩
          rw [ofNames, String.toList_ofList, List.nil_append, splitOn_joinWith (by simp)]
          exact fun s hs => hsegments s (List.append_assoc p c' [m] ▸ List.mem_append_right p hs)
      rw [hrest]
      cases c' with
      | nil =>
          have hstem : '/' ∉ (dropExtension (String.ofList m)).toList := fun h =>
            hm (String.toList_ofList (l := m) ▸ mem_of_mem_dropExtension h)
          have hhead := head_dropExtension (String.ofList m)
          rw [String.toList_ofList] at hhead
          rw [isRelative_iff_of_withDot hstem (fun h => absurd rfl h) hsource, List.nil_append,
            startsHidden_ofNames hm, hhead]
          simp
      | cons s c' =>
          have hs := hc s (by simp)
          rw [isRelative_iff_of_withDot hs.2.2 (fun _ => hs.2.1) hsource, List.cons_append,
            startsHidden_ofNames hs.2.2]
          simp

/-- A file in a dot directory beside the one that names it, and one above
both. -/
theorem isRelative_moduleSource_iff_dotDirectory :
    ¬ IsRelative (moduleSource "src/x.js" "src/.b/y.js") ∧
      IsRelative (moduleSource "src/.a/x.js" "src/.b/y.js") := by
  have hbeside := @isRelative_moduleSource_iff "src/x.js" "src/.b/y.js" (by decide) (by decide)
  have habove := @isRelative_moduleSource_iff "src/.a/x.js" "src/.b/y.js" (by decide) (by decide)
  refine ⟨fun h => hbeside.mp h ⟨".b/y.js", by decide, by decide⟩, habove.mpr ?_⟩
  rintro ⟨rest, hrest, -⟩
  have hparent : pathIn (parent "src/.a/x.js") rest = "src/.a/" ++ rest := by
    rfl
  have hdiffers := congrArg (fun path => path.toList[5]?) (hrest.trans hparent)
  rw [String.toList_append] at hdiffers
  simp at hdiffers

/-- Sources for a dot file and for a file in a dot directory that read like
names of packages. -/
theorem moduleSource_of_hidden :
    IsKey "a.js" ∧ IsKey ".x/b.js" ∧
      moduleSource "a.js" ".x/b.js" = ".x/b" ∧ ¬ IsRelative ".x/b" ∧
      IsKey "src/a.js" ∧ IsKey "src/.b.js" ∧
      moduleSource "src/a.js" "src/.b.js" = ".b" ∧ ¬ IsRelative ".b" := by
  decide

end ScriptRefactor.Path
