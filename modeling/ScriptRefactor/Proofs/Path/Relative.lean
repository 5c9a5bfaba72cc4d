import ScriptRefactor.Proofs.Path.Canonical

/-!
# `ScriptRefactor.Proofs.Path.Relative`: the way from one file to another

`moduleSource` names a file as seen from another one: as many steps up as
there are directories above the one file that are not above the other, then
the names down to it, and a dot in front (`exists_way`). Such a way may
start where it is (`exists_moduleSource`). Joined to the directory it starts
from, it leads where it should (`join_relative`). Its last segment is the
stem of the file (`isStemOf_dropExtension`), which is a name like the
file's own one unless it is one or two dots (`isName_dropExtension`).
-/

set_option autoImplicit false

namespace ScriptRefactor

namespace Text

/-- Pieces are joined as texts are. -/
theorem joinWith_eq_intercalate (sep : List Char) (pieces : List (List Char)) :
    joinWith sep pieces = sep.intercalate pieces := by
  induction pieces with
  | nil => rfl
  | cons piece pieces ih =>
      cases pieces with
      | nil => simp [joinWith]
      | cons next pieces => rw [joinWith_cons sep piece (List.cons_ne_nil _ _), ih]; simp

end Text

namespace Path

open Text

variable {b c p rest : List (List Char)} {n m : List Char} {stem name : String}

/-! ### Files -/

/-- The last segment of a path. -/
theorem fileName_snoc (hn : '/' ∉ n) (b : List (List Char)) :
    fileName (ofNames (b ++ [n])) = String.ofList n := by
  unfold fileName
  rw [ofNames, String.toList_ofList]
  cases b with
  | nil => rw [List.nil_append, joinWith, splitLast?_of_not_mem hn]
  | cons m b => rw [joinWith_snoc '/' (List.cons_ne_nil m b), splitLast?_append hn]

/-- The last segment of a path is its last name. -/
theorem fileName_ofNames (hn : IsName n) : fileName (ofNames (b ++ [n])) = String.ofList n :=
  fileName_snoc hn.2.1 b

/-- The segments of the directory that holds a path are its own ones but the
last one. -/
theorem directorySegments_snoc (hb : ∀ m ∈ b, m ≠ [] ∧ '/' ∉ m) (hn : '/' ∉ n) :
    directorySegments (ofNames (b ++ [n])) = b.map String.ofList := by
  rw [directorySegments, parent_snoc hn, ofNames, String.toList_ofList]
  by_cases hne : b = []
  · subst hne
    rfl
  · rw [splitOn_joinWith hne fun m hm => (hb m hm).2, List.filter_eq_self.mpr]
    intro m hm
    simpa using (hb m hm).1

/-- Two lists of segments part at once: their first ones are different, if
both have one. -/
def PartAtOnce {α : Type} : List α → List α → Prop
  | a :: _, b :: _ => a ≠ b
  | _, _ => True

/-- What a path shares with another one from the front. Behind it the two
part. -/
theorem exists_shared (as bs : List String) :
    ∃ p as' bs', as = p ++ as' ∧ bs = p ++ bs' ∧ PartAtOnce as' bs' ∧
      sharedLength as bs = p.length := by
  induction as generalizing bs with
  | nil => exact ⟨[], [], bs, rfl, rfl, trivial, rfl⟩
  | cons a as ih =>
      cases bs with
      | nil => exact ⟨[], a :: as, [], rfl, rfl, trivial, rfl⟩
      | cons b bs =>
          rw [sharedLength]
          split
          · rename_i hab
            obtain ⟨p, as', bs', rfl, rfl, hpart, hlength⟩ := ih bs
            exact ⟨a :: p, as', bs', rfl, by rw [hab]; rfl, hpart, by rw [hlength]; rfl⟩
          · rename_i hab
            exact ⟨[], a :: as, b :: bs, rfl, rfl, hab, rfl⟩

/-! ### Stems -/

/-- A file name without its extension: what stands before its last dot, or
all of the name if no dot stands behind its first character. -/
def IsStemOf (stem name : String) : Prop :=
  (∃ ext, '.' ∉ ext ∧ stem ≠ "" ∧ name.toList = stem.toList ++ '.' :: ext) ∨
    (stem = name ∧ ∀ front ext, name.toList = front ++ '.' :: ext → front = [])

/-- A name without its extension is a stem of it. -/
theorem isStemOf_dropExtension (name : String) : IsStemOf (dropExtension name) name := by
  unfold dropExtension
  cases hcut : splitLast? '.' name.toList with
  | none =>
      refine .inr ⟨rfl, fun front ext hname => absurd ?_ (splitLast?_eq_none_iff.mp hcut)⟩
      simp [hname]
  | some cut =>
      obtain ⟨front, ext⟩ := cut
      obtain ⟨hname, hext⟩ := splitLast?_eq_some_iff.mp hcut
      dsimp only
      split
      · rename_i hempty
        rw [List.isEmpty_iff.mp hempty, List.nil_append] at hname
        refine .inr ⟨rfl, fun front' ext' hname' => ?_⟩
        cases front' with
        | nil => rfl
        | cons c front' =>
            -- A dot further behind would be the last one.
            rw [hname, List.cons_append, List.cons.injEq] at hname'
            exact absurd (hname'.2 ▸ by simp) hext
      · rename_i hsome
        refine .inl ⟨ext, hext, fun h => ?_, by rw [String.toList_ofList, hname]⟩
        exact hsome (List.isEmpty_iff.mpr (String.ofList_injective h))

/-- A name has no other stem. -/
theorem IsStemOf.dropExtension_eq (h : IsStemOf stem name) : dropExtension name = stem := by
  unfold dropExtension
  rcases h with ⟨ext, hext, hne, hname⟩ | ⟨rfl, hfirst⟩
  · have hsome : stem.toList.isEmpty = false := by
      rw [List.isEmpty_eq_false_iff]
      exact fun hnil => hne (String.toList_eq_nil_iff.mp hnil)
    rw [hname, splitLast?_append hext]
    simp [hsome]
  · cases hcut : splitLast? '.' stem.toList with
    | none => rfl
    | some cut =>
        obtain ⟨front, ext⟩ := cut
        simp [hfirst front ext (splitLast?_eq_some_iff.mp hcut).1]

/-- A stem starts like its name. -/
theorem head_dropExtension (name : String) :
    (dropExtension name).toList.head? = name.toList.head? := by
  rcases isStemOf_dropExtension name with ⟨ext, -, hne, hname⟩ | ⟨hall, -⟩
  · obtain ⟨c, cs, hstem⟩ :=
      List.exists_cons_of_ne_nil fun hnil => hne (String.toList_eq_nil_iff.mp hnil)
    rw [hname, hstem]
    rfl
  · rw [hall]

/-- A stem has only characters of its name. -/
theorem mem_of_mem_dropExtension {ch : Char} (h : ch ∈ (dropExtension name).toList) :
    ch ∈ name.toList := by
  rcases isStemOf_dropExtension name with ⟨ext, -, -, hname⟩ | ⟨hall, -⟩
  · rw [hname]
    exact List.mem_append_left _ h
  · rwa [hall] at h

/-- The stem of a name is a name, unless it is one or two dots. -/
theorem isName_dropExtension (hn : IsName n) (hdot : dropExtension (String.ofList n) ≠ ".")
    (hup : dropExtension (String.ofList n) ≠ "..") :
    IsName (dropExtension (String.ofList n)).toList := by
  have hchars {ch : Char} (h : ch ∈ (dropExtension (String.ofList n)).toList) : ch ∈ n :=
    String.toList_ofList (l := n) ▸ mem_of_mem_dropExtension h
  refine ⟨⟨fun h => hn.1.1 ?_, fun h => hdot (String.toList_inj.mp h),
    fun h => hup (String.toList_inj.mp h)⟩, fun h => hn.2.1 (hchars h), fun h => hn.2.2 (hchars h)⟩
  have hhead := head_dropExtension (String.ofList n)
  rw [h, String.toList_ofList] at hhead
  exact List.head?_eq_none_iff.mp hhead.symm

/-! ### Ways -/

/-- Segments that go up take as many names away. -/
theorem foldl_keepSegment_leave (hb : ∀ m ∈ b, IsName m) (kept : List (List Char)) :
    (List.replicate b.length up).foldl (keepSegment false) (b ++ kept) = kept := by
  induction b with
  | nil => rfl
  | cons m b ih =>
      obtain ⟨hm, hb⟩ := List.forall_mem_cons.mp hb
      rw [List.length_cons, List.replicate_succ, List.foldl_cons, List.cons_append,
        keepSegment_up_cons hm.1.2.2, ih hb]

/-- The segments of a way: it may start where it is, goes up some times
and then down. -/
def IsLead (lead : List (List Char)) : Prop := lead = [] ∨ lead = [['.']]

/-- A way that goes up as many times as there are names behind the shared
ones leads down from these. -/
theorem join_relative (hp : ∀ m ∈ p, IsName m) (hb : ∀ m ∈ b, IsName m)
    (hrest : ∀ m ∈ rest, IsName m) {lead : List (List Char)} (hlead : IsLead lead) :
    join (ofNames (p ++ b)) (ofNames (lead ++ List.replicate b.length up ++ rest))
      = ofNames (p ++ rest) := by
  have hpb : ∀ m ∈ p ++ b, IsName m := List.forall_mem_append.mpr ⟨hp, hb⟩
  have hnames : ∀ {l : List (List Char)}, (∀ m ∈ l, IsName m) →
      ∀ s ∈ l, s ≠ [] ∧ '/' ∉ s ∧ '\\' ∉ s := fun h s hs => ⟨(h s hs).1.1, (h s hs).2⟩
  have hway : ∀ s ∈ lead ++ List.replicate b.length up ++ rest, s ≠ [] ∧ '/' ∉ s ∧ '\\' ∉ s := by
    refine List.forall_mem_append.mpr ⟨List.forall_mem_append.mpr ⟨?_, fun s hs => ?_⟩, hnames hrest⟩
    · rcases hlead with rfl | rfl <;> decide
    · rw [List.eq_of_mem_replicate hs]
      decide
  have hstart : ∀ kept, lead.foldl (keepSegment false) kept = kept := by
    rcases hlead with rfl | rfl <;> exact fun kept => rfl
  rw [join_eq_walk (startsAtRoot_ofNames (hnames hpb)) (startsAtRoot_ofNames hway),
    walk_ofNames (hnames hpb), walk_ofNames hway, foldl_keepSegment_names false _ hpb,
    List.foldl_append, List.foldl_append, hstart, List.append_nil, List.reverse_append]
  -- The names behind the shared ones are left again, the last one first.
  have hleave := foldl_keepSegment_leave (b := b.reverse)
    (fun m hm => hb m (List.mem_reverse.mp hm)) p.reverse
  rw [List.length_reverse] at hleave
  rw [hleave, foldl_keepSegment_names false _ hrest]
  simp

/-- A text with a dot in front: its own, or one that stays where it is. -/
def withDot (way : List Char) : List Char :=
  if way.head? = some '.' then way else '.' :: '/' :: way

/-- A text with a dot in front starts with it. -/
theorem head_withDot (way : List Char) : (withDot way).head? = some '.' := by
  unfold withDot
  split
  · assumption
  · rfl

/-- A way with a dot in front is a way that may start where it is. -/
theorem exists_lead {way : List (List Char)} (hne : way ≠ []) :
    ∃ lead, IsLead lead ∧ withDot (joinWith ['/'] way) = joinWith ['/'] (lead ++ way) := by
  unfold withDot
  split
  · exact ⟨[], .inl rfl, rfl⟩
  · refine ⟨[['.']], .inr rfl, ?_⟩
    rw [List.singleton_append, joinWith_cons ['/'] ['.'] hne]
    rfl

/-- A file is named, as seen from another one, by the way up from the
segments that only the other one has, and down to it; with a dot in
front. -/
theorem exists_way (hb : ∀ m ∈ b, m ≠ [] ∧ '/' ∉ m) (hn : '/' ∉ n)
    (hc : ∀ m ∈ c, m ≠ [] ∧ '/' ∉ m) (hm : '/' ∉ m) :
    ∃ p b' c', b = p ++ b' ∧ c = p ++ c' ∧ PartAtOnce b' c' ∧
      (moduleSource (ofNames (b ++ [n])) (ofNames (c ++ [m]))).toList
        = withDot (joinWith ['/'] (List.replicate b'.length up ++ c'
          ++ [(dropExtension (String.ofList m)).toList])) := by
  obtain ⟨shared, as', bs', hbs, hcs, hpart, hlength⟩ :=
    exists_shared (b.map String.ofList) (c.map String.ofList)
  -- The segments in common are one part of both directories.
  obtain ⟨p, b', rfl, rfl, rfl⟩ := List.map_eq_append_iff.mp hbs
  obtain ⟨p', c', rfl, hshared, rfl⟩ := List.map_eq_append_iff.mp hcs
  obtain rfl : p' = p := (List.map_inj_right fun _ _ h => String.ofList_injective h).mp hshared
  have hcount : (List.map String.ofList (p' ++ b')).length - (List.map String.ofList p').length
      = b'.length := by simp
  have hdown : List.drop (List.map String.ofList p').length (List.map String.ofList (p' ++ c'))
      = c'.map String.ofList := by rw [List.map_append, List.drop_left]
  -- The written source is the joined segments, with a dot in front where one is needed.
  have hjoined : ("/".intercalate (List.replicate b'.length ".." ++ c'.map String.ofList
      ++ [dropExtension (String.ofList m)])).toList
        = joinWith ['/'] (List.replicate b'.length up ++ c'
          ++ [(dropExtension (String.ofList m)).toList]) := by
    rw [String.toList_intercalate, joinWith_eq_intercalate]
    simp [up]
  refine ⟨p', b', c', rfl, rfl, ?_, ?_⟩
  · cases b' with
    | nil => trivial
    | cons x b' =>
        cases c' with
        | nil => trivial
        | cons y c' => exact fun hxy => hpart (congrArg String.ofList hxy)
  · rw [moduleSource, directorySegments_snoc hb hn, directorySegments_snoc hc hm, hlength,
      fileName_snoc hm, hcount, hdown, ← hjoined]
    unfold withDot
    split
    · rfl
    · rw [String.toList_append]
      rfl

/-- A file is named, as seen from another one, by a way that goes up from
the names that only the other one has, and starts with a dot. -/
theorem exists_moduleSource (hb : ∀ m ∈ b, IsName m) (hn : '/' ∉ n) (hc : ∀ m ∈ c, IsName m)
    (hm : IsName m) : ∃ p b' c' lead, b = p ++ b' ∧ c = p ++ c' ∧ IsLead lead ∧
      (moduleSource (ofNames (b ++ [n])) (ofNames (c ++ [m]))).toList
        = joinWith ['/'] (lead ++ List.replicate b'.length up ++ c'
          ++ [(dropExtension (String.ofList m)).toList]) ∧
      (moduleSource (ofNames (b ++ [n])) (ofNames (c ++ [m]))).toList.head? = some '.' := by
  obtain ⟨p, b', c', rfl, rfl, -, hsource⟩ := exists_way
    (fun s hs => ⟨(hb s hs).1.1, (hb s hs).2.1⟩) hn (fun s hs => ⟨(hc s hs).1.1, (hc s hs).2.1⟩)
    hm.2.1
  have hne : List.replicate b'.length up ++ c' ++ [(dropExtension (String.ofList m)).toList] ≠ [] :=
    by simp
  obtain ⟨lead, hlead, hlong⟩ := exists_lead hne
  refine ⟨p, b', c', lead, rfl, rfl, hlead, ?_, hsource ▸ head_withDot _⟩
  rw [hsource, hlong]
  simp only [List.append_assoc]

end Path

end ScriptRefactor
