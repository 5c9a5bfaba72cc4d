import ScriptRefactor.Proofs.Path.Parents
import ScriptRefactor.Proofs.Workspace.FlushSteps
import ScriptRefactor.Proofs.Workspace.InsideKeys

/-!
# `ScriptRefactor.Proofs.Workspace.Course`: directories made and moved in turn

A flush first creates all staged directories, and then moves directories
in the order in which the moves were recorded. A `Course` says how far
this has got: which directories were made, and which moves had their
turn. Together with the disk before the flush it tells what each place
holds (`Course.find?`): a directory if one was made there or below, else
what the moves brought there.

This is what the disk really holds as long as each move is admitted
(`Course.Admits`): nothing was brought to its target before, and there is
nothing to move, or a directory that can go there. One such move leads
from a disk that a course describes to a disk that the next course
describes (`Course.Describes.movedOn`), and so do all moves together
(`Course.Describes.foldlM_movedOn`). The created directories are the
first course (`Course.exists_describes_start`).
-/

set_option autoImplicit false

namespace ScriptRefactor

/-! ### Places before and behind renames -/

namespace Place

/-- Where a rename brings what is at a place. -/
def carried (m : Place × Place) (p : Place) : Place :=
  if m.1 <+: p then m.2 ++ p.drop m.1.length else p

/-- Where some renames bring what is at a place, the first one first. -/
def behind (renames : List (Place × Place)) (p : Place) : Place :=
  renames.foldl (fun p m => carried m p) p

/-- Where a place stood before some renames, the last one first; `none`
if a rename took away what was there. -/
def before : List (Place × Place) → Place → Option Place
  | [], p => some p
  | (origin, target) :: renames, p =>
    if target <+: p then before renames (origin ++ p.drop target.length)
    else if origin <+: p then none
    else before renames p

/-- What stood somewhere before the renames was brought here by them. -/
theorem behind_of_before {renames : List (Place × Place)} {p k : Place}
    (h : before renames.reverse p = some k) : behind renames k = p := by
  -- The last rename is the first one to go back over.
  induction renames using List.reverseRecOn generalizing p with
  | nil =>
      cases h
      rfl
  | append_singleton renames m ih =>
      rw [List.reverse_append, List.reverse_singleton, List.singleton_append, before] at h
      rw [behind, List.foldl_append, List.foldl_cons, List.foldl_nil]
      by_cases htarget : m.2 <+: p
      · rw [if_pos htarget] at h
        obtain ⟨rest, rfl⟩ := htarget
        have hback := ih h
        rw [behind, List.drop_left] at hback
        rw [hback, carried, if_pos (List.prefix_append _ _), List.drop_left]
      · rw [if_neg htarget] at h
        split at h
        · cases h
        · rename_i horigin
          have hback := ih h
          rw [behind] at hback
          rw [hback, carried, if_neg horigin]

section

variable {origin target p k : Place}

/-- What is below the target behind a rename was below the origin. -/
theorem append_prefix_carried_iff (hbare : target <+: k → k = target) {rest : Place}
    (hrest : rest ≠ []) : target ++ rest <+: carried (origin, target) k ↔ origin ++ rest <+: k := by
  unfold carried
  by_cases horigin : origin <+: k
  · obtain ⟨below, rfl⟩ := horigin
    rw [if_pos (List.prefix_append _ _), List.drop_left, List.prefix_append_right_inj,
      List.prefix_append_right_inj]
  · rw [if_neg horigin]
    constructor
    · intro h
      rw [hbare ((List.prefix_append _ _).trans h)] at h
      exact absurd h.length_le (by simpa [List.length_pos_iff] using hrest)
    · exact fun h => absurd ((List.prefix_append _ _).trans h) horigin

/-- What is beside both ends of a rename, or above only one, is above
what the rename carries along exactly if it is above that end. -/
theorem prefix_carried_iff (htarget : ¬ target <+: p) (horigin : ¬ origin <+: p) :
    (p <+: target ∨ p <+: origin ∨ p <+: carried (origin, target) k) ↔
      (p <+: target ∨ p <+: origin ∨ p <+: k) := by
  unfold carried
  by_cases hk : origin <+: k
  · obtain ⟨below, rfl⟩ := hk
    rw [if_pos (List.prefix_append _ _), List.drop_left]
    -- Where both are prefixes of one place, one is a prefix of the other.
    have hfar : p <+: target ++ below → p <+: target := fun h =>
      (List.prefix_or_prefix_of_prefix h (List.prefix_append _ _)).resolve_right htarget
    have hnear : p <+: origin ++ below → p <+: origin := fun h =>
      (List.prefix_or_prefix_of_prefix h (List.prefix_append _ _)).resolve_right horigin
    tauto
  · rw [if_neg hk]

/-- Nothing is left at the origin of a rename, nor below. -/
theorem not_prefix_carried (hout : ¬ origin <+: target) (horigin : origin <+: p)
    (htarget : ¬ target <+: p) : ¬ p <+: carried (origin, target) k := by
  unfold carried
  split
  · intro h
    rcases List.prefix_or_prefix_of_prefix h (List.prefix_append _ _) with hp | hp
    · exact hout (horigin.trans hp)
    · exact htarget hp
  · rename_i hk
    exact fun h => hk (horigin.trans h)

end

end Place

namespace Workspace

open ScriptRefactor.Path

variable (w : Workspace)

/-! ### Keys and places -/

/-- The place of the directory that holds a key. -/
theorem place_parent {key : String} (h : Inside key) :
    w.place (parent key) = (w.place key).dropLast := by
  obtain ⟨names, hne, hnames, rfl⟩ := h
  obtain ⟨b, n, rfl⟩ := (List.eq_nil_or_concat' names).resolve_left hne
  obtain ⟨hb, hn⟩ := List.forall_mem_append.mp hnames
  rw [parent_ofNames (hn n (by simp)), w.place_ofNames_append hb hn, List.map_singleton,
    List.dropLast_concat]

/-- Another beginning for a key, by places. -/
theorem replacePrefix?_within {key old new : String} (hkey : Within key) (hold : Inside old)
    (hnew : Inside new) :
    (w.place old <+: w.place key ∧ ∃ k, replacePrefix? key old new = some k ∧ Within k ∧
        w.place k = w.place new ++ (w.place key).drop (w.place old).length) ∨
      (¬ w.place old <+: w.place key ∧ replacePrefix? key old new = none) := by
  obtain ⟨names, hnames, rfl⟩ := hkey
  obtain ⟨as, hasne, has, rfl⟩ := hold
  obtain ⟨bs, hbsne, hbs, rfl⟩ := hnew
  rw [w.prefix_place_ofNames hnames has, replacePrefix?_ofNames hnames has hbs hasne hbsne]
  by_cases hpre : as <+: names
  · obtain ⟨rest, rfl⟩ := hpre
    have hrest := (List.forall_mem_append.mp hnames).2
    refine .inl ⟨List.prefix_append as rest, _, if_pos (List.prefix_append as rest), ?_, ?_⟩
    · rw [List.drop_left]
      exact ⟨bs ++ rest, List.forall_mem_append.mpr ⟨hbs, hrest⟩, rfl⟩
    · rw [List.drop_left, w.place_ofNames_append hbs hrest, w.place_ofNames_append has hrest,
        List.drop_left]
  · exact .inr ⟨hpre, if_neg hpre⟩

/-- What is carried along with a directory, by places. -/
theorem place_carried {m : String × String} (hm : Inside m.1 ∧ Inside m.2) {key : String}
    (hkey : Within key) : Within (carried m.1 m.2 key) ∧
      w.place (carried m.1 m.2 key) = Place.carried (w.place m.1, w.place m.2) (w.place key) := by
  rw [carried, Place.carried]
  rcases w.replacePrefix?_within hkey hm.1 hm.2 with ⟨hpre, k, hk, hwithin, hplace⟩ | ⟨hpre, hnone⟩
  · rw [hk, Option.getD_some, if_pos hpre, hplace]
    exact ⟨hwithin, rfl⟩
  · rw [hnone, if_neg hpre]
    exact ⟨hkey, rfl⟩

/-- The places of the keys of some moves. -/
def placesOf (moves : List (String × String)) : List (Place × Place) :=
  moves.map fun m => (w.place m.1, w.place m.2)

/-- Where a key stood before some directory moves, by places. -/
theorem map_place_beforeDirMoves {moves : List (String × String)}
    (hmoves : ∀ m ∈ moves, Inside m.1 ∧ Inside m.2) {key : String} (hkey : Within key) :
    (beforeDirMoves moves key).map w.place = Place.before (w.placesOf moves) (w.place key) := by
  induction moves generalizing key with
  | nil => rfl
  | cons m moves ih =>
      -- Going back over a move takes the target for its origin.
      obtain ⟨hm, hmoves⟩ := List.forall_mem_cons.mp hmoves
      rw [beforeDirMoves, placesOf, List.map_cons, Place.before]
      rcases w.replacePrefix?_within hkey hm.2 hm.1 with
        ⟨hpre, k, hk, hwithin, hplace⟩ | ⟨hpre, hnone⟩
      · rw [hk, if_pos hpre, ← hplace]
        exact ih hmoves hwithin
      · rw [hnone, if_neg hpre]
        have hunder := w.prefix_place_iff hkey hm.1.within
        by_cases horigin : isUnder key m.1 = true
        · rw [if_pos (hunder.mpr horigin)]
          simp [horigin]
        · rw [if_neg (mt hunder.mp horigin)]
          simp only [horigin]
          exact ih hmoves hkey

/-! ### Courses -/

/-- How far a flush has got with its directories. -/
structure Course where
  /-- The directories made, with all above them, where they are now. -/
  made : List String
  /-- The moves that had their turn. -/
  moved : List (String × String)

/-- Before the moves, the staged directories are made. -/
def start : Course := ⟨w.dirs.toList, []⟩

namespace Course

variable (c : Course) (d : Disk)

/-- What stood on disk and is at a place now. -/
def standing (p : Place) : Option Entry :=
  (Place.before (w.placesOf c.moved).reverse p).bind d.find?

/-- What a place holds now. -/
def find? (p : Place) : Option Entry :=
  if ∃ k ∈ c.made, p <+: w.place k then some .dir else c.standing w d p

/-- A move had its turn. If there was a directory to move, those that
hold its origin and its target are there for certain, and what was made
below the origin has been carried along. -/
def next (m : String × String) : Course where
  made :=
    if c.find? w d (w.place m.1) = none then c.made
    else parent m.1 :: parent m.2 :: c.made.map (Workspace.carried m.1 m.2)
  moved := c.moved ++ [m]

/-- A directory can be moved. -/
structure Carries (m : String × String) : Prop where
  /-- There is a directory to move. -/
  origin : c.find? w d (w.place m.1) = some .dir
  /-- It is not moved below itself. -/
  apart : isUnder m.2 m.1 = false
  /-- No directory was made below the target. -/
  bare : ∀ k ∈ c.made, isUnder k m.2 = true → k = m.2
  /-- No file is on the way to the target. -/
  way : ∀ p ∈ (w.place m.2).dropLast.inits,
    c.find? w d p = none ∨ c.find? w d p = some .dir

/-- A move can have its turn. -/
structure Admits (m : String × String) : Prop where
  /-- Nothing from the disk was brought to the target. -/
  free : ∀ p ∈ [] :: d.entries.map Prod.fst, ¬ w.place m.2 <+: Place.behind (w.placesOf c.moved) p
  /-- There is nothing to move, or it can be moved. -/
  goes : c.find? w d (w.place m.1) = none ∨ c.Carries w d m

end Course

/-- The course behind all moves of directories. -/
def finish (d : Disk) : Course := w.dirMoves.foldl (fun c m => c.next w d m) w.start

/-- The moves can have their turns one after the other. -/
def InTurn (d : Disk) : Course → List (String × String) → Prop
  | _, [] => True
  | c, m :: moves => c.Admits w d m ∧ InTurn d (c.next w d m) moves

/-- No file is at a staged directory or on the way to it. -/
def IsClear (d : Disk) : Prop :=
  ∀ k ∈ w.dirs.toList, ∀ p ∈ (w.place k).inits, d.isFile p = false

instance (c : Course) (d : Disk) (m : String × String) : Decidable (c.Carries w d m) :=
  decidable_of_iff (c.find? w d (w.place m.1) = some .dir ∧ isUnder m.2 m.1 = false
      ∧ (∀ k ∈ c.made, isUnder k m.2 = true → k = m.2)
      ∧ ∀ p ∈ (w.place m.2).dropLast.inits, c.find? w d p = none ∨ c.find? w d p = some .dir)
    ⟨fun ⟨h1, h2, h3, h4⟩ => ⟨h1, h2, h3, h4⟩, fun h => ⟨h.origin, h.apart, h.bare, h.way⟩⟩

instance (c : Course) (d : Disk) (m : String × String) : Decidable (c.Admits w d m) :=
  decidable_of_iff ((∀ p ∈ [] :: d.entries.map Prod.fst,
        ¬ w.place m.2 <+: Place.behind (w.placesOf c.moved) p)
      ∧ (c.find? w d (w.place m.1) = none ∨ c.Carries w d m))
    ⟨fun ⟨h1, h2⟩ => ⟨h1, h2⟩, fun h => ⟨h.free, h.goes⟩⟩

instance decidableInTurn (d : Disk) :
    ∀ (c : Course) (moves : List (String × String)), Decidable (w.InTurn d c moves)
  | _, [] => isTrue trivial
  | c, m :: moves =>
    have := decidableInTurn d (c.next w d m) moves
    inferInstanceAs (Decidable (c.Admits w d m ∧ w.InTurn d (c.next w d m) moves))

instance (d : Disk) : Decidable (w.IsClear d) :=
  inferInstanceAs (Decidable (∀ k ∈ w.dirs.toList, ∀ p ∈ (w.place k).inits, d.isFile p = false))

/-! ### One move -/

namespace Course

variable {w} {c : Course} {d d₁ : Disk} {m : String × String} {p : Place}

/-- What is not made stands there. -/
theorem standing_eq_none (h : c.find? w d p = none) : c.standing w d p = none := by
  unfold find? at h
  split at h
  · cases h
  · exact h

/-- What stands at a place behind one more move. -/
theorem standing_next : (c.next w d m).standing w d p =
    if w.place m.2 <+: p then c.standing w d (w.place m.1 ++ p.drop (w.place m.2).length)
    else if w.place m.1 <+: p then none else c.standing w d p := by
  have hmoves : (w.placesOf (c.next w d m).moved).reverse =
      (w.place m.1, w.place m.2) :: (w.placesOf c.moved).reverse := by
    rw [next, placesOf, List.map_append, List.reverse_append]
    rfl
  rw [standing, hmoves, Place.before]
  split
  · rfl
  · split <;> rfl

/-- Where nothing was brought, nothing stands. -/
theorem Admits.standing_eq_none (h : c.Admits w d m) (hp : w.place m.2 <+: p) :
    c.standing w d p = none := by
  -- What stands there would have been brought there from an occupied place.
  by_contra hsome
  obtain ⟨e, he⟩ := Option.ne_none_iff_exists'.mp hsome
  obtain ⟨k, hk, he⟩ := Option.bind_eq_some_iff.mp he
  refine h.free k ?_ (by rwa [Place.behind_of_before hk])
  by_cases hnil : k = []
  · exact hnil ▸ List.mem_cons_self ..
  · obtain ⟨e', hmem, rfl⟩ := (Disk.occupied_iff_mem hnil).mp (Option.isSome_iff_exists.mpr ⟨e, he⟩)
    exact List.mem_cons_of_mem _ (List.mem_map_of_mem hmem)

/-- The course tells what the places of the disk hold. -/
structure Describes (w : Workspace) (c : Course) (d d₁ : Disk) : Prop where
  /-- Directories are made inside. -/
  within : ∀ k ∈ c.made, Within k
  /-- The disk is a tree. -/
  tree : d₁.IsTree
  /-- It holds what the course tells. -/
  find : ∀ p, d₁.find? p = c.find? w d p

/-- At and below a place that holds no directory, nothing changes that. -/
theorem Describes.find?_eq_none (h : Describes w c d d₁) {o : Place} (ho : c.find? w d o = none)
    (hp : o <+: p) : c.find? w d p = none := by
  by_cases hne : o = p
  · rwa [← hne]
  · rw [← h.find]
    refine h.tree.find?_eq_none ?_ hp hne
    rw [← Bool.not_eq_true, Disk.isDir_iff, h.find, ho]
    simp

/-- Above a place that holds something there are directories. -/
theorem Describes.find?_eq_dir (h : Describes w c d d₁) {q : Place} (hq : c.find? w d q ≠ none)
    (hp : p <+: q) (hne : p ≠ q) : c.find? w d p = some .dir := by
  rw [← h.find] at hq ⊢
  exact Disk.isDir_iff.mp (h.tree.isDir_of_prefix hp hne (Option.isSome_iff_ne_none.mpr hq))

/-- A move that finds nothing changes nothing. -/
theorem Describes.find?_next_of_none (h : Describes w c d d₁) (hadmits : c.Admits w d m)
    (hnone : c.find? w d (w.place m.1) = none) : (c.next w d m).find? w d p = c.find? w d p := by
  have hmade : (c.next w d m).made = c.made := if_pos hnone
  rw [find?, hmade, find?]
  by_cases habove : ∃ k ∈ c.made, p <+: w.place k
  · rw [if_pos habove, if_pos habove]
  · rw [if_neg habove, if_neg habove, standing_next]
    -- The target takes over the nothing at the origin, where nothing was either.
    by_cases htarget : w.place m.2 <+: p
    · rw [if_pos htarget, hadmits.standing_eq_none htarget]
      exact Course.standing_eq_none (h.find?_eq_none hnone (List.prefix_append _ _))
    · rw [if_neg htarget]
      by_cases horigin : w.place m.1 <+: p
      · rw [if_pos horigin, Course.standing_eq_none (h.find?_eq_none hnone horigin)]
      · rw [if_neg horigin]

/-- Below the target of a move nothing is. -/
theorem Carries.find?_eq_none (h : c.Carries w d m) (hadmits : c.Admits w d m)
    (hwithin : ∀ k ∈ c.made, Within k) (htarget : Inside m.2) (hp : w.place m.2 <+: p)
    (hne : p ≠ w.place m.2) : c.find? w d p = none := by
  rw [find?, if_neg]
  · exact hadmits.standing_eq_none hp
  · -- A directory made there would be at or below the target.
    rintro ⟨k, hk, hpk⟩
    have hunder := (w.prefix_place_iff (hwithin k hk) htarget.within).mp (hp.trans hpk)
    rw [h.bare k hk hunder] at hpk
    exact hne (hpk.eq_of_length_le hp.length_le)

/-- What is above a directory that was made, behind a move. -/
theorem Carries.exists_made_next_iff (h : c.Carries w d m) (hm : Inside m.1 ∧ Inside m.2)
    (hwithin : ∀ k ∈ c.made, Within k) : (∃ k ∈ (c.next w d m).made, p <+: w.place k) ↔
      p <+: (w.place m.1).dropLast ∨ p <+: (w.place m.2).dropLast ∨
        ∃ k ∈ c.made, p <+: Place.carried (w.place m.1, w.place m.2) (w.place k) := by
  have hmade : (c.next w d m).made =
      parent m.1 :: parent m.2 :: c.made.map (Workspace.carried m.1 m.2) :=
    if_neg (by rw [h.origin]; simp)
  have hcarried : (∃ k ∈ c.made.map (Workspace.carried m.1 m.2), p <+: w.place k) ↔
      ∃ k ∈ c.made, p <+: Place.carried (w.place m.1, w.place m.2) (w.place k) := by
    simp only [List.mem_map, exists_exists_and_eq_and]
    refine exists_congr fun k => and_congr_right fun hk => ?_
    rw [(w.place_carried hm (hwithin k hk)).2]
  simp only [hmade, List.mem_cons, or_and_right, exists_or, exists_eq_left, hcarried,
    w.place_parent hm.1, w.place_parent hm.2]

/-- A directory is not moved below itself. -/
theorem Carries.not_prefix (h : c.Carries w d m) (hm : Inside m.1 ∧ Inside m.2) :
    ¬ w.place m.1 <+: w.place m.2 := by
  rw [w.prefix_place_iff hm.2.within hm.1.within, h.apart]
  simp

/-- The origin is not below the target, where nothing is. -/
theorem Carries.not_target_prefix (h : c.Carries w d m) (hadmits : c.Admits w d m)
    (hm : Inside m.1 ∧ Inside m.2) (hwithin : ∀ k ∈ c.made, Within k) :
    ¬ w.place m.2 <+: w.place m.1 := by
  intro habove
  have hne : w.place m.1 ≠ w.place m.2 := by
    intro heq
    refine h.not_prefix hm ?_
    rw [heq]
  have horigin := h.origin
  rw [h.find?_eq_none hadmits hwithin hm.2 habove hne] at horigin
  cases horigin

/-- Below the target is what was made below the origin. -/
theorem Carries.exists_made_target_iff (h : c.Carries w d m) (hadmits : c.Admits w d m)
    (hm : Inside m.1 ∧ Inside m.2) (hwithin : ∀ k ∈ c.made, Within k) {rest : Place}
    (hrest : rest ≠ []) : (∃ k ∈ (c.next w d m).made, w.place m.2 ++ rest <+: w.place k) ↔
      ∃ k ∈ c.made, w.place m.1 ++ rest <+: w.place k := by
  have hcarried : (∃ k ∈ c.made,
      w.place m.2 ++ rest <+: Place.carried (w.place m.1, w.place m.2) (w.place k)) ↔
      ∃ k ∈ c.made, w.place m.1 ++ rest <+: w.place k := by
    refine exists_congr fun k => and_congr_right fun hk => ?_
    refine Place.append_prefix_carried_iff (fun hpre => ?_) hrest
    rw [w.prefix_place_iff (hwithin k hk) hm.2.within] at hpre
    rw [h.bare k hk hpre]
  rw [h.exists_made_next_iff hm hwithin, hcarried]
  refine ⟨fun hp => ?_, fun hp => .inr (.inr hp)⟩
  rcases hp with hp | hp | hp
  · have habove := ((List.prefix_append _ rest).trans hp).trans (List.dropLast_prefix _)
    exact absurd habove (h.not_target_prefix hadmits hm hwithin)
  · have hself := (List.prefix_append _ rest).trans hp
    exact absurd rfl ((Disk.prefix_dropLast_iff (w.place_ne_nil hm.2)).mp hself).2
  · exact hp

/-- At and below the target is what was at and below the origin. -/
theorem Describes.find?_next_target (h : Describes w c d d₁) (hadmits : c.Admits w d m)
    (hcarries : c.Carries w d m) (hm : Inside m.1 ∧ Inside m.2) (rest : Place) :
    (c.next w d m).find? w d (w.place m.2 ++ rest) = c.find? w d (w.place m.1 ++ rest) := by
  have hstanding : (c.next w d m).standing w d (w.place m.2 ++ rest) =
      c.standing w d (w.place m.1 ++ rest) := by
    rw [standing_next, if_pos (List.prefix_append _ _), List.drop_left]
  by_cases hrest : rest = []
  · -- The target is a directory, whether the one at the origin was made or not.
    subst hrest
    rw [List.append_nil, List.append_nil] at hstanding
    rw [List.append_nil, List.append_nil, hcarries.origin, find?]
    split
    · rfl
    · rename_i hfree
      have horigin := hcarries.origin
      rw [find?, if_neg] at horigin
      · rw [hstanding, horigin]
      · rintro ⟨k, hk, below, hbelow⟩
        refine hfree ((hcarries.exists_made_next_iff hm h.within).mpr (.inr (.inr ⟨k, hk, ?_⟩)))
        rw [Place.carried, ← hbelow, if_pos (List.prefix_append _ _), List.drop_left]
        exact List.prefix_append _ _
  · simp only [find?, hcarries.exists_made_target_iff hadmits hm h.within hrest, hstanding]

/-- At and below the origin nothing is left. -/
theorem Describes.find?_next_origin (h : Describes w c d d₁) (hcarries : c.Carries w d m)
    (hm : Inside m.1 ∧ Inside m.2) (horigin : w.place m.1 <+: p) (htarget : ¬ w.place m.2 <+: p) :
    (c.next w d m).find? w d p = none := by
  rw [find?, standing_next, if_neg htarget, if_pos horigin, if_neg]
  -- Nothing made is left there: what was made below the origin has been carried along.
  rw [hcarries.exists_made_next_iff hm h.within]
  rintro (hp | hp | ⟨k, -, hp⟩)
  · exact ((Disk.prefix_dropLast_iff (w.place_ne_nil hm.1)).mp (horigin.trans hp)).2 rfl
  · exact hcarries.not_prefix hm (horigin.trans (hp.trans (List.dropLast_prefix _)))
  · exact Place.not_prefix_carried (hcarries.not_prefix hm) horigin htarget hp

/-- Beside both is what was there, and the way to the target. -/
theorem Describes.find?_next_beside (h : Describes w c d d₁) (hcarries : c.Carries w d m)
    (hm : Inside m.1 ∧ Inside m.2) (horigin : ¬ w.place m.1 <+: p)
    (htarget : ¬ w.place m.2 <+: p) : (c.next w d m).find? w d p =
      if p <+: (w.place m.2).dropLast then some .dir else c.find? w d p := by
  have habove : ∀ {q}, q ≠ [] → ¬ q <+: p → (p <+: q.dropLast ↔ p <+: q) := fun {q} hne hq => by
    rw [Disk.prefix_dropLast_iff hne, and_iff_left]
    rintro rfl
    exact hq List.prefix_rfl
  have hmade := hcarries.exists_made_next_iff hm h.within (p := p)
  rw [habove (w.place_ne_nil hm.1) horigin, habove (w.place_ne_nil hm.2) htarget] at hmade
  have hway := habove (w.place_ne_nil hm.2) htarget
  simp only [find?, hmade, standing_next, if_neg htarget, if_neg horigin]
  by_cases hto : p <+: w.place m.2
  · rw [if_pos (hway.mpr hto), if_pos (.inr (.inl hto))]
  · rw [if_neg (mt hway.mp hto)]
    by_cases hfrom : p <+: w.place m.1
    · -- Above the origin there was a directory already.
      have hdir := h.find?_eq_dir (by rw [hcarries.origin]; simp) hfrom
      rw [if_pos (.inl hfrom), ← find?, hdir]
      rintro rfl
      exact horigin List.prefix_rfl
    · have hk : ∀ k, p <+: Place.carried (w.place m.1, w.place m.2) (w.place k) ↔
          p <+: w.place k := by
        intro k
        have hiff := Place.prefix_carried_iff htarget horigin (k := w.place k)
        simpa only [hto, hfrom, false_or] using hiff
      simp only [hto, hfrom, hk, false_or]

/-- Directories are still made inside. -/
theorem within_next (hm : Inside m.1 ∧ Inside m.2) (h : ∀ k ∈ c.made, Within k) :
    ∀ k ∈ (c.next w d m).made, Within k := by
  unfold next
  dsimp only
  split
  · exact h
  · intro k hk
    rcases List.mem_cons.mp hk with rfl | hk
    · exact hm.1.within_parent
    · rcases List.mem_cons.mp hk with rfl | hk
      · exact hm.2.within_parent
      · obtain ⟨j, hj, rfl⟩ := List.mem_map.mp hk
        exact (w.place_carried hm (h j hj)).1

/-- A move that can have its turn goes through, and leaves the disk that
the course tells. -/
theorem Describes.movedOn (h : Describes w c d d₁) (hm : Inside m.1 ∧ Inside m.2)
    (hadmits : c.Admits w d m) :
    ∃ d₂, w.movedOn d₁ m = some d₂ ∧ Describes w (c.next w d m) d d₂ := by
  have hwithin : ∀ k ∈ (c.next w d m).made, Within k := within_next hm h.within
  unfold Workspace.movedOn
  rw [Disk.occupied, h.find]
  rcases hadmits.goes with hnone | hcarries
  · -- With nothing at the origin the disk stays as it is.
    rw [hnone]
    exact ⟨d₁, rfl, hwithin, h.tree, fun p =>
      (h.find p).trans (h.find?_next_of_none hadmits hnone).symm⟩
  · have hfile : ∀ p, c.find? w d p = none ∨ c.find? w d p = some .dir → d₁.isFile p = false :=
      fun p hp => Disk.isFile_eq_false_iff.mpr (h.find p ▸ hp)
    have hbare : ∀ q, w.place m.2 <+: q → q ≠ w.place m.2 → d₁.find? q = none := fun q hq hne =>
      (h.find q).trans (hcarries.find?_eq_none hadmits h.within hm.2 hq hne)
    have htarget : c.find? w d (w.place m.2) = none ∨ c.find? w d (w.place m.2) = some .dir := by
      rw [find?, hadmits.standing_eq_none List.prefix_rfl]
      split
      · exact .inr rfl
      · exact .inl rfl
    obtain ⟨d₂, hrename, htree, hfind⟩ := Disk.exists_rename_of_bare h.tree
      ((h.find _).trans hcarries.origin) (hcarries.not_prefix hm)
      (fun p hp => hfile p (hcarries.way p hp)) (hfile _ htarget) hbare
    rw [hcarries.origin]
    refine ⟨d₂, hrename, hwithin, htree, fun p => ?_⟩
    rw [hfind, h.find, h.find]
    -- A place is at or below the target, at or below the origin, or beside both.
    by_cases htp : w.place m.2 <+: p
    · obtain ⟨rest, rfl⟩ := htp
      rw [if_pos (List.prefix_append _ _), List.drop_left,
        h.find?_next_target hadmits hcarries hm]
    · rw [if_neg htp]
      by_cases hop : w.place m.1 <+: p
      · rw [if_pos hop, h.find?_next_origin hcarries hm hop htp]
      · rw [if_neg hop, h.find?_next_beside hcarries hm hop htp]

/-! ### All moves -/

/-- Moves that can have their turns one after the other go through. -/
theorem Describes.foldlM_movedOn (h : Describes w c d d₁) {moves : List (String × String)}
    (hmoves : ∀ m ∈ moves, Inside m.1 ∧ Inside m.2) (hturn : w.InTurn d c moves) :
    ∃ d₂, moves.foldlM w.movedOn d₁ = some d₂ ∧
      Describes w (moves.foldl (fun c m => c.next w d m) c) d d₂ := by
  induction moves generalizing c d₁ with
  | nil => exact ⟨d₁, rfl, h⟩
  | cons m moves ih =>
      obtain ⟨hm, hmoves⟩ := List.forall_mem_cons.mp hmoves
      obtain ⟨hadmits, hturn⟩ := hturn
      obtain ⟨d₂, hstep, hnext⟩ := h.movedOn hm hadmits
      obtain ⟨d₃, hrun, hlast⟩ := ih hnext hmoves hturn
      refine ⟨d₃, ?_, hlast⟩
      rw [List.foldlM_cons, hstep]
      exact hrun

/-- All moves have had their turns. -/
theorem moved_foldl_next (c : Course) (moves : List (String × String)) :
    (moves.foldl (fun c m => c.next w d m) c).moved = c.moved ++ moves := by
  induction moves generalizing c with
  | nil => exact (List.append_nil _).symm
  | cons m moves ih =>
      rw [List.foldl_cons, ih, next, List.append_assoc]
      rfl

/-- A directory that no file keeps out is created. -/
theorem exists_createdOn {k : String} (hd : d₁.IsTree)
    (hway : ∀ p ∈ (w.place k).inits, d₁.isFile p = false) :
    ∃ d₂, w.createdOn d₁ k = some d₂ ∧ d₂.IsTree ∧
      ∀ p, d₂.find? p = if p <+: w.place k then some .dir else d₁.find? p := by
  unfold createdOn
  split
  · rename_i hocc
    refine ⟨d₁, rfl, hd, fun p => ?_⟩
    split
    · rename_i hp
      -- What is there already stands in directories.
      have hthere := hd.occupied_of_prefix hp hocc
      have hfile := Disk.isFile_eq_false_iff.mp (hway p ((List.mem_inits _ _).mpr hp))
      exact hfile.resolve_left (Option.isSome_iff_ne_none.mp hthere)
    · rfl
  · obtain ⟨d₂, h₂⟩ := Disk.exists_makeDirs hway
    exact ⟨d₂, h₂, hd.makeDirs h₂, Disk.find?_makeDirs h₂⟩

/-- Directories that no file keeps out are all created. -/
theorem exists_foldlM_createdOn (hd : d.IsTree) (dirs : List String)
    (hclear : ∀ k ∈ dirs, ∀ p ∈ (w.place k).inits, d.isFile p = false) :
    ∃ d₁, dirs.foldlM w.createdOn d = some d₁ ∧ d₁.IsTree ∧
      ∀ p, d₁.find? p = if ∃ k ∈ dirs, p <+: w.place k then some .dir else d.find? p := by
  -- From the right, so that the disk before the first directory stays the same.
  induction dirs using List.reverseRecOn with
  | nil => exact ⟨d, rfl, hd, fun p => by simp⟩
  | append_singleton dirs k ih =>
      obtain ⟨d₁, hrun, hd₁, hfind⟩ := ih fun j hj => hclear j (by simp [hj])
      -- No file has come in the way.
      have hway : ∀ p ∈ (w.place k).inits, d₁.isFile p = false := fun p hp => by
        rw [Disk.isFile_eq_false_iff, hfind]
        split
        · exact .inr rfl
        · exact Disk.isFile_eq_false_iff.mp (hclear k (by simp) p hp)
      obtain ⟨d₂, h₂, hd₂, hfind₂⟩ := exists_createdOn hd₁ hway
      refine ⟨d₂, ?_, hd₂, fun p => ?_⟩
      · rw [List.foldlM_append, hrun, Option.bind_eq_bind, Option.bind_some, List.foldlM_cons, h₂]
        rfl
      · rw [hfind₂, hfind]
        by_cases hk : p <+: w.place k
        · rw [if_pos hk, if_pos ⟨k, by simp, hk⟩]
        · rw [if_neg hk]
          congr 1
          simp [or_and_right, exists_or, hk]

/-- The staged directories are created as the first course tells. -/
theorem exists_describes_start (hd : d.IsTree) (hdirs : ∀ k ∈ w.dirs.toList, Within k)
    (hclear : w.IsClear d) :
    ∃ d₁, w.dirs.toList.foldlM w.createdOn d = some d₁ ∧ Describes w w.start d d₁ := by
  obtain ⟨d₁, hrun, htree, hfind⟩ := exists_foldlM_createdOn hd w.dirs.toList hclear
  exact ⟨d₁, hrun, hdirs, htree, hfind⟩

end Course

end Workspace

end ScriptRefactor
