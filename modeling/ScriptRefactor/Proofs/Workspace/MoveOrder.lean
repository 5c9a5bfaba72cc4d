import Mathlib.Data.List.Nodup
import Mathlib.Tactic.Tauto
import ScriptRefactor.Workspace.Stage

/-!
# `ScriptRefactor.Proofs.Workspace.MoveOrder`: file moves one after the other

The view of a workspace takes the content of a key from `originOf`:
the origin of the move to it, or the key itself. A flush carries the
moves out one after the other, so that the content of a key comes
from `beforeMoves`.

The recorded moves are a `PartialInjection`: each file is moved once,
and to a place of its own. For such moves the two differ only where
the order of the moves matters. A key is *overtaken* when the move to
it comes before the move from it: then a file is carried away that
only just arrived (`beforeMoves_of_isOvertaken`). Everywhere else, and
nowhere but there, a flush does what the view shows
(`beforeMoves_eq_some_originOf_iff`).
-/

set_option autoImplicit false

namespace ScriptRefactor.Workspace

/-! ### Recorded moves -/

/-- Moves from keys that are all different to keys that are all
different; none goes nowhere. -/
structure PartialInjection (moves : List (String × String)) : Prop where
  /-- No file is moved twice. -/
  origins : (moves.map Prod.fst).Nodup
  /-- No two files are moved to one key. -/
  targets : (moves.map Prod.snd).Nodup
  /-- No file is moved to where it is. -/
  ne : ∀ m ∈ moves, m.1 ≠ m.2

/-- The key whose file the view shows at a key. -/
def originOf (moves : List (String × String)) (key : String) : String :=
  match moves.find? fun m => m.2 = key with
  | some m => m.1
  | none => key

/-- Where what stands at a key behind a move stood before it. -/
def beforeMove (m : String × String) (key : String) : Option String :=
  if key = m.2 then some m.1 else if key = m.1 then none else some key

/-- Where what stands at a key behind some moves, carried out one after
the other, stood before them. -/
def beforeMoves (moves : List (String × String)) (key : String) : Option String :=
  moves.foldr (fun m key? => key?.bind (beforeMove m)) (some key)

/-- A move to the key comes before a move from it. -/
def isOvertaken (key : String) : List (String × String) → Bool
  | [] => false
  | m :: moves => (m.2 = key && moves.any fun n => n.1 = key) || isOvertaken key moves

variable {m : String × String} {moves : List (String × String)} {key : String}

/-- The moves behind the first one. -/
theorem PartialInjection.tail (h : PartialInjection (m :: moves)) : PartialInjection moves where
  origins := (List.nodup_cons.mp h.origins).2
  targets := (List.nodup_cons.mp h.targets).2
  ne := fun n hn => h.ne n (List.mem_cons_of_mem m hn)

/-- The first move has its origin for itself. -/
theorem PartialInjection.fst_ne (h : PartialInjection (m :: moves)) {n : String × String}
    (hn : n ∈ moves) : n.1 ≠ m.1 :=
  fun heq => (List.nodup_cons.mp h.origins).1 (List.mem_map.mpr ⟨n, hn, heq⟩)

/-- The first move has its target for itself. -/
theorem PartialInjection.snd_ne (h : PartialInjection (m :: moves)) {n : String × String}
    (hn : n ∈ moves) : n.2 ≠ m.2 :=
  fun heq => (List.nodup_cons.mp h.targets).1 (List.mem_map.mpr ⟨n, hn, heq⟩)

/-- Moves with the same target are the same. -/
theorem PartialInjection.eq_of_snd_eq (h : PartialInjection moves) {m n : String × String}
    (hm : m ∈ moves) (hn : n ∈ moves) (heq : m.2 = n.2) : m = n :=
  List.inj_on_of_nodup_map h.targets hm hn heq

/-- Moves with the same origin are the same. -/
theorem PartialInjection.eq_of_fst_eq (h : PartialInjection moves) {m n : String × String}
    (hm : m ∈ moves) (hn : n ∈ moves) (heq : m.1 = n.1) : m = n :=
  List.inj_on_of_nodup_map h.origins hm hn heq

/-- The move to a target is known by its origin. -/
theorem PartialInjection.mk_snd_mem_iff (h : PartialInjection moves) (hm : m ∈ moves)
    (origin : String) : (origin, m.2) ∈ moves ↔ origin = m.1 := by
  constructor
  · intro hn
    have heq : (origin, m.2) = m := h.eq_of_snd_eq hn hm rfl
    exact (Prod.ext_iff.mp heq).1
  · rintro rfl
    exact hm

/-- The moves to other targets are all but one. -/
theorem PartialInjection.mem_others_iff {before after : List (String × String)}
    (h : PartialInjection (before ++ m :: after)) (n : String × String) :
    n ∈ before ++ m :: after ∧ n.2 ≠ m.2 ↔ n ∈ before ++ after := by
  have htargets := h.targets
  rw [List.map_append, List.map_cons, List.nodup_middle, ← List.map_append] at htargets
  have hnot := (List.nodup_cons.mp htargets).1
  rw [List.mem_append, List.mem_cons, List.mem_append]
  constructor
  · rintro ⟨hn | rfl | hn, hne⟩
    · exact .inl hn
    · exact absurd rfl hne
    · exact .inr hn
  · intro hn
    refine ⟨by tauto, fun heq => hnot ?_⟩
    exact List.mem_map.mpr ⟨n, List.mem_append.mpr hn, heq⟩

/-- Some of the moves. -/
theorem PartialInjection.sublist {rest : List (String × String)} (h : PartialInjection moves)
    (hsub : rest.Sublist moves) : PartialInjection rest :=
  ⟨h.origins.sublist (hsub.map _), h.targets.sublist (hsub.map _),
    fun n hn => h.ne n (hsub.subset hn)⟩

/-- One move less. -/
theorem PartialInjection.remove {before after : List (String × String)}
    (h : PartialInjection (before ++ m :: after)) : PartialInjection (before ++ after) :=
  h.sublist ((List.sublist_cons_self m after).append_left before)

/-- A move to another target, to which nothing was moved. -/
theorem PartialInjection.retarget {before after : List (String × String)} {target : String}
    (h : PartialInjection (before ++ m :: after))
    (htarget : ∀ n ∈ before ++ m :: after, n.2 ≠ target) (hne : m.1 ≠ target) :
    PartialInjection (before ++ (m.1, target) :: after) where
  origins := by simpa using h.origins
  targets := by
    have hothers := h.remove.targets
    rw [List.map_append] at hothers
    rw [List.map_append, List.map_cons, List.nodup_middle]
    refine List.nodup_cons.mpr ⟨fun hmem => ?_, hothers⟩
    rw [← List.map_append] at hmem
    obtain ⟨n, hn, heq⟩ := List.mem_map.mp hmem
    exact htarget n (by simp only [List.mem_append, List.mem_cons] at hn ⊢; tauto) heq
  ne := by
    intro n hn
    rcases List.mem_append.mp hn with hn | hn
    · exact h.ne n (by simp [hn])
    · rcases List.mem_cons.mp hn with rfl | hn
      · exact hne
      · exact h.ne n (by simp [hn])

/-- One more move, from a key from which nothing was moved to a key to
which nothing was moved. -/
theorem PartialInjection.snoc (h : PartialInjection moves) (horigin : ∀ n ∈ moves, n.1 ≠ m.1)
    (htarget : ∀ n ∈ moves, n.2 ≠ m.2) (hne : m.1 ≠ m.2) : PartialInjection (moves ++ [m]) where
  origins := by
    rw [List.map_append]
    refine List.nodup_append_comm.mp (List.nodup_cons.mpr ⟨fun hmem => ?_, h.origins⟩)
    obtain ⟨n, hn, heq⟩ := List.mem_map.mp hmem
    exact horigin n hn heq
  targets := by
    rw [List.map_append]
    refine List.nodup_append_comm.mp (List.nodup_cons.mpr ⟨fun hmem => ?_, h.targets⟩)
    obtain ⟨n, hn, heq⟩ := List.mem_map.mp hmem
    exact htarget n hn heq
  ne := List.forall_mem_append.mpr ⟨h.ne, by simpa using hne⟩

/-! ### The view -/

/-- The origin of the move to a key. -/
theorem originOf_eq_fst (h : PartialInjection moves) (hm : m ∈ moves) :
    originOf moves m.2 = m.1 := by
  unfold originOf
  cases hfind : moves.find? fun n => n.2 = m.2 with
  | none =>
      have := List.find?_eq_none.mp hfind m hm
      simp at this
  | some n =>
      have hn := List.find?_some hfind
      rw [h.eq_of_snd_eq (List.mem_of_find?_eq_some hfind) hm (of_decide_eq_true hn)]

/-- A key to which nothing is moved shows its own file. -/
theorem originOf_eq_self (h : ∀ m ∈ moves, m.2 ≠ key) : originOf moves key = key := by
  unfold originOf
  rw [List.find?_eq_none.mpr fun m hm => by simpa using h m hm]

/-! ### One move after the other -/

/-- What stands at a key behind a move, and does not come from its
origin, stood there before it. -/
theorem beforeMove_eq_some_iff {j k : String} (hne : k ≠ m.1) :
    beforeMove m j = some k ↔ j = k ∧ m.2 ≠ k := by
  unfold beforeMove
  by_cases hj : j = m.2
  · -- The target holds what comes from the origin.
    rw [if_pos hj]
    constructor
    · exact fun heq => absurd (Option.some.inj heq).symm hne
    · exact fun heq => absurd (hj.symm.trans heq.1) heq.2
  · rw [if_neg hj]
    by_cases hj' : j = m.1
    · rw [if_pos hj']
      constructor
      · exact fun heq => absurd heq (by simp)
      · exact fun heq => absurd (heq.1.symm.trans hj') hne
    · rw [if_neg hj', Option.some.injEq]
      constructor
      · exact fun heq => ⟨heq, fun hs => hj (heq.trans hs.symm)⟩
      · exact fun heq => heq.1

@[simp]
theorem beforeMoves_nil (key : String) : beforeMoves [] key = some key := rfl

/-- Before the first move. -/
theorem beforeMoves_cons (m : String × String) (moves : List (String × String)) (key : String) :
    beforeMoves (m :: moves) key = (beforeMoves moves key).bind (beforeMove m) := rfl

/-- What is moved to a key where nothing was moved stood there all the
time, unless it is moved away. -/
theorem beforeMoves_of_not_target (h : ∀ m ∈ moves, m.2 ≠ key) :
    beforeMoves moves key = if moves.any (fun m => m.1 = key) then none else some key := by
  induction moves with
  | nil => rfl
  | cons m moves ih =>
      rw [beforeMoves_cons, ih fun n hn => h n (List.mem_cons_of_mem m hn), List.any_cons]
      have hm : key ≠ m.2 := Ne.symm (h m (List.mem_cons_self ..))
      cases hany : moves.any fun n => n.1 = key with
      | true => simp
      | false =>
          by_cases hkey : m.1 = key
          · simp [beforeMove, hm, hkey]
          · simp [beforeMove, hm, hkey, Ne.symm hkey]

/-- A key to which nothing is moved is not overtaken. -/
theorem isOvertaken_of_not_target (h : ∀ m ∈ moves, m.2 ≠ key) : isOvertaken key moves = false := by
  induction moves with
  | nil => rfl
  | cons m moves ih =>
      rw [isOvertaken, ih fun n hn => h n (List.mem_cons_of_mem m hn)]
      simp [h m (List.mem_cons_self ..)]

/-- A key from which nothing is moved is not overtaken. -/
theorem isOvertaken_of_not_origin (h : ∀ m ∈ moves, m.1 ≠ key) : isOvertaken key moves = false := by
  induction moves with
  | nil => rfl
  | cons m moves ih =>
      rw [isOvertaken, ih fun n hn => h n (List.mem_cons_of_mem m hn), Bool.or_false,
        Bool.and_eq_false_iff]
      exact .inr (List.any_eq_false.mpr fun n hn => by simpa using h n (List.mem_cons_of_mem m hn))

/-- What arrived at an overtaken key is carried away again, and nothing
else comes there. -/
theorem beforeMoves_of_isOvertaken (hinj : PartialInjection moves)
    (h : isOvertaken key moves = true) : beforeMoves moves key = none := by
  induction moves with
  | nil => cases h
  | cons m moves ih =>
      rw [beforeMoves_cons]
      rw [isOvertaken, Bool.or_eq_true, Bool.and_eq_true, decide_eq_true_eq] at h
      rcases h with ⟨rfl, hany⟩ | h
      · -- The first move came to the key, and nothing else does.
        rw [beforeMoves_of_not_target fun n hn => hinj.snd_ne hn, hany]
        rfl
      · rw [ih hinj.tail h]
        rfl

/-- To a target that is not overtaken comes a file that is moved. -/
theorem exists_beforeMoves_eq_fst (hinj : PartialInjection moves) (hm : m ∈ moves)
    (h : isOvertaken m.2 moves = false) : ∃ n ∈ moves, beforeMoves moves m.2 = some n.1 := by
  induction moves with
  | nil => cases hm
  | cons first moves ih =>
      rw [beforeMoves_cons]
      rw [isOvertaken, Bool.or_eq_false_iff] at h
      rcases List.mem_cons.mp hm with rfl | hm
      · have hany : moves.any (fun n => n.1 = m.2) = false := by simpa using h.1
        rw [beforeMoves_of_not_target fun n hn => hinj.snd_ne hn, hany]
        exact ⟨m, List.mem_cons_self .., by simp [beforeMove]⟩
      · -- The file of `n` gets there, unless the first move puts its own one in that place.
        obtain ⟨n, hn, hbefore⟩ := ih hinj.tail hm h.2
        rw [hbefore, Option.bind_some, beforeMove, if_neg (hinj.fst_ne hn)]
        split
        · exact ⟨first, List.mem_cons_self .., rfl⟩
        · exact ⟨n, List.mem_cons_of_mem first hn, rfl⟩

/-- A target gets the file that the view shows there exactly if neither
it nor the origin of the file is overtaken. -/
theorem beforeMoves_snd_eq_some_fst_iff (hinj : PartialInjection moves) (hm : m ∈ moves) :
    beforeMoves moves m.2 = some m.1 ↔
      isOvertaken m.2 moves = false ∧ isOvertaken m.1 moves = false := by
  induction moves with
  | nil => cases hm
  | cons first moves ih =>
      rw [beforeMoves_cons, isOvertaken, isOvertaken]
      rcases List.mem_cons.mp hm with rfl | hm
      · -- The first move: its target must not be left later on.
        rw [isOvertaken_of_not_target fun n hn => hinj.snd_ne hn,
          isOvertaken_of_not_origin fun n hn => hinj.fst_ne hn,
          beforeMoves_of_not_target fun n hn => hinj.snd_ne hn]
        have hne := hinj.ne m (List.mem_cons_self ..)
        cases moves.any fun n => n.1 = m.2 with
        | true => simp
        | false => simp [beforeMove, Ne.symm hne]
      · -- A later move: the first one must not come to its origin.
        have hsnd : first.2 ≠ m.2 := Ne.symm (hinj.snd_ne hm)
        have hfst : m.1 ≠ first.1 := hinj.fst_ne hm
        have hany : moves.any (fun n => n.1 = m.1) = true :=
          List.any_eq_true.mpr ⟨m, hm, decide_eq_true rfl⟩
        have hbind : (beforeMoves moves m.2).bind (beforeMove first) = some m.1 ↔
            beforeMoves moves m.2 = some m.1 ∧ first.2 ≠ m.1 := by
          simp only [Option.bind_eq_some_iff, beforeMove_eq_some_iff hfst]
          constructor
          · rintro ⟨j, hj, rfl, hne⟩
            exact ⟨hj, hne⟩
          · rintro ⟨hj, hne⟩
            exact ⟨m.1, hj, rfl, hne⟩
        rw [hbind, ih hinj.tail hm, hany]
        simp only [hsnd, decide_false, Bool.false_and, Bool.false_or, Bool.and_true,
          Bool.or_eq_false_iff, decide_eq_false_iff_not]
        tauto

/-- Behind the moves, a key that exists holds the file that the view
shows there exactly if neither it nor the origin of the file is
overtaken. -/
theorem beforeMoves_eq_some_originOf_iff (hinj : PartialInjection moves)
    (h : (∃ m ∈ moves, m.2 = key) ∨ ∀ m ∈ moves, m.1 ≠ key) :
    beforeMoves moves key = some (originOf moves key) ↔
      isOvertaken key moves = false ∧ isOvertaken (originOf moves key) moves = false := by
  by_cases htarget : ∃ m ∈ moves, m.2 = key
  · obtain ⟨m, hm, rfl⟩ := htarget
    rw [originOf_eq_fst hinj hm]
    exact beforeMoves_snd_eq_some_fst_iff hinj hm
  · have hnot : ∀ m ∈ moves, m.2 ≠ key := fun m hm heq => htarget ⟨m, hm, heq⟩
    have horigin := h.resolve_left htarget
    have hany : moves.any (fun m => m.1 = key) = false :=
      List.any_eq_false.mpr fun m hm => by simpa using horigin m hm
    rw [originOf_eq_self hnot, beforeMoves_of_not_target hnot, isOvertaken_of_not_target hnot, hany]
    simp

end ScriptRefactor.Workspace
