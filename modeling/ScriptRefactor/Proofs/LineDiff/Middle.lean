import ScriptRefactor.LineDiff.Script
import ScriptRefactor.Proofs.LineDiff.Tiles
import Mathlib.Data.List.Nodup

/-!
# `ScriptRefactor.Proofs.LineDiff.Middle`: where the searches meet

The point where the two searches meet lies in the two ranges and is none of
their two ends (`cuts_of_middle?`), so a cut there leaves less to each half.

A search knows no bounds: it may go on to the right of the old lines, or
below the new ones. But where it leaves the ranges on one diagonal, it has
come to their edge two diagonals further on (`Front`), and a search that has
come to the edge on a diagonal that the other one reaches meets it there. So
as long as the searches have not met, they are inside the ranges on all the
diagonals that both reach (`Apart`), and where they meet one round later
they have not left them (`enter_le`).
-/

set_option autoImplicit false

namespace ScriptRefactor.LineDiff

variable {old new : Array String} {r : Ranges} {N M d : Nat} {c delta k : Int} {g h : Int → Nat}

/-! ### Rounds -/

/-- The diagonal is visited with `d` changes. -/
def OnRound (d : Nat) (k : Int) : Prop := -(d : Int) ≤ k ∧ k ≤ d ∧ (d - k) % 2 = 0

/-- These are the diagonals of a round. -/
theorem mem_diagonals : k ∈ diagonals d ↔ OnRound d k := by
  rw [diagonals, List.mem_map, OnRound]
  constructor
  · rintro ⟨i, hi, rfl⟩
    rw [List.mem_range] at hi
    omega
  · rintro ⟨hlow, hhigh, hparity⟩
    refine ⟨((d - k) / 2).toNat, List.mem_range.mpr ?_, ?_⟩ <;> omega

/-- Each diagonal is visited once. -/
theorem nodup_diagonals (d : Nat) : (diagonals d).Nodup := by
  have hinjective : Function.Injective fun i : Nat => (d : Int) - 2 * (i : Int) := fun a b hab => by
    have hab : (d : Int) - 2 * (a : Int) = d - 2 * (b : Int) := hab
    omega
  exact List.Nodup.map hinjective List.nodup_range

/-- Where a diagonal is entered, as `Reach.enter` finds it. -/
def enterOf (g : Int → Nat) (d k : Int) : Nat :=
  if k = -d ∨ (k ≠ d ∧ g (k - 1) < g (k + 1)) then g (k + 1) else g (k - 1) + 1

/-- How far a search has come with `d` changes, on ranges of `N` and `M`
lines. -/
structure Front (N M d : Nat) (g : Int → Nat) : Prop where
  /-- Without a change it stays at its start. -/
  zero : d = 0 → g 0 = 0
  /-- It takes no line of the new text back. -/
  inside : ∀ k, OnRound d k → k ≤ g k
  /-- Each change takes a line. -/
  long : ∀ k, OnRound d k → (d : Int) ≤ 2 * g k - k
  /-- If it has left the old lines, it is at their end two diagonals below. -/
  right : ∀ k, OnRound d k → N < g k → OnRound d (k - 2) ∧ N ≤ g (k - 2)
  /-- If it has left the new lines, it is at their end two diagonals above. -/
  down : ∀ k, OnRound d k → (M : Int) < g k - k →
    OnRound d (k + 2) ∧ (M : Int) ≤ g (k + 2) - (k + 2)

/-- A round without changes visits one diagonal. -/
theorem eq_zero_of_onRound (hk : OnRound 0 k) : k = 0 := by
  unfold OnRound at hk
  omega

/-- A search starts without a change. -/
theorem Front.start (hg : g 0 = 0) : Front N M 0 g := by
  refine ⟨fun _ => hg, ?_, ?_, ?_, ?_⟩ <;>
  · intro k hk
    rw [eq_zero_of_onRound hk, hg]
    omega

/-- A diagonal is entered from one of its neighbours, and from the one that
got further. -/
theorem enterOf_spec (hk : OnRound (d + 1) k) :
    ((OnRound d (k + 1) ∧ enterOf g (d + 1 : Nat) k = g (k + 1)) ∨
      (OnRound d (k - 1) ∧ enterOf g (d + 1 : Nat) k = g (k - 1) + 1)) ∧
    (OnRound d (k + 1) → g (k + 1) ≤ enterOf g (d + 1 : Nat) k) ∧
    (OnRound d (k - 1) → g (k - 1) + 1 ≤ enterOf g (d + 1 : Nat) k) := by
  unfold OnRound at *
  unfold enterOf
  split <;> omega

section Step

variable (hfront : Front N M d g) (hk : OnRound (d + 1) k)

include hfront hk

/-- Where a diagonal is entered outside the old lines, the neighbour below
is at their end. -/
theorem of_lt_enterOf (h : N < enterOf g (d + 1 : Nat) k) :
    OnRound d (k - 1) ∧ N ≤ g (k - 1) := by
  obtain ⟨⟨hround, heq⟩ | ⟨hround, heq⟩, -, -⟩ := enterOf_spec (g := g) hk
  · have hright := hfront.right (k + 1) hround (heq ▸ h)
    rwa [show k + 1 - 2 = k - 1 by omega] at hright
  · exact ⟨hround, by omega⟩

/-- Where a diagonal is entered outside the new lines, the neighbour above
is at their end. -/
theorem of_lt_enterOf_sub (h : (M : Int) < enterOf g (d + 1 : Nat) k - k) :
    OnRound d (k + 1) ∧ (M : Int) ≤ g (k + 1) - (k + 1) := by
  obtain ⟨⟨hround, heq⟩ | ⟨hround, heq⟩, -, -⟩ := enterOf_spec (g := g) hk
  · exact ⟨hround, by omega⟩
  · have hdown := hfront.down (k - 1) hround (by omega)
    rwa [show k - 1 + 2 = k + 1 by omega] at hdown

/-- No line of the new text is taken back. -/
theorem le_enterOf : k ≤ enterOf g (d + 1 : Nat) k ∧
    (d + 1 : Nat) ≤ 2 * (enterOf g (d + 1 : Nat) k : Int) - k := by
  obtain ⟨⟨hround, heq⟩ | ⟨hround, heq⟩, -, -⟩ := enterOf_spec (g := g) hk
  · have hinside := hfront.inside (k + 1) hround
    have hlong := hfront.long (k + 1) hround
    omega
  · have hinside := hfront.inside (k - 1) hround
    have hlong := hfront.long (k - 1) hround
    omega

end Step

/-- A search goes on: with one more change, and then along equal lines as
far as both ranges go. -/
theorem Front.step (hfront : Front N M d g) {run : Int → Nat}
    (hrun : ∀ k, OnRound (d + 1) k → run k = 0 ∨
      (enterOf g (d + 1 : Nat) k + run k ≤ N ∧
        (enterOf g (d + 1 : Nat) k : Int) + run k - k ≤ M))
    (hstep : ∀ k, OnRound (d + 1) k → h k = enterOf g (d + 1 : Nat) k + run k) :
    Front N M (d + 1) h where
  zero h0 := absurd h0 (Nat.succ_ne_zero d)
  inside k hk := by
    have hle := le_enterOf hfront hk
    have heq := hstep k hk
    omega
  long k hk := by
    have hle := le_enterOf hfront hk
    have heq := hstep k hk
    omega
  right k hk hlt := by
    have heq := hstep k hk
    have hzero := hrun k hk
    -- A diagonal that is further on was entered from its left, with the change of this round.
    obtain ⟨hround, hle⟩ := of_lt_enterOf hfront hk (by omega)
    have hround' : OnRound (d + 1) (k - 2) := by
      unfold OnRound at *
      omega
    have henter := (enterOf_spec (g := g) hround').2.1
    rw [show k - 2 + 1 = k - 1 by omega] at henter
    have henter := henter hround
    have heq' := hstep _ hround'
    exact ⟨hround', by omega⟩
  down k hk hlt := by
    have heq := hstep k hk
    have hzero := hrun k hk
    -- The same from the other side.
    obtain ⟨hround, hle⟩ := of_lt_enterOf_sub hfront hk (by omega)
    have hround' : OnRound (d + 1) (k + 2) := by
      unfold OnRound at *
      omega
    have henter := (enterOf_spec (g := g) hround').2.2
    rw [show k + 2 - 1 = k + 1 by omega] at henter
    have henter := henter hround
    have heq' := hstep _ hround'
    exact ⟨hround', by omega⟩

/-- The search is inside both ranges on all diagonals of the round that are
at most `c` from the last one, `delta`. -/
def Apart (N M : Nat) (delta : Int) (d : Nat) (c : Int) (g : Int → Nat) : Prop :=
  ∀ k, OnRound d k → ((k - delta).natAbs : Int) ≤ c → g k < N ∧ (g k : Int) - k < M

section Meeting

variable (hdelta : delta = N - M) (hc : c = d ∨ c = d + 1) (hfront : Front N M d g)
  (hapart : Apart N M delta d (c - 1) g) (hk : OnRound (d + 1) k)
  (hnear : ((k - delta).natAbs : Int) ≤ c) (hparity : (c - (k - delta)) % 2 = 0)

include hdelta hc hfront hapart hk hparity

/-- Where the other search reaches, a diagonal is not entered at the end of
both ranges. -/
theorem enter_ne_end (hN : 0 < N) (hM : 0 < M) :
    ¬ (enterOf g (d + 1 : Nat) k = N ∧ (enterOf g (d + 1 : Nat) k : Int) - k = M) := by
  rintro ⟨hx, hy⟩
  have hzero := hfront.zero
  obtain ⟨⟨hround, heq⟩ | ⟨hround, heq⟩, -, -⟩ := enterOf_spec (g := g) hk
  · have hinside := hapart (k + 1) hround
    by_cases hd : d = 0
    · obtain hk0 : k + 1 = 0 := by
        unfold OnRound at *
        omega
      rw [hk0, hzero hd] at heq
      omega
    · omega
  · have hinside := hapart (k - 1) hround
    by_cases hd : d = 0
    · obtain hk0 : k - 1 = 0 := by
        unfold OnRound at *
        omega
      rw [hk0, hzero hd] at heq
      omega
    · omega

include hnear

/-- It is entered in the ranges. -/
theorem enter_le : enterOf g (d + 1 : Nat) k ≤ N ∧ (enterOf g (d + 1 : Nat) k : Int) - k ≤ M := by
  constructor
  · by_contra hlt
    obtain ⟨hround, hle⟩ := of_lt_enterOf hfront hk (by omega)
    by_cases hlow : k - delta = -c
    · -- The neighbour below has left the new lines, too, and the one above
      -- is at their end, where the other search reaches.
      obtain ⟨habove, hend⟩ := hfront.down (k - 1) hround (by omega)
      rw [show k - 1 + 2 = k + 1 by omega] at habove hend
      have hinside := hapart (k + 1) habove
      unfold OnRound at *
      omega
    · have hinside := hapart (k - 1) hround (by omega)
      omega
  · by_contra hlt
    obtain ⟨hround, hle⟩ := of_lt_enterOf_sub hfront hk (by omega)
    by_cases hhigh : k - delta = c
    · obtain ⟨hbelow, hend⟩ := hfront.right (k + 1) hround (by omega)
      rw [show k + 1 - 2 = k - 1 by omega] at hbelow hend
      have hinside := hapart (k - 1) hbelow
      unfold OnRound at *
      omega
    · have hinside := hapart (k + 1) hround (by omega)
      omega

end Meeting

/-! ### Points on diagonals -/

/-- There is room for `size` diagonals on both sides. -/
def Reach.HasRoom (g : Reach) (size : Nat) : Prop :=
  g.offset = size ∧ g.points.size = 2 * size + 2

namespace Reach

variable {f b : Reach} {size x : Nat} {k' : Int}

/-- At the start nothing is reached. -/
theorem get_start (size : Nat) (k : Int) : (start size).get k = 0 := by
  rw [get, start]
  cases hget : (Array.replicate (2 * size + 2) 0)[((size : Int) + k).toNat]? with
  | none => rfl
  | some x => exact Array.eq_of_mem_replicate (Array.mem_of_getElem? hget)

/-- A new point takes the place of the one on its diagonal. -/
theorem get_set (hf : f.HasRoom size) (hlow : -(size : Int) ≤ k) (hhigh : k ≤ size)
    (hlow' : -(size : Int) ≤ k') (x : Nat) :
    (f.set k x).get k' = if k' = k then x else f.get k' := by
  obtain ⟨hoffset, hsize⟩ := hf
  rw [get, set, get, Array.getElem?_setIfInBounds]
  dsimp only
  rw [hoffset, hsize]
  by_cases hkk : k' = k
  · subst hkk
    rw [if_pos rfl, if_pos rfl, if_pos (by omega)]
    rfl
  · rw [if_neg hkk, if_neg (by omega)]

/-- It needs no more room. -/
theorem HasRoom.set (hf : f.HasRoom size) (k : Int) (x : Nat) : (f.set k x).HasRoom size :=
  ⟨hf.1, by rw [Reach.set, Array.size_setIfInBounds, hf.2]⟩

end Reach

/-- A search goes on along a diagonal: from where it enters it along the
run of equal lines there, unless it meets the other one. -/
def advance (d : Nat) (run : Nat → Int → Nat) (meeting? : Nat → Int → Option (Nat × Nat))
    (f : Reach) (k : Int) : Except (Nat × Nat) Reach :=
  match meeting? (f.enter d k) k with
  | some point => .error point
  | none => .ok (f.set k (f.enter d k + run (f.enter d k) k))

variable (run : Nat → Int → Nat) (meeting? : Nat → Int → Option (Nat × Nat)) {size : Nat}

/-- What a round comes to: the searches meet on one of the diagonals, or the
search goes on along all of them, and nothing else changes. -/
theorem foldlM_advance {ks : List Int} (hks : ∀ k ∈ ks, OnRound d k) (hnodup : ks.Nodup)
    (hd : d < size) {f : Reach} (hf : f.HasRoom size) :
    match ks.foldlM (advance d run meeting?) f with
    | .error point => ∃ k ∈ ks, meeting? (f.enter d k) k = some point
    | .ok f' => f'.HasRoom size ∧
      (∀ k, -(size : Int) ≤ k → k ∉ ks → f'.get k = f.get k) ∧
      ∀ k ∈ ks, meeting? (f.enter d k) k = none ∧
        f'.get k = f.enter d k + run (f.enter d k) k := by
  induction ks generalizing f with
  | nil => exact ⟨hf, fun _ _ _ => rfl, fun k hk => absurd hk List.not_mem_nil⟩
  | cons k ks ih =>
      obtain ⟨hk, hks⟩ := List.forall_mem_cons.mp hks
      obtain ⟨hfresh, hnodup⟩ := List.nodup_cons.mp hnodup
      rw [List.foldlM_cons]
      cases hmeeting : meeting? (f.enter d k) k with
      | some point =>
          have hstep : advance d run meeting? f k = .error point := by rw [advance, hmeeting]
          rw [hstep]
          exact ⟨k, List.mem_cons_self, hmeeting⟩
      | none =>
          have hstep : advance d run meeting? f k
              = .ok (f.set k (f.enter d k + run (f.enter d k) k)) := by rw [advance, hmeeting]
          rw [hstep]
          dsimp only [bind, Except.bind]
          generalize hx : f.enter d k + run (f.enter d k) k = x
          have hrange : -(size : Int) ≤ k ∧ k ≤ size := by
            unfold OnRound at hk
            omega
          have hset : ∀ k', -(size : Int) ≤ k' →
              (f.set k x).get k' = if k' = k then x else f.get k' :=
            fun k' hlow => Reach.get_set hf hrange.1 hrange.2 hlow x
          -- The neighbours of a diagonal of the round are on no diagonal of it.
          have henter : ∀ k' ∈ ks, (f.set k x).enter d k' = f.enter d k' := by
            intro k' hk'
            have hround := hks k' hk'
            unfold OnRound at hk hround
            have hbelow := (hset (k' - 1) (by omega)).trans (if_neg (by omega))
            have habove := (hset (k' + 1) (by omega)).trans (if_neg (by omega))
            rw [Reach.enter, Reach.enter, hbelow, habove]
          have hrest := ih hks hnodup (hf.set k x)
          split at hrest
          · obtain ⟨k', hk', hmeeting'⟩ := hrest
            exact ⟨k', List.mem_cons_of_mem k hk', henter k' hk' ▸ hmeeting'⟩
          · obtain ⟨hroom, hother, hvisited⟩ := hrest
            refine ⟨hroom, fun k' hlow hk' => ?_, List.forall_mem_cons.mpr ⟨⟨hmeeting, ?_⟩, ?_⟩⟩
            · obtain ⟨hne, hk'⟩ := not_or.mp (mt List.mem_cons.mpr hk')
              rw [hother k' hlow hk', hset k' hlow, if_neg hne]
            · rw [hother k hrange.1 hfresh, hset k hrange.1, if_pos rfl, hx]
            · intro k' hk'
              rw [← henter k' hk']
              exact hvisited k' hk'

/-- A round of a search: it goes on along all diagonals. -/
def round (d : Nat) (run : Nat → Int → Nat) (meeting? : Nat → Int → Option (Nat × Nat))
    (f : Reach) : Except (Nat × Nat) Reach :=
  (diagonals d).foldlM (advance d run meeting?) f

/-- What a round comes to. -/
theorem round_spec (hd : d < size) {f : Reach} (hf : f.HasRoom size) :
    match round d run meeting? f with
    | .error point => ∃ k, OnRound d k ∧ meeting? (enterOf f.get d k) k = some point
    | .ok f' => f'.HasRoom size ∧ ∀ k, OnRound d k →
      meeting? (enterOf f.get d k) k = none ∧
        f'.get k = enterOf f.get d k + run (enterOf f.get d k) k := by
  have h := foldlM_advance run meeting? (fun k hk => mem_diagonals.mp hk) (nodup_diagonals d) hd hf
  rw [round]
  cases hround : (diagonals d).foldlM (advance d run meeting?) f with
  | error point =>
    rw [hround] at h
    obtain ⟨k, hk, hmeeting⟩ := h
    exact ⟨k, mem_diagonals.mp hk, hmeeting⟩
  | ok f' =>
    rw [hround] at h
    exact ⟨h.1, fun k hk => h.2.2 k (mem_diagonals.mpr hk)⟩

/-- A round without changes leaves a search at its start, if it neither meets
the other one there nor finds equal lines. -/
theorem round_start (hsize : 0 < size) (hmeeting : meeting? 0 0 = none) (hrun : run 0 0 = 0) :
    ∃ f, round 0 run meeting? (Reach.start size) = .ok f ∧ f.HasRoom size ∧ f.get 0 = 0 := by
  have henter : enterOf (Reach.start size).get (0 : Nat) 0 = 0 := Reach.get_start size _
  have hroom : (Reach.start size).HasRoom size := ⟨rfl, Array.size_replicate⟩
  have hspec := round_spec run meeting? hsize hroom
  cases hround : round 0 run meeting? (Reach.start size) with
  | error point =>
    rw [hround] at hspec
    obtain ⟨k, hk, hpoint⟩ := hspec
    rw [eq_zero_of_onRound hk, henter, hmeeting] at hpoint
    cases hpoint
  | ok f =>
    rw [hround] at hspec
    refine ⟨f, rfl, hspec.1, ?_⟩
    rw [(hspec.2 0 (by unfold OnRound; omega)).2, henter, hrun]

/-! ### The two searches -/

/-- The run of equal lines behind a point, seen from the front. -/
def forwardRun (old new : Array String) (r : Ranges) (x : Nat) (k : Int) : Nat :=
  if x < r.oldLength ∧ ((x : Int) - k).toNat < r.newLength then
    samePrefix old new (r.oldStart + x) (r.newStart + ((x : Int) - k).toNat)
      (min (r.oldLength - x) (r.newLength - ((x : Int) - k).toNat))
  else 0

/-- The run of equal lines behind a point, seen from the end. -/
def backwardRun (old new : Array String) (r : Ranges) (x : Nat) (k : Int) : Nat :=
  if x < r.oldLength ∧ ((x : Int) - k).toNat < r.newLength then
    sameSuffix old new (r.oldStart + (r.oldLength - x))
      (r.newStart + (r.newLength - ((x : Int) - k).toNat))
      (min (r.oldLength - x) (r.newLength - ((x : Int) - k).toNat))
  else 0

/-- Where the search from the front meets the one from the end. -/
def forwardMeeting? (old new : Array String) (r : Ranges) (d : Nat) (backward : Reach) (x : Nat)
    (k : Int) : Option (Nat × Nat) :=
  if r.delta % 2 ≠ 0 ∧ ((k - r.delta).natAbs : Int) ≤ (d : Int) - 1
      ∧ r.oldLength ≤ x + forwardRun old new r x k + backward.get (-(k - r.delta)) then
    some (x + r.oldStart, ((x : Int) - k).toNat + r.newStart)
  else none

/-- Where the search from the end meets the one from the front. -/
def backwardMeeting? (old new : Array String) (r : Ranges) (d : Nat) (forward : Reach) (x : Nat)
    (k : Int) : Option (Nat × Nat) :=
  if r.delta % 2 = 0 ∧ (k - r.delta).natAbs ≤ d
      ∧ r.oldLength ≤ x + backwardRun old new r x k + forward.get (-(k - r.delta)) then
    some (r.oldLength - (x + backwardRun old new r x k) + r.oldStart,
      r.newLength - (((x : Int) - k).toNat + backwardRun old new r x k) + r.newStart)
  else none

/-- The search from the front goes on. -/
theorem forwardStep_eq (f b : Reach) (k : Int) : forwardStep old new r d k f b
    = (advance d (forwardRun old new r) (forwardMeeting? old new r d b) f k).map (·, b) := by
  by_cases hmeets : r.delta % 2 ≠ 0 ∧ ((k - r.delta).natAbs : Int) ≤ (d : Int) - 1
      ∧ r.oldLength ≤ f.enter d k + forwardRun old new r (f.enter d k) k + b.get (-(k - r.delta))
  · rw [advance, forwardMeeting?, if_pos hmeets]
    exact if_pos hmeets
  · rw [advance, forwardMeeting?, if_neg hmeets]
    exact if_neg hmeets

/-- The search from the end goes on. -/
theorem backwardStep_eq (f b : Reach) (k : Int) : backwardStep old new r d k f b
    = (advance d (backwardRun old new r) (backwardMeeting? old new r d f) b k).map (f, ·) := by
  by_cases hmeets : r.delta % 2 = 0 ∧ (k - r.delta).natAbs ≤ d
      ∧ r.oldLength ≤ b.enter d k + backwardRun old new r (b.enter d k) k + f.get (-(k - r.delta))
  · rw [advance, backwardMeeting?, if_pos hmeets]
    exact if_pos hmeets
  · rw [advance, backwardMeeting?, if_neg hmeets]
    exact if_neg hmeets

/-- The search from the front goes on along several diagonals. -/
theorem foldlM_forwardStep (ks : List Int) (f b : Reach) :
    (ks.foldlM (fun (f, b) k => forwardStep old new r d k f b) (f, b) : Meeting)
      = (ks.foldlM (advance d (forwardRun old new r) (forwardMeeting? old new r d b)) f).map
        (·, b) := by
  induction ks generalizing f with
  | nil => rfl
  | cons k ks ih =>
      rw [List.foldlM_cons, List.foldlM_cons]
      dsimp only
      rw [forwardStep_eq]
      cases advance d (forwardRun old new r) (forwardMeeting? old new r d b) f k with
      | error point => rfl
      | ok f' => exact ih f'

/-- The search from the end goes on along several diagonals. -/
theorem foldlM_backwardStep (ks : List Int) (f b : Reach) :
    (ks.foldlM (fun (f, b) k => backwardStep old new r d k f b) (f, b) : Meeting)
      = (ks.foldlM (advance d (backwardRun old new r) (backwardMeeting? old new r d f)) b).map
        (f, ·) := by
  induction ks generalizing b with
  | nil => rfl
  | cons k ks ih =>
      rw [List.foldlM_cons, List.foldlM_cons]
      dsimp only
      rw [backwardStep_eq]
      cases advance d (backwardRun old new r) (backwardMeeting? old new r d f) b k with
      | error point => rfl
      | ok b' => exact ih b'

/-- A run of equal lines stays in the ranges. -/
theorem forwardRun_spec {x : Nat} (hk : k ≤ x) : forwardRun old new r x k = 0 ∨
    (x + forwardRun old new r x k ≤ r.oldLength ∧
      (x : Int) + forwardRun old new r x k - k ≤ r.newLength) := by
  unfold forwardRun
  split
  · obtain ⟨hle, -⟩ := samePrefix_spec old new (r.oldStart + x)
      (r.newStart + ((x : Int) - k).toNat)
      (min (r.oldLength - x) (r.newLength - ((x : Int) - k).toNat))
    omega
  · exact .inl rfl

/-- A run of equal lines stays in the ranges, and if it comes to the start
of both, they start with one line. -/
theorem backwardRun_spec (old new : Array String) (r : Ranges) {x : Nat} (hk : k ≤ x) :
    backwardRun old new r x k = 0 ∨
    (x + backwardRun old new r x k ≤ r.oldLength ∧
      (x : Int) + backwardRun old new r x k - k ≤ r.newLength ∧
      (x + backwardRun old new r x k = r.oldLength →
        (x : Int) + backwardRun old new r x k - k = r.newLength →
        ∃ line, old[r.oldStart]? = some line ∧ new[r.newStart]? = some line)) := by
  unfold backwardRun
  split
  · obtain ⟨hle, hsame, -⟩ := @sameSuffix_spec (r.oldStart + (r.oldLength - x))
      (r.newStart + (r.newLength - ((x : Int) - k).toNat))
      (min (r.oldLength - x) (r.newLength - ((x : Int) - k).toNat)) old new (by omega) (by omega)
    generalize sameSuffix old new _ _ _ = n at hle hsame
    by_cases hn : n = 0
    · exact .inl hn
    · refine .inr ⟨by omega, by omega, fun hx hy => ?_⟩
      have hfirst := hsame 0 (by omega)
      rwa [show r.oldStart + (r.oldLength - x) - n + 0 = r.oldStart by omega,
        show r.newStart + (r.newLength - ((x : Int) - k).toNat) - n + 0 = r.newStart by omega]
        at hfirst
  · exact .inl rfl

/-! ### A round -/

/-- The point lies in the ranges, and is none of their two ends. -/
structure Cuts (r : Ranges) (point : Nat × Nat) : Prop where
  /-- It lies in the old lines. -/
  old : r.oldStart ≤ point.1 ∧ point.1 ≤ r.oldStop
  /-- It lies in the new lines. -/
  new : r.newStart ≤ point.2 ∧ point.2 ≤ r.newStop
  /-- It is not in front of all lines. -/
  ne_start : ¬ (point.1 = r.oldStart ∧ point.2 = r.newStart)
  /-- It is not behind all lines. -/
  ne_stop : ¬ (point.1 = r.oldStop ∧ point.2 = r.newStop)

/-- Both searches after the round with `d` changes, if they have not met. -/
structure Searched (r : Ranges) (size d : Nat) (both : Reach × Reach) : Prop where
  /-- The one from the front has room. -/
  forwardRoom : both.1.HasRoom size
  /-- The one from the end has room. -/
  backwardRoom : both.2.HasRoom size
  /-- How far the one from the front has come. -/
  forward : Front r.oldLength r.newLength d both.1.get
  /-- How far the one from the end has come. -/
  backward : Front r.oldLength r.newLength d both.2.get
  /-- The one from the front did not come to the other. -/
  forwardApart : r.delta % 2 ≠ 0 → Apart r.oldLength r.newLength r.delta d (d - 1) both.1.get
  /-- The one from the end did not come to the other. -/
  backwardApart : r.delta % 2 = 0 → Apart r.oldLength r.newLength r.delta d d both.2.get

section Rounds

variable {f b : Reach} (hN : 0 < r.oldLength) (hM : 0 < r.newLength)

/-- On a diagonal that the other search reaches, a search that did not meet
it is inside the ranges. -/
theorem inside_of_not_met {e x : Nat} (hother : Front r.oldLength r.newLength e g)
    (hround : OnRound e (-(k - r.delta))) (hnot : ¬ r.oldLength ≤ x + g (-(k - r.delta))) :
    x < r.oldLength ∧ (x : Int) - k < r.newLength := by
  have hinside := hother.inside _ hround
  unfold Ranges.delta at *
  omega

include hN hM

/-- A point of the ranges that is none of their two ends cuts them. -/
theorem Cuts.of_inside {x y : Nat} (hx : x ≤ r.oldLength) (hy : y ≤ r.newLength)
    (hstart : ¬ (x = 0 ∧ y = 0)) (hstop : ¬ (x = r.oldLength ∧ y = r.newLength)) :
    Cuts r (x + r.oldStart, y + r.newStart) := by
  unfold Ranges.oldLength Ranges.newLength at *
  exact ⟨by omega, by omega, by omega, by omega⟩

/-- The search from the front goes on with one more change, or meets the
other one at a cut. -/
theorem forward_round (old new : Array String) (h : Searched r size d (f, b)) (hd : d + 1 < size) :
    match round (d + 1) (forwardRun old new r) (forwardMeeting? old new r (d + 1) b) f with
    | .error point => Cuts r point
    | .ok f' => f'.HasRoom size ∧ Front r.oldLength r.newLength (d + 1) f'.get ∧
      (r.delta % 2 ≠ 0 →
        Apart r.oldLength r.newLength r.delta (d + 1) ((d + 1 : Nat) - 1) f'.get) := by
  have hround := round_spec (forwardRun old new r) (forwardMeeting? old new r (d + 1) b) hd
    h.forwardRoom
  have hdelta : r.delta = (r.oldLength : Int) - r.newLength := rfl
  cases hresult : round (d + 1) (forwardRun old new r) (forwardMeeting? old new r (d + 1) b) f with
  | error point =>
    rw [hresult] at hround
    obtain ⟨k, hk, hmeeting⟩ := hround
    -- A meeting is a cut where both searches are in reach of the diagonal.
    rw [forwardMeeting?] at hmeeting
    split at hmeeting
    · rename_i hmeets
      obtain ⟨hodd, hnear, -⟩ := hmeets
      cases hmeeting
      have hparity : ((d : Int) - (k - r.delta)) % 2 = 0 := by
        unfold OnRound at hk
        omega
      have hapart := h.forwardApart hodd
      have hbox := enter_le hdelta (.inl rfl) h.forward hapart hk (by omega) hparity
      have hend := enter_ne_end hdelta (.inl rfl) h.forward hapart hk hparity hN hM
      have hlong := le_enterOf h.forward hk
      exact .of_inside hN hM (by omega) (by omega) (by omega) (by omega)
    · cases hmeeting
  | ok result =>
    rw [hresult] at hround
    obtain ⟨hroom, hvisited⟩ := hround
    refine ⟨hroom, h.forward.step (fun k hk => ?_) (fun k hk => (hvisited k hk).2), ?_⟩
    · exact forwardRun_spec (le_enterOf h.forward hk).1
    · intro hodd k hk hnear
      -- No meeting was found there, so the front is not past the other one.
      obtain ⟨hmeeting, hget⟩ := hvisited k hk
      rw [hget]
      have hnot := fun hle => Option.some_ne_none _
        ((if_pos ⟨hodd, hnear, hle⟩).symm.trans hmeeting)
      refine inside_of_not_met h.backward ?_ hnot
      unfold OnRound at *
      omega

/-- The search from the end goes on with one more change, or meets the other
one at a cut, as the ranges start with different lines. -/
theorem backward_round (h : Searched r size d (f, b)) (hd : d + 1 < size)
    (hfirst : ¬ ∃ line, old[r.oldStart]? = some line ∧ new[r.newStart]? = some line)
    {f' : Reach} (hforward : Front r.oldLength r.newLength (d + 1) f'.get) :
    match round (d + 1) (backwardRun old new r) (backwardMeeting? old new r (d + 1) f') b with
    | .error point => Cuts r point
    | .ok b' => b'.HasRoom size ∧ Front r.oldLength r.newLength (d + 1) b'.get ∧
      (r.delta % 2 = 0 → Apart r.oldLength r.newLength r.delta (d + 1) (d + 1 : Nat) b'.get) := by
  have hround := round_spec (backwardRun old new r) (backwardMeeting? old new r (d + 1) f') hd
    h.backwardRoom
  have hdelta : r.delta = (r.oldLength : Int) - r.newLength := rfl
  cases hresult : round (d + 1) (backwardRun old new r) (backwardMeeting? old new r (d + 1) f') b
    with
  | error point =>
    rw [hresult] at hround
    obtain ⟨k, hk, hmeeting⟩ := hround
    rw [backwardMeeting?] at hmeeting
    split at hmeeting
    · rename_i hmeets
      obtain ⟨heven, hnear, -⟩ := hmeets
      cases hmeeting
      have hparity : (((d : Int) + 1) - (k - r.delta)) % 2 = 0 := by
        unfold OnRound at hk
        omega
      have hapart : Apart r.oldLength r.newLength r.delta d ((d : Int) + 1 - 1) b.get := by
        rw [Int.add_sub_cancel]
        exact h.backwardApart heven
      have hbox := enter_le hdelta (.inr rfl) h.backward hapart hk (by omega) hparity
      have hend := enter_ne_end hdelta (.inr rfl) h.backward hapart hk hparity hN hM
      have hlong := le_enterOf h.backward hk
      -- The whole run is taken, but not up to the start of both ranges.
      have hrun := backwardRun_spec old new r hlong.1
      generalize enterOf b.get (d + 1 : Nat) k = x at *
      generalize backwardRun old new r x k = run at *
      have hstart : ¬ (x + run = r.oldLength ∧ (x : Int) + run - k = r.newLength) := by
        rintro ⟨hx, hy⟩
        obtain hzero | ⟨-, -, hline⟩ := hrun
        · omega
        · exact hfirst (hline hx hy)
      exact .of_inside hN hM (by omega) (by omega) (by omega) (by omega)
    · cases hmeeting
  | ok result =>
    rw [hresult] at hround
    obtain ⟨hroom, hvisited⟩ := hround
    refine ⟨hroom, h.backward.step (fun k hk => ?_) (fun k hk => (hvisited k hk).2), ?_⟩
    · obtain hzero | ⟨hx, hy, -⟩ := backwardRun_spec old new r (le_enterOf h.backward hk).1
      · exact .inl hzero
      · exact .inr ⟨hx, hy⟩
    · intro heven k hk hnear
      obtain ⟨hmeeting, hget⟩ := hvisited k hk
      rw [hget]
      have hnot := fun hle => Option.some_ne_none _
        ((if_pos ⟨heven, by omega, hle⟩).symm.trans hmeeting)
      refine inside_of_not_met hforward ?_ hnot
      unfold OnRound at *
      omega

end Rounds

/-- The searches with `d` changes are a round of each. -/
theorem searchStep_eq (f b : Reach) : searchStep old new r d (f, b)
    = match round d (forwardRun old new r) (forwardMeeting? old new r d b) f with
      | .error point => .error point
      | .ok f' => (round d (backwardRun old new r) (backwardMeeting? old new r d f') b).map
        (f', ·) := by
  rw [searchStep, foldlM_forwardStep, round]
  cases (diagonals d).foldlM (advance d (forwardRun old new r) (forwardMeeting? old new r d b)) f
    with
  | error point => rfl
  | ok f' => exact foldlM_backwardStep (diagonals d) f' b

/-! ### All rounds -/

/-- The searches after `n` rounds, or where they met. -/
def searches (old new : Array String) (r : Ranges) (size n : Nat) : Meeting :=
  (List.range n).foldlM (fun both d => searchStep old new r d both)
    (Reach.start size, Reach.start size)

/-- The next round goes on from the ones before. -/
theorem searches_succ (n : Nat) : searches old new r size (n + 1)
    = (searches old new r size n).bind (searchStep old new r n) := by
  rw [searches, List.range_succ, List.foldlM_append, searches]
  cases (List.range n).foldlM (fun both d => searchStep old new r d both)
      (Reach.start size, Reach.start size) with
  | error point => rfl
  | ok both => exact bind_pure (searchStep old new r n both)

section Search

variable (hN : 0 < r.oldLength) (hM : 0 < r.newLength)
  (hfirst : ¬ ∃ line, old[r.oldStart]? = some line ∧ new[r.newStart]? = some line)

include hN hM hfirst

/-- The searches go on with one more change, or meet at a cut. -/
theorem searchStep_succ {both : Reach × Reach} (h : Searched r size d both) (hd : d + 1 < size) :
    match searchStep old new r (d + 1) both with
    | .error point => Cuts r point
    | .ok both' => Searched r size (d + 1) both' := by
  obtain ⟨f, b⟩ := both
  have hforward := forward_round hN hM old new h hd
  rw [searchStep_eq]
  cases hf : round (d + 1) (forwardRun old new r) (forwardMeeting? old new r (d + 1) b) f with
  | error point => rwa [hf] at hforward
  | ok f' =>
    rw [hf] at hforward
    obtain ⟨hroom, hfront, hapart⟩ := hforward
    have hbackward := backward_round hN hM h hd hfirst hfront
    dsimp only
    cases hb : round (d + 1) (backwardRun old new r) (backwardMeeting? old new r (d + 1) f') b with
    | error point => rwa [hb] at hbackward
    | ok b' =>
      rw [hb] at hbackward
      exact ⟨hroom, hbackward.1, hfront, hbackward.2.1, hapart, hbackward.2.2⟩

/-- The search from the front finds no equal lines at its start, as the
ranges start with different ones. -/
theorem forwardRun_start : forwardRun old new r 0 0 = 0 := by
  obtain ⟨-, hsame, -⟩ := samePrefix_spec old new r.oldStart r.newStart
    (min r.oldLength r.newLength)
  rw [forwardRun, if_pos ⟨hN, hM⟩]
  by_contra hne
  exact hfirst (hsame 0 (Nat.pos_of_ne_zero hne))

variable (hlast : ¬ ∃ line, old[r.oldStop - 1]? = some line ∧ new[r.newStop - 1]? = some line)

include hlast

omit hfirst in
/-- The search from the end finds no equal lines at its start, as the ranges
end with different ones. -/
theorem backwardRun_start : backwardRun old new r 0 0 = 0 := by
  obtain ⟨hle, hsame, -⟩ := @sameSuffix_spec (r.oldStart + r.oldLength)
    (r.newStart + r.newLength) (min r.oldLength r.newLength) old new (by omega) (by omega)
  rw [backwardRun, if_pos ⟨hN, hM⟩]
  change sameSuffix old new (r.oldStart + r.oldLength) (r.newStart + r.newLength)
    (min r.oldLength r.newLength) = 0
  generalize sameSuffix old new _ _ _ = n at hle hsame ⊢
  by_contra hne
  obtain ⟨line, hline, hline'⟩ := hsame (n - 1) (by omega)
  unfold Ranges.oldLength Ranges.newLength at *
  rw [show r.oldStart + (r.oldStop - r.oldStart) - n + (n - 1) = r.oldStop - 1 by omega] at hline
  rw [show r.newStart + (r.newStop - r.newStart) - n + (n - 1) = r.newStop - 1 by omega] at hline'
  exact hlast ⟨line, hline, hline'⟩

/-- Without a change, neither search leaves its start, and they do not meet. -/
theorem searchStep_start (hsize : 0 < size) :
    ∃ both, searchStep old new r 0 (Reach.start size, Reach.start size) = .ok both ∧
      Searched r size 0 both := by
  have hforwardRun := forwardRun_start hN hM hfirst
  have hbackwardRun := backwardRun_start hN hM hlast
  have hapart : forwardMeeting? old new r 0 (Reach.start size) 0 0 = none :=
    if_neg fun hmeets => absurd hmeets.2.1 (by omega)
  obtain ⟨f, hf, hroom, hf0⟩ := round_start _ _ hsize hapart hforwardRun
  have hapart' : backwardMeeting? old new r 0 f 0 0 = none := by
    rw [backwardMeeting?, hbackwardRun]
    refine if_neg fun hmeets => ?_
    rw [show -(0 - r.delta) = 0 by omega, hf0] at hmeets
    exact absurd hmeets.2.2 (Nat.not_le.mpr hN)
  obtain ⟨b, hb, hroom', hb0⟩ := round_start _ _ hsize hapart' hbackwardRun
  refine ⟨(f, b), by rw [searchStep_eq, hf]; dsimp only; rw [hb]; rfl,
    hroom, hroom', .start hf0, .start hb0, fun _ k hk hnear => ?_, fun _ k hk hnear => ?_⟩
  · omega
  · obtain rfl := eq_zero_of_onRound hk
    dsimp only
    rw [hb0]
    omega

/-- As long as they do not meet, the searches go on. -/
theorem searches_spec {n : Nat} (hn : n < size) :
    match searches old new r size (n + 1) with
    | .error point => Cuts r point
    | .ok both => Searched r size n both := by
  induction n with
  | zero =>
    obtain ⟨both, hstep, hsearched⟩ := searchStep_start hN hM hfirst hlast hn
    have hone : searches old new r size 1 = .ok both := (searches_succ 0).trans hstep
    rwa [hone]
  | succ n ih =>
    have ih := ih (by omega)
    rw [searches_succ]
    cases hsearches : searches old new r size (n + 1) with
    | error point => rwa [hsearches] at ih
    | ok both =>
      rw [hsearches] at ih
      exact searchStep_succ hN hM hfirst ih hn

/-- The searches meet at a cut. -/
theorem cuts_of_middle? {point : Nat × Nat} (h : middle? old new r = some point) :
    Cuts r point := by
  have hspec := searches_spec hN hM hfirst hlast
    (Nat.lt_succ_self ((r.oldLength + r.newLength + 1) / 2))
  rw [searches] at hspec
  rw [middle?] at h
  split at h
  · rename_i hsearch
    cases h
    rwa [hsearch] at hspec
  · cases h

end Search

end ScriptRefactor.LineDiff
