import Mathlib.Algebra.GroupWithZero.Nat
import ScriptRefactor.Proofs.Path.Parents
import ScriptRefactor.Proofs.Workspace.InsideKeys

/-!
# `ScriptRefactor.Proofs.Workspace.Arrivals`: where moved directories arrive

The view takes what it shows at a key from where it stood before the
directory moves. For a key and the directory that holds it this leads
to a place and the directory that holds it (`arrives_or_stays_below`),
unless the key is the place where a moved directory arrives: the target
of its move, carried on by the moves behind (`arrivals`).
-/

set_option autoImplicit false

namespace ScriptRefactor.Workspace

open ScriptRefactor.Path

/-- A key carried along by some moves, the first one first. -/
def carriedOn (moves : List (String × String)) (key : String) : String :=
  moves.foldl (fun key m => carried m.1 m.2 key) key

/-- Where the directories of some moves are behind all of them. -/
def arrivals : List (String × String) → List String
  | [] => []
  | m :: moves => carriedOn moves m.2 :: arrivals moves

/-- What a further move does to the places where directories arrive. -/
theorem arrivals_concat (moves : List (String × String)) (m : String × String) :
    arrivals (moves ++ [m]) = (arrivals moves).map (carried m.1 m.2) ++ [m.2] := by
  induction moves with
  | nil => rfl
  | cons n moves ih =>
      rw [List.cons_append, arrivals, ih, arrivals, List.map_cons, List.cons_append, carriedOn,
        List.foldl_append]
      rfl

/-- Directories arrive inside. -/
theorem inside_of_mem_arrivals {moves : List (String × String)}
    (hmoves : ∀ m ∈ moves, Inside m.1 ∧ Inside m.2) {key : String} (h : key ∈ arrivals moves) :
    Inside key := by
  induction moves using List.reverseRecOn generalizing key with
  | nil => cases h
  | append_singleton moves m ih =>
      obtain ⟨horigin, htarget⟩ := hmoves m (by simp)
      rw [arrivals_concat, List.mem_append, List.mem_map, List.mem_singleton] at h
      rcases h with ⟨k, hk, rfl⟩ | rfl
      · exact inside_carried horigin htarget (ih (fun n hn => hmoves n (by simp [hn])) hk)
      · exact htarget

/-- Names behind a prefix. -/
private theorem drop_concat {as b : List (List Char)} {n : List Char} (h : as <+: b) :
    (b ++ [n]).drop as.length = b.drop as.length ++ [n] :=
  List.drop_append_of_le_length h.length_le

/-- A key is where a moved directory arrives, or it stood in the same
directory as before, under the same name. -/
theorem arrives_or_stays_below {moves : List (String × String)}
    (hmoves : ∀ m ∈ moves, Inside m.1 ∧ Inside m.2) {b : List (List Char)} {n : List Char}
    (hb : ∀ m ∈ b, IsName m) (hn : IsName n) {k : String}
    (h : beforeDirMoves moves.reverse (ofNames (b ++ [n])) = some k) :
    ofNames (b ++ [n]) ∈ arrivals moves ∨ ∃ bs, (∀ m ∈ bs, IsName m) ∧ k = ofNames (bs ++ [n])
      ∧ beforeDirMoves moves.reverse (ofNames b) = some (ofNames bs) := by
  induction moves using List.reverseRecOn generalizing b with
  | nil =>
      cases h
      exact .inr ⟨b, hb, rfl, rfl⟩
  | append_singleton moves m ih =>
      obtain ⟨⟨os, hosne, hos, horigin⟩, ⟨ts, htsne, hts, htarget⟩⟩ := hmoves m (by simp)
      have hothers : ∀ x ∈ moves, Inside x.1 ∧ Inside x.2 := fun x hx => hmoves x (by simp [hx])
      have hall : ∀ x ∈ b ++ [n], IsName x := List.forall_mem_append.mpr ⟨hb, by simpa using hn⟩
      rw [List.reverse_append, List.reverse_singleton, List.singleton_append, beforeDirMoves,
        horigin, htarget, replacePrefix?_ofNames hall hts hos htsne hosne] at h
      rw [List.reverse_append, List.reverse_singleton, List.singleton_append, beforeDirMoves,
        horigin, htarget, replacePrefix?_ofNames hb hts hos htsne hosne, arrivals_concat, horigin,
        htarget]
      by_cases hwhole : ts = b ++ [n]
      · -- The key is the target of the last move.
        exact .inl (by simp [hwhole])
      · have hfront : ts <+: b ++ [n] ↔ ts <+: b := by
          rw [List.prefix_concat_iff]
          simp [hwhole]
        by_cases hpre : ts <+: b
        · -- The key lies below the target, and stood below the origin.
          rw [if_pos (hfront.mpr hpre), drop_concat hpre, ← List.append_assoc] at h
          have hback : ∀ x ∈ os ++ b.drop ts.length, IsName x :=
            List.forall_mem_append.mpr ⟨hos, fun x hx => hb x (List.mem_of_mem_drop hx)⟩
          rw [if_pos hpre]
          rcases ih hothers hback h with harrives | hstays
          · refine .inl (List.mem_append_left _ (List.mem_map.mpr ⟨_, harrives, ?_⟩))
            have hforth : ∀ x ∈ os ++ b.drop ts.length ++ [n], IsName x :=
              List.forall_mem_append.mpr ⟨hback, by simpa using hn⟩
            rw [carried, replacePrefix?_ofNames hforth hos hts hosne htsne,
              if_pos ((List.prefix_append _ _).trans (List.prefix_append _ _)), Option.getD_some,
              List.append_assoc, List.drop_left, ← List.append_assoc]
            obtain ⟨rest, rfl⟩ := hpre
            rw [List.drop_left]
          · exact .inr hstays
        · -- The key is not below the target, and not below the origin either.
          rw [if_neg (mt hfront.mp hpre)] at h
          rw [if_neg hpre]
          dsimp only at h ⊢
          have hunder : ¬ os <+: b ++ [n] := by
            intro hos'
            rw [if_pos ((isUnder_ofNames hall hos).mpr hos')] at h
            cases h
          rw [if_neg (mt (isUnder_ofNames hall hos).mp hunder)] at h
          rw [if_neg (mt (isUnder_ofNames hb hos).mp fun h =>
            hunder (h.trans (List.prefix_append _ _)))]
          rcases ih hothers hb h with harrives | hstays
          · refine .inl (List.mem_append_left _ (List.mem_map.mpr ⟨_, harrives, ?_⟩))
            rw [carried, replacePrefix?_ofNames hall hos hts hosne htsne, if_neg hunder,
              Option.getD_none]
          · exact .inr hstays

/-- A path has no more names than characters. -/
theorem length_le_ofNames {a : List (List Char)} (ha : ∀ n ∈ a, IsName n) :
    a.length ≤ (ofNames a).length := by
  rw [← String.length_toList, ofNames, String.toList_ofList]
  cases a with
  | nil => exact Nat.zero_le _
  | cons n a =>
      have hn := List.length_pos_iff.mpr (ha n (by simp)).1.1
      have hrest : a.length ≤ (a.flatMap ('/' :: ·)).length := by
        clear ha
        induction a with
        | nil => exact Nat.zero_le _
        | cons m a ih =>
            rw [List.flatMap_cons, List.length_append, List.length_cons, List.length_cons]
            omega
      rw [Text.joinWith_cons_eq_append, List.length_append, List.length_cons]
      omega

/-- A key goes no deeper than the place where it stood and the targets of
the moves together. -/
theorem length_le_of_beforeDirMoves {moves : List (String × String)}
    (hmoves : ∀ m ∈ moves, Inside m.1 ∧ Inside m.2) {a : List (List Char)}
    (ha : ∀ n ∈ a, IsName n) {k : String} (h : beforeDirMoves moves (ofNames a) = some k) :
    ∃ b, (∀ n ∈ b, IsName n) ∧ k = ofNames b
      ∧ a.length ≤ b.length + (moves.map fun m => m.2.length).sum := by
  induction moves generalizing a with
  | nil =>
      cases h
      exact ⟨a, ha, rfl, Nat.le_add_right ..⟩
  | cons m moves ih =>
      obtain ⟨⟨⟨os, hosne, hos, horigin⟩, ⟨ts, htsne, hts, htarget⟩⟩, hothers⟩ :=
        List.forall_mem_cons.mp hmoves
      have hts' := length_le_ofNames hts
      rw [beforeDirMoves, horigin, htarget, replacePrefix?_ofNames ha hts hos htsne hosne] at h
      rw [List.map_cons, List.sum_cons, htarget]
      by_cases hpre : ts <+: a
      · rw [if_pos hpre] at h
        obtain ⟨b, hb, hk, hle⟩ := ih hothers
          (List.forall_mem_append.mpr ⟨hos, fun x hx => ha x (List.mem_of_mem_drop hx)⟩) h
        rw [List.length_append, List.length_drop] at hle
        exact ⟨b, hb, hk, by omega⟩
      · rw [if_neg hpre] at h
        dsimp only at h
        split at h
        · cases h
        · obtain ⟨b, hb, hk, hle⟩ := ih hothers ha h
          exact ⟨b, hb, hk, by omega⟩

end ScriptRefactor.Workspace
