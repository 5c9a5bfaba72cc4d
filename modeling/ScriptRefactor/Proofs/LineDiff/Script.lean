import ScriptRefactor.Proofs.LineDiff.Middle
import ScriptRefactor.Proofs.LineDiff.Tiles

/-!
# `ScriptRefactor.Proofs.LineDiff.Script`: scripts lead through both texts

The blocks of a script lead from the first lines of both texts to their ends
(`tiles_script`). The equal lines set apart in front of two ranges and behind
them leave ranges that start and end with different lines, so a cut of them
leaves less to both halves, and the fuel lasts. A script of a text with
itself changes nothing (`script_self`).
-/

set_option autoImplicit false

namespace ScriptRefactor.LineDiff

variable {old new : Array String} {r part : Ranges} {p : Nat × Nat} {b : Block} {tag : Tag}
  {n fuel : Nat}

/-! ### Ranges -/

/-- The lines where the ranges start. -/
def Ranges.start (r : Ranges) : Nat × Nat := (r.oldStart, r.newStart)

/-- The lines where the ranges stop. -/
def Ranges.stop (r : Ranges) : Nat × Nat := (r.oldStop, r.newStop)

/-- The ranges do not stop in front of their starts. -/
def Ranges.Ordered (r : Ranges) : Prop := r.oldStart ≤ r.oldStop ∧ r.newStart ≤ r.newStop

/-- The number of lines of both ranges. -/
def Ranges.total (r : Ranges) : Nat := r.oldLength + r.newLength

/-- The halves of ranges at a cut are shorter. -/
theorem Cuts.halves {x y : Nat} (h : Cuts r (x, y)) :
    (Ranges.Ordered { r with oldStop := x, newStop := y } ∧
      Ranges.total { r with oldStop := x, newStop := y } < r.total) ∧
    Ranges.Ordered { r with oldStart := x, newStart := y } ∧
      Ranges.total { r with oldStart := x, newStart := y } < r.total := by
  obtain ⟨hold, hnew, hstart, hstop⟩ := h
  simp only [Ranges.Ordered, Ranges.total, Ranges.oldLength, Ranges.newLength] at *
  omega

/-- The ranges without their first lines. -/
def Ranges.behind (r : Ranges) (n : Nat) : Ranges :=
  { r with oldStart := r.oldStart + n, newStart := r.newStart + n }

/-- The ranges without their last lines. -/
def Ranges.before (r : Ranges) (n : Nat) : Ranges :=
  { r with oldStop := r.oldStop - n, newStop := r.newStop - n }

/-- So many old lines are left behind the first ones. -/
theorem Ranges.behind_oldLength (r : Ranges) (n : Nat) :
    (r.behind n).oldLength = r.oldLength - n :=
  (Nat.sub_sub r.oldStop r.oldStart n).symm

/-- So many new lines are left behind the first ones. -/
theorem Ranges.behind_newLength (r : Ranges) (n : Nat) :
    (r.behind n).newLength = r.newLength - n :=
  (Nat.sub_sub r.newStop r.newStart n).symm

/-- So many old lines are left in front of the last ones. -/
theorem Ranges.before_oldLength (r : Ranges) (n : Nat) :
    (r.before n).oldLength = r.oldLength - n :=
  Nat.sub_right_comm r.oldStop n r.oldStart

/-- So many new lines are left in front of the last ones. -/
theorem Ranges.before_newLength (r : Ranges) (n : Nat) :
    (r.before n).newLength = r.newLength - n :=
  Nat.sub_right_comm r.newStop n r.newStart

/-! ### The script -/

/-- A block that holds lines leads over them. -/
theorem tiles_some {q : Nat × Nat} (hfits : Block.Fits old new p ⟨tag, p.1, p.2, n⟩)
    (hstop : Block.stop ⟨tag, p.1, p.2, n⟩ p = q) :
    Tiles old new p (Block.some tag p.1 p.2 n) q := by
  rw [Block.some]
  split
  · rename_i hn
    subst hn hstop
    cases tag <;> rfl
  · exact ⟨hfits, hstop⟩

/-- Only a run of lines has a block. -/
theorem of_mem_some {i j : Nat} (h : b ∈ Block.some tag i j n) : b.tag = tag ∧ n ≠ 0 := by
  rw [Block.some] at h
  split at h
  · exact absurd h List.not_mem_nil
  · rename_i hn
    exact ⟨congrArg Block.tag (List.mem_singleton.mp h), hn⟩

/-- The script of ranges that start and end with different lines leads
through them, if those of shorter ones do. -/
theorem tiles_scriptBetween {halves : Ranges → List Block} (hr : r.Ordered)
    (hfirst : 0 < r.oldLength → 0 < r.newLength →
      ¬ ∃ line, old[r.oldStart]? = some line ∧ new[r.newStart]? = some line)
    (hlast : 0 < r.oldLength → 0 < r.newLength →
      ¬ ∃ line, old[r.oldStop - 1]? = some line ∧ new[r.newStop - 1]? = some line)
    (hhalves : ∀ part : Ranges, part.Ordered → part.total < r.total →
      Tiles old new part.start (halves part) part.stop) :
    Tiles old new r.start (scriptBetween old new halves r) r.stop := by
  have hold : r.oldStart + r.oldLength = r.oldStop := Nat.add_sub_cancel' hr.1
  have hnew : r.newStart + r.newLength = r.newStop := Nat.add_sub_cancel' hr.2
  rw [scriptBetween]
  split
  · -- Nothing is left of the new text: all old lines go.
    rename_i hM
    rw [hM, Nat.add_zero] at hnew
    exact @tiles_some old new r.start .delete r.oldLength r.stop rfl (Prod.ext hold hnew)
  · rename_i hM
    split
    · -- Nothing is left of the old text: all new lines come in.
      rename_i hN
      rw [hN, Nat.add_zero] at hold
      exact @tiles_some old new r.start .insert r.newLength r.stop rfl (Prod.ext hold hnew)
    · rename_i hN
      -- Both sides have lines, and the script is put together from those of the two halves.
      have hN := Nat.pos_of_ne_zero hN
      have hM := Nat.pos_of_ne_zero hM
      split
      · rename_i x y hmiddle
        have hcuts := cuts_of_middle? hN hM (hfirst hN hM) (hlast hN hM) hmiddle
        obtain ⟨⟨hfront, hlt⟩, hback, hlt'⟩ := hcuts.halves
        exact tiles_append.mpr ⟨(x, y), hhalves _ hfront hlt, hhalves _ hback hlt'⟩
      · exact ⟨rfl, rfl, Prod.ext hold hnew⟩

/-- The script of two ranges: equal lines at their fronts, what is between,
and equal lines at their ends. -/
theorem scriptFuel_succ (front back : Nat)
    (hfront : samePrefix old new r.oldStart r.newStart (min r.oldLength r.newLength) = front)
    (hback : sameSuffix old new r.oldStop r.newStop
      (min (r.behind front).oldLength (r.behind front).newLength) = back) :
    scriptFuel old new (fuel + 1) r
      = Block.some .equal r.oldStart r.newStart front
        ++ scriptBetween old new (scriptFuel old new fuel) ((r.behind front).before back)
        ++ Block.some .equal (r.oldStop - back) (r.newStop - back) back := by
  subst hfront hback
  rfl

/-- The script of two ranges leads through them. -/
theorem tiles_scriptFuel (hr : r.Ordered) (hfuel : r.total < fuel) :
    Tiles old new r.start (scriptFuel old new fuel r) r.stop := by
  induction fuel generalizing r with
  | zero => exact absurd hfuel (Nat.not_lt_zero _)
  | succ fuel ih =>
      -- Equal lines are set apart at the front, then at the end of what is left.
      obtain ⟨hold, hnew⟩ := hr
      have hN : r.oldLength = r.oldStop - r.oldStart := rfl
      have hM : r.newLength = r.newStop - r.newStart := rfl
      have htotal : r.total = r.oldLength + r.newLength := rfl
      obtain ⟨hfront, hsameFront, hfirst⟩ := samePrefix_spec old new r.oldStart r.newStart
        (min r.oldLength r.newLength)
      generalize hx : samePrefix old new r.oldStart r.newStart _ = front
        at hfront hsameFront hfirst
      obtain ⟨hback, hsameBack, hlast⟩ := @sameSuffix_spec r.oldStop r.newStop
        (min (r.behind front).oldLength (r.behind front).newLength) old new
        (by rw [Ranges.behind_oldLength]; omega) (by rw [Ranges.behind_newLength]; omega)
      generalize hy : sameSuffix old new r.oldStop r.newStop _ = back at hback hsameBack hlast
      rw [Ranges.behind_oldLength, Ranges.behind_newLength] at hback hlast
      have hinnerOld : ((r.behind front).before back).oldLength = r.oldLength - front - back := by
        rw [Ranges.before_oldLength, Ranges.behind_oldLength]
      have hinnerNew : ((r.behind front).before back).newLength = r.newLength - front - back := by
        rw [Ranges.before_newLength, Ranges.behind_newLength]
      rw [scriptFuel_succ front back hx hy]
      refine tiles_append.mpr ⟨((r.behind front).before back).stop,
        tiles_append.mpr ⟨((r.behind front).before back).start, ?_, ?_⟩, ?_⟩
      · exact @tiles_some old new r.start .equal front _ ⟨rfl, hsameFront⟩ rfl
      · -- If both ranges still hold lines, the first and the last ones differ.
        refine tiles_scriptBetween ⟨?_, ?_⟩ (fun _ _ => hfirst (by omega))
          (fun _ _ => hlast (by omega)) fun part hpart hlt => ih hpart ?_
        · change r.oldStart + front ≤ r.oldStop - back
          omega
        · change r.newStart + front ≤ r.newStop - back
          omega
        · rw [show ((r.behind front).before back).total = _ + _ from rfl, hinnerOld, hinnerNew]
            at hlt
          omega
      · refine @tiles_some old new ((r.behind front).before back).stop .equal back _
          ⟨rfl, hsameBack⟩ (Prod.ext ?_ ?_)
        · change r.oldStop - back + back = r.oldStop
          omega
        · change r.newStop - back + back = r.newStop
          omega

/-- **A script leads through both texts.** -/
theorem tiles_script (old new : Array String) :
    Tiles old new (0, 0) (script old new) (old.size, new.size) := by
  refine @tiles_scriptFuel old new ⟨0, old.size, 0, new.size⟩ _ ⟨Nat.zero_le _, Nat.zero_le _⟩ ?_
  change (old.size - 0) + (new.size - 0) < old.size + new.size + 2
  omega

/-- Where the new text starts with all old lines, these are shared, and what
is behind them is inserted. -/
theorem script_of_front (hsame : SameFrom old new 0 0 old.size) (hle : old.size ≤ new.size) :
    script old new = Block.some .equal 0 0 old.size
      ++ Block.some .insert old.size old.size (new.size - old.size) := by
  have hfront : samePrefix old new 0 0 (min (old.size - 0) (new.size - 0)) = old.size := by
    rw [Nat.sub_zero, Nat.sub_zero, Nat.min_eq_left hle]
    exact samePrefix_of_same hsame
  -- Nothing is left of the old lines behind the first run.
  have hold : (Ranges.behind ⟨0, old.size, 0, new.size⟩ old.size).oldLength = 0 := by
    rw [Ranges.behind_oldLength]
    exact Nat.sub_self old.size
  have hnew : (Ranges.behind ⟨0, old.size, 0, new.size⟩ old.size).newLength
      = new.size - old.size := Ranges.behind_newLength _ _
  have hback : sameSuffix old new old.size new.size
      (min (Ranges.behind ⟨0, old.size, 0, new.size⟩ old.size).oldLength
        (Ranges.behind ⟨0, old.size, 0, new.size⟩ old.size).newLength) = 0 := by
    rw [hold, Nat.zero_min]
    rfl
  have hnone (i j : Nat) : Block.some .equal i j 0 = [] := rfl
  rw [script, scriptFuel_succ old.size 0 hfront hback, scriptBetween, Ranges.before_newLength,
    Ranges.before_oldLength, hold, hnew, Nat.sub_zero, hnone, List.append_nil]
  congr 1
  rw [if_pos rfl]
  simp only [Ranges.behind, Ranges.before, Nat.zero_add]
  split
  · rename_i hnothing
    rw [hnothing]
    rfl
  · rfl

/-- A text starts with its own lines. -/
theorem sameFrom_self (text : Array String) : SameFrom text text 0 0 text.size := fun t ht => by
  rw [Nat.zero_add]
  exact ⟨text[t], Array.getElem?_eq_getElem ht, Array.getElem?_eq_getElem ht⟩

/-- A script of a text with itself changes nothing. -/
theorem script_self (text : Array String) : ∀ b ∈ script text text, b.tag = .equal := by
  intro b hb
  have hnone : Block.some .insert text.size text.size 0 = [] := rfl
  rw [script_of_front (sameFrom_self text) (Nat.le_refl _), Nat.sub_self, hnone,
    List.append_nil] at hb
  exact (of_mem_some hb).1

end ScriptRefactor.LineDiff
