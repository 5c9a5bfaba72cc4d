import ScriptRefactor.LineDiff.Compact
import Mathlib.Data.List.Basic

/-!
# `ScriptRefactor.Proofs.LineDiff.Tiles`: blocks that tile two texts

A script is right if its blocks *tile* the two texts: each starts in both
texts where the one in front of it ends, the lines of a shared run are equal
in both, and the last one ends where the texts end (`Tiles`). A block need
not tell where it stands in a text of which it takes no line, and where it
tells that, it may be wrong.

Bringing changes together keeps the tiling (`tiles_compact`). A run slides
over shared lines because these are equal to lines of its own; it passes and
swallows other runs.
-/

set_option autoImplicit false

namespace ScriptRefactor.LineDiff

variable {old new : Array String} {i j n m limit : Nat}

/-! ### Equal lines -/

/-- `n` lines of the two texts are there, and are equal. -/
def SameFrom (a b : Array String) (i j n : Nat) : Prop :=
  ∀ t < n, ∃ line, a[i + t]? = some line ∧ b[j + t]? = some line

/-- Where no lines are compared, none differ. -/
theorem sameFrom_zero (a b : Array String) (i j : Nat) : SameFrom a b i j 0 :=
  fun _ ht => absurd ht (Nat.not_lt_zero _)

/-- Equal lines with those behind them. -/
theorem sameFrom_add : SameFrom old new i j (n + m) ↔
    SameFrom old new i j n ∧ SameFrom old new (i + n) (j + n) m := by
  constructor
  · refine fun h => ⟨fun t ht => h t (by omega), fun t ht => ?_⟩
    rw [Nat.add_assoc, Nat.add_assoc]
    exact h (n + t) (by omega)
  · rintro ⟨hfront, hback⟩ t ht
    by_cases htn : t < n
    · exact hfront t htn
    · have hrest := hback (t - n) (by omega)
      rwa [show i + n + (t - n) = i + t by omega, show j + n + (t - n) = j + t by omega] at hrest

/-- Two lines that differ are no line of both texts. -/
theorem not_same_of_ne {x y : String} (hx : old[i]? = some x) (hy : new[j]? = some y)
    (hne : x ≠ y) : ¬ ∃ line, old[i]? = some line ∧ new[j]? = some line := by
  rintro ⟨line, hline, hline'⟩
  exact hne ((Option.some.inj (hx.symm.trans hline)).trans
    (Option.some.inj (hline'.symm.trans hy)))

/-- The equal lines of two ranges from their fronts on: they are equal, and
the next ones are not, if both ranges go on. -/
theorem samePrefix_spec (a b : Array String) (i j limit : Nat) :
    let n := samePrefix a b i j limit
    n ≤ limit ∧ SameFrom a b i j n ∧
      (n < limit → ¬ ∃ line, a[i + n]? = some line ∧ b[j + n]? = some line) := by
  induction limit generalizing i j with
  | zero => exact ⟨Nat.le_refl 0, sameFrom_zero a b _ _, fun h => absurd h (Nat.not_lt_zero _)⟩
  | succ limit ih =>
      -- Equal lines are counted from the next places on.
      obtain ⟨hle, hsame, hnext⟩ := ih (i + 1) (j + 1)
      unfold samePrefix
      split
      · rename_i x y hx hy
        split
        · rename_i heq
          subst heq
          refine ⟨by omega, ?_, fun hlt => ?_⟩
          · rw [Nat.add_comm, sameFrom_add]
            refine ⟨fun t ht => ?_, hsame⟩
            obtain rfl : t = 0 := by omega
            exact ⟨x, hx, hy⟩
          · rw [← Nat.add_assoc, ← Nat.add_assoc, Nat.add_right_comm i, Nat.add_right_comm j]
            exact hnext (by omega)
        · rename_i hne
          exact ⟨Nat.zero_le _, sameFrom_zero a b _ _, fun _ => not_same_of_ne hx hy hne⟩
      · rename_i hnone
        refine ⟨Nat.zero_le _, sameFrom_zero a b _ _, ?_⟩
        rintro - ⟨line, hline, hline'⟩
        exact hnone line line hline hline'

/-- All lines of a range are equal to those of another one. -/
theorem samePrefix_of_same {i j limit : Nat} (h : SameFrom old new i j limit) :
    samePrefix old new i j limit = limit := by
  obtain ⟨hle, -, hnext⟩ := samePrefix_spec old new i j limit
  by_contra hne
  exact hnext (by omega) (h _ (by omega))

/-- The equal lines of two ranges from their ends on: they are equal, and
the ones in front of them are not, if both ranges go on. -/
theorem sameSuffix_spec (a b : Array String) (hi : limit ≤ i) (hj : limit ≤ j) :
    let n := sameSuffix a b i j limit
    n ≤ limit ∧ SameFrom a b (i - n) (j - n) n ∧
      (n < limit → ¬ ∃ line, a[i - n - 1]? = some line ∧ b[j - n - 1]? = some line) := by
  induction limit generalizing i j with
  | zero => exact ⟨Nat.le_refl 0, sameFrom_zero a b _ _, fun h => absurd h (Nat.not_lt_zero _)⟩
  | succ limit ih =>
      -- Equal lines are counted from the places in front.
      obtain ⟨hle, hsame, hnext⟩ := ih (i := i - 1) (j := j - 1) (by omega) (by omega)
      unfold sameSuffix
      split
      · rename_i x y hx hy
        split
        · rename_i heq
          subst heq
          refine ⟨by omega, ?_, fun hlt => ?_⟩
          · rw [sameFrom_add]
            generalize sameSuffix a b (i - 1) (j - 1) limit = n at *
            rw [show i - (n + 1) = i - 1 - n by omega, show j - (n + 1) = j - 1 - n by omega]
            refine ⟨hsame, fun t ht => ⟨x, ?_, ?_⟩⟩
            · rwa [show i - 1 - n + n + t = i - 1 by omega]
            · rwa [show j - 1 - n + n + t = j - 1 by omega]
          · generalize sameSuffix a b (i - 1) (j - 1) limit = n at *
            rw [show i - (n + 1) - 1 = i - 1 - n - 1 by omega,
              show j - (n + 1) - 1 = j - 1 - n - 1 by omega]
            exact hnext (by omega)
        · rename_i hne
          exact ⟨Nat.zero_le _, sameFrom_zero a b _ _, fun _ => not_same_of_ne hx hy hne⟩
      · rename_i hnone
        refine ⟨Nat.zero_le _, sameFrom_zero a b _ _, ?_⟩
        rintro - ⟨line, hline, hline'⟩
        exact hnone line line hline hline'

/-! ### Tilings -/

/-- Where a block ends in both texts that starts at the given lines. -/
def Block.stop (b : Block) (p : Nat × Nat) : Nat × Nat :=
  match b.tag with
  | .equal => (p.1 + b.length, p.2 + b.length)
  | .delete => (p.1 + b.length, p.2)
  | .insert => (p.1, p.2 + b.length)

/-- The block tells that it starts at the given lines, of the texts of which
it takes lines. -/
def Block.Fits (old new : Array String) (p : Nat × Nat) (b : Block) : Prop :=
  match b.tag with
  | .equal => b.old = p.1 ∧ SameFrom old new p.1 p.2 b.length
  | .delete => b.old = p.1
  | .insert => b.new = p.2

/-- The blocks lead from one pair of lines to another. -/
def Tiles (old new : Array String) : Nat × Nat → List Block → Nat × Nat → Prop
  | p, [], q => p = q
  | p, b :: bs, q => b.Fits old new p ∧ Tiles old new (b.stop p) bs q

variable {p q r : Nat × Nat} {front back bs cs : List Block} {b c here shared last next : Block}

/-- One tiling behind another. -/
theorem tiles_append :
    Tiles old new p (front ++ back) r ↔ ∃ q, Tiles old new p front q ∧ Tiles old new q back r := by
  induction front generalizing p with
  | nil => exact ⟨fun h => ⟨p, rfl, h⟩, fun ⟨q, hq, h⟩ => (show p = q from hq) ▸ h⟩
  | cons b front ih =>
      rw [List.cons_append, Tiles, ih]
      exact ⟨fun ⟨hb, q, hfront, hback⟩ => ⟨q, ⟨hb, hfront⟩, hback⟩,
        fun ⟨q, ⟨hb, hfront⟩, hback⟩ => ⟨hb, q, hfront, hback⟩⟩

/-- Another end takes the place of one. -/
theorem Tiles.replace (h : Tiles old new p (front ++ bs) q)
    (hbs : ∀ r, Tiles old new r bs q → Tiles old new r cs q) :
    Tiles old new p (front ++ cs) q := by
  obtain ⟨r, hfront, hback⟩ := tiles_append.mp h
  exact tiles_append.mpr ⟨r, hfront, hbs r hback⟩

/-- A shared run without lines can be left out. -/
theorem Tiles.of_empty (h : Tiles old new p (b :: bs) q) (htag : b.tag = .equal)
    (hlength : b.length = 0) : Tiles old new p bs q := by
  obtain ⟨-, h⟩ := h
  rwa [Block.stop, htag, hlength] at h

/-- Runs of one kind that follow each other become one. -/
theorem Tiles.merge (h : Tiles old new p (b :: c :: bs) q) (htag : b.tag = c.tag)
    (hne : b.tag ≠ .equal) : Tiles old new p (b.extend c.length :: bs) q := by
  obtain ⟨hb, -, h⟩ := h
  obtain ⟨tag, bo, bn, bl⟩ := b
  obtain ⟨ctag, co, cn, cl⟩ := c
  obtain rfl : tag = ctag := htag
  cases tag with
  | equal => exact absurd rfl hne
  | delete => exact ⟨hb, by simpa only [Block.stop, Block.extend, Nat.add_assoc] using h⟩
  | insert => exact ⟨hb, by simpa only [Block.stop, Block.extend, Nat.add_assoc] using h⟩

/-- An insertion and a deletion can pass each other. -/
theorem Tiles.swap (h : Tiles old new p (b :: c :: bs) q) (hne : b.tag ≠ c.tag)
    (hb : b.tag ≠ .equal) (hc : c.tag ≠ .equal) : Tiles old new p (c :: b :: bs) q := by
  obtain ⟨hfits, hfits', h⟩ := h
  obtain ⟨tag, bo, bn, bl⟩ := b
  obtain ⟨ctag, co, cn, cl⟩ := c
  cases tag <;> cases ctag
  case delete.insert => exact ⟨hfits', hfits, h⟩
  case insert.delete => exact ⟨hfits', hfits, h⟩
  all_goals simp_all

/-! ### Slides -/

/-- Shared lines put behind an insertion go on to those behind it. -/
theorem tiles_pushBelow (hstart : shared.old + shared.length - n = p.1)
    (hsame : SameFrom old new p.1 p.2 n)
    (h : Tiles old new (p.1 + n, p.2 + n) bs q) :
    Tiles old new p (pushBelow here shared n bs) q := by
  unfold pushBelow
  cases bs with
  | nil => exact ⟨⟨hstart, hsame⟩, h⟩
  | cons next rest =>
      dsimp only
      split
      · -- The lines go in front of a shared run, which starts earlier then.
        rename_i htag
        obtain ⟨hnext, h⟩ := h
        obtain ⟨tag, o, n', l⟩ := next
        obtain rfl : tag = .equal := htag
        obtain ⟨ho, hnext⟩ := hnext
        refine ⟨⟨?_, ?_⟩, ?_⟩
        · show o - n = p.1
          have ho : o = p.1 + n := ho
          omega
        · show SameFrom old new p.1 p.2 (l + n)
          rw [Nat.add_comm, sameFrom_add]
          exact ⟨hsame, hnext⟩
        · show Tiles old new (p.1 + (l + n), p.2 + (l + n)) rest q
          rw [Nat.add_comm l, ← Nat.add_assoc, ← Nat.add_assoc]
          exact h
      · exact ⟨⟨hstart, hsame⟩, h⟩

/-- Shared lines put in front of an insertion go on with those in front of
it. -/
theorem tiles_pushAbove (hstart : shared.old = r.1) (hnew : here.new = r.2)
    (hsame : SameFrom old new r.1 r.2 n) (h : Tiles old new p bs.reverse r) :
    Tiles old new p (pushAbove here shared n bs).reverse (r.1 + n, r.2 + n) := by
  have hpiece : Tiles old new r [⟨.equal, shared.old, here.new, n⟩] (r.1 + n, r.2 + n) :=
    ⟨⟨hstart, hsame⟩, rfl⟩
  unfold pushAbove
  cases bs with
  | nil =>
      obtain rfl : p = r := h
      exact hpiece
  | cons last rest =>
      dsimp only
      split
      · -- The lines go behind a shared run, which ends later then.
        rename_i htag
        rw [List.reverse_cons] at h ⊢
        obtain ⟨q, hfront, hlast, hend⟩ := tiles_append.mp h
        refine tiles_append.mpr ⟨q, hfront, ?_⟩
        obtain ⟨tag, o, n', l⟩ := last
        obtain rfl : tag = .equal := htag
        obtain rfl : (q.1 + l, q.2 + l) = r := hend
        obtain ⟨ho, hlast⟩ := hlast
        refine ⟨⟨ho, sameFrom_add.mpr ⟨hlast, hsame⟩⟩, ?_⟩
        show (q.1 + (l + n), q.2 + (l + n)) = _
        rw [← Nat.add_assoc, ← Nat.add_assoc]
      · rw [List.reverse_cons]
        exact tiles_append.mpr ⟨r, h, hpiece⟩

/-- An insertion that moves up over shared lines takes lines equal to its
last ones, and leaves these behind it as shared. -/
theorem Tiles.slideUp (h : Tiles old new p (shared :: here :: bs) q) (hshared : shared.tag = .equal)
    (hhere : here.tag = .insert) (hn : n ≤ shared.length) (hm : n ≤ here.length)
    (hsame : SameFrom old new (shared.old + shared.length - n) (here.new + here.length - n) n) :
    Tiles old new p (shared.shorten n :: here.moveUp n :: pushBelow here shared n bs) q := by
  obtain ⟨hfits, hfits', h⟩ := h
  obtain ⟨tag, so, sn, sl⟩ := shared
  obtain rfl : tag = .equal := hshared
  obtain ⟨tag, ho, hw, hl⟩ := here
  obtain rfl : tag = .insert := hhere
  obtain ⟨hold, hlines⟩ := hfits
  obtain rfl : so = p.1 := hold
  -- The insertion tells where it stands in the new text only.
  obtain rfl : hw = p.2 + sl := hfits'
  have hn : n ≤ sl := hn
  have hm : n ≤ hl := hm
  have hsplit : sl = sl - n + n := by omega
  have hlines : SameFrom old new p.1 p.2 (sl - n + n) := hsplit ▸ hlines
  refine ⟨⟨rfl, (sameFrom_add.mp hlines).1⟩, ?_, tiles_pushBelow ?_ ?_ ?_⟩
  · show p.2 + sl - n = p.2 + (sl - n)
    omega
  · show p.1 + sl - n = p.1 + (sl - n)
    omega
  · have hsame : SameFrom old new (p.1 + sl - n) (p.2 + sl + hl - n) n := hsame
    rw [show p.1 + sl - n = p.1 + (sl - n) by omega,
      show p.2 + sl + hl - n = p.2 + (sl - n) + hl by omega] at hsame
    exact hsame
  · have h : Tiles old new (p.1 + sl, p.2 + sl + hl) bs q := h
    rw [show p.1 + sl = p.1 + (sl - n) + n by omega,
      show p.2 + sl + hl = p.2 + (sl - n) + hl + n by omega] at h
    exact h

/-- An insertion that moves down over shared lines leaves lines equal to
its first ones in front of it as shared. -/
theorem Tiles.slideDown (h : Tiles old new p (bs.reverse ++ here :: shared :: cs) q)
    (hshared : shared.tag = .equal) (hhere : here.tag = .insert) (hn : n ≤ shared.length)
    (hm : n ≤ here.length) (hsame : SameFrom old new shared.old here.new n) :
    Tiles old new p ((pushAbove here shared n bs).reverse ++
      here.moveDown n :: (shared.moveDown n).shorten n :: cs) q := by
  obtain ⟨r, hfront, hfits, hfits', h⟩ := tiles_append.mp h
  obtain ⟨tag, so, sn, sl⟩ := shared
  obtain rfl : tag = .equal := hshared
  obtain ⟨tag, ho, hw, hl⟩ := here
  obtain rfl : tag = .insert := hhere
  obtain ⟨hold, hlines⟩ := hfits'
  obtain rfl : so = r.1 := hold
  obtain rfl : hw = r.2 := hfits
  have hn : n ≤ sl := hn
  have hm : n ≤ hl := hm
  refine tiles_append.mpr ⟨_, tiles_pushAbove rfl rfl hsame hfront, rfl, ⟨rfl, ?_⟩, ?_⟩
  · -- The shared lines behind the first `n` are those of the shortened block.
    have hlines : SameFrom old new r.1 (r.2 + hl) sl := hlines
    rw [show sl = n + (sl - n) by omega, sameFrom_add] at hlines
    show SameFrom old new (r.1 + n) (r.2 + n + hl) (sl - n)
    rw [Nat.add_right_comm]
    exact hlines.2
  · -- The blocks behind start where they did, since both moves take as much as they give.
    have h : Tiles old new (r.1 + sl, r.2 + hl + sl) cs q := h
    show Tiles old new (r.1 + n + (sl - n), r.2 + n + hl + (sl - n)) cs q
    rw [show r.1 + n + (sl - n) = r.1 + sl by omega,
      show r.2 + n + hl + (sl - n) = r.2 + hl + sl by omega]
    exact h

/-- The slack above is of lines that are equal to the last ones of an
insertion. -/
theorem slackAbove_spec (hne : slackAbove old new here shared ≠ 0) :
    let n := slackAbove old new here shared
    here.tag = .insert ∧ n ≤ shared.length ∧ n ≤ here.length ∧
      SameFrom old new (shared.old + shared.length - n) (here.new + here.length - n) n := by
  unfold slackAbove at hne ⊢
  split
  · rename_i htag
    obtain ⟨hle, hsame, -⟩ := @sameSuffix_spec (shared.old + shared.length) (here.new + here.length)
      (min shared.length here.length) old new (by omega) (by omega)
    exact ⟨htag, Nat.le_trans hle (Nat.min_le_left ..), Nat.le_trans hle (Nat.min_le_right ..),
      hsame⟩
  · rename_i htag
    rw [if_neg htag] at hne
    exact absurd rfl hne

/-- The slack below is of lines that are equal to the first ones of an
insertion. -/
theorem slackBelow_spec (hne : slackBelow old new here shared ≠ 0) :
    let n := slackBelow old new here shared
    here.tag = .insert ∧ n ≤ shared.length ∧ n ≤ here.length ∧
      SameFrom old new shared.old here.new n := by
  unfold slackBelow at hne ⊢
  split
  · rename_i htag
    obtain ⟨hle, hsame, -⟩ :=
      samePrefix_spec old new shared.old here.new (min shared.length here.length)
    exact ⟨htag, Nat.le_trans hle (Nat.min_le_left ..), Nat.le_trans hle (Nat.min_le_right ..),
      hsame⟩
  · rename_i htag
    rw [if_neg htag] at hne
    exact absurd rfl hne

/-- A slide up keeps the tiling. -/
theorem tiles_slideUp {before after : List Block} (htag : here.tag ≠ .equal)
    (h : Tiles old new p (before.reverse ++ here :: after) q) :
    let f := slideUp old new after here before
    f.here.tag ≠ .equal ∧ Tiles old new p (f.before.reverse ++ f.here :: f.after) q := by
  -- `before` is kept with the nearest block first, so a step works on the end of its reverse.
  induction after, here, before using slideUp.induct old new with
  | case1 after here =>
      rw [slideUp]
      exact ⟨htag, h⟩
  | case2 after here last before hlast n hn hlength ih =>
      rw [slideUp, if_pos hlast, if_pos hn, if_pos hlength]
      rw [List.reverse_cons, List.append_assoc] at h
      exact ih htag (h.replace fun r hr => hr.of_empty hlast hlength)
  | case3 after here last before hlast n hn hlength =>
      rw [slideUp, if_pos hlast, if_pos hn, if_neg hlength]
      exact ⟨htag, h⟩
  | case4 after here last before hlast n hn hle ih =>
      rw [slideUp, if_pos hlast, if_neg hn, if_pos hle]
      rw [List.reverse_cons, List.append_assoc] at h
      obtain ⟨hinsert, hshared, hhere, hsame⟩ := slackAbove_spec hn
      refine ih htag (h.replace fun r hr => ?_)
      exact (hr.slideUp hlast hinsert hshared hhere hsame).of_empty hlast
        (Nat.sub_eq_zero_of_le hle)
  | case5 after here last before hlast n hn hle ih =>
      rw [slideUp, if_pos hlast, if_neg hn, if_neg hle]
      rw [List.reverse_cons, List.append_assoc] at h
      obtain ⟨hinsert, hshared, hhere, hsame⟩ := slackAbove_spec hn
      refine ih htag ?_
      rw [List.reverse_cons, List.append_assoc]
      exact h.replace fun r hr => hr.slideUp hlast hinsert hshared hhere hsame
  | case6 after here last before hlast hsame ih =>
      rw [slideUp, if_neg hlast, if_pos hsame]
      rw [List.reverse_cons, List.append_assoc] at h
      exact ih hlast (h.replace fun r hr => hr.merge hsame hlast)
  | case7 after here last before hlast hother ih =>
      rw [slideUp, if_neg hlast, if_neg hother]
      rw [List.reverse_cons, List.append_assoc] at h
      exact ih htag (h.replace fun r hr => hr.swap hother hlast htag)

/-- A slide down keeps the tiling. -/
theorem tiles_slideDown {before after : List Block} (htag : here.tag ≠ .equal)
    (h : Tiles old new p (before.reverse ++ here :: after) q) :
    let f := slideDown old new before here after
    Tiles old new p (f.before.reverse ++ f.here :: f.after) q := by
  induction before, here, after using slideDown.induct old new with
  | case1 before here =>
      rw [slideDown]
      exact h
  -- The next block is empty and is left out.
  | case2 before here next after hnext n hn hlength ih =>
      rw [slideDown, if_pos hnext, if_pos hn, if_pos hlength]
      exact ih htag (h.replace fun r hr => ⟨hr.1, hr.2.of_empty hnext hlength⟩)
  | case3 before here next after hnext n hn hlength =>
      rw [slideDown, if_pos hnext, if_pos hn, if_neg hlength]
      exact h
  -- The block slides over equal lines, and an emptied block is left out.
  | case4 before here next after hnext n hn hle ih =>
      rw [slideDown, if_pos hnext, if_neg hn, if_pos hle]
      obtain ⟨hinsert, hshared, hhere, hsame⟩ := slackBelow_spec hn
      refine ih htag ((h.slideDown hnext hinsert hshared hhere hsame).replace fun r hr => ?_)
      exact ⟨hr.1, hr.2.of_empty hnext (Nat.sub_eq_zero_of_le hle)⟩
  | case5 before here next after hnext n hn hle ih =>
      rw [slideDown, if_pos hnext, if_neg hn, if_neg hle]
      obtain ⟨hinsert, hshared, hhere, hsame⟩ := slackBelow_spec hn
      exact ih htag (h.slideDown hnext hinsert hshared hhere hsame)
  -- A block of the same sort is taken in.
  | case6 before here next after hnext hsame ih =>
      rw [slideDown, if_neg hnext, if_pos hsame]
      exact ih htag (h.replace fun r hr => hr.merge hsame.symm htag)
  -- A block of the other sort changes places with it.
  | case7 before here next after hnext hother ih =>
      rw [slideDown, if_neg hnext, if_neg hother]
      refine ih htag ?_
      rw [List.reverse_cons, List.append_assoc]
      exact h.replace fun r hr => hr.swap (Ne.symm hother) htag hnext

/-! ### All runs -/

/-- Sliding the runs of one kind keeps the tiling. -/
theorem tiles_compactFuel {tag : Tag} (htag : tag ≠ .equal) {fuel : Nat} {before after : List Block}
    (h : Tiles old new p (before.reverse ++ after) q) :
    Tiles old new p (compactFuel old new tag fuel before after) q := by
  induction fuel generalizing before after with
  | zero => exact h
  | succ fuel ih =>
      cases after with
      | nil => simpa [compactFuel] using h
      | cons here after =>
          rw [compactFuel]
          split
          · rename_i hhere
            obtain ⟨hup, h⟩ := tiles_slideUp (hhere ▸ htag) h
            refine ih ?_
            rw [List.reverse_cons, List.append_assoc]
            exact tiles_slideDown hup h
          · refine ih ?_
            rw [List.reverse_cons, List.append_assoc]
            exact h

/-- **Bringing changes together keeps the tiling.** -/
theorem tiles_compact (h : Tiles old new p bs q) : Tiles old new p (compact old new bs) q :=
  tiles_compactFuel (by decide) (tiles_compactFuel (by decide) h)

/-- Behind the last block there is nothing to slide. -/
theorem compactFuel_nil (tag : Tag) (fuel : Nat) (before : List Block) :
    compactFuel old new tag fuel before [] = before.reverse := by
  cases fuel with
  | zero => exact List.append_nil _
  | succ fuel => rfl

/-- Where no run is of the kind, none is slid. -/
theorem compactFuel_of_no_kind {tag : Tag} {fuel : Nat} {before after : List Block}
    (h : ∀ b ∈ after, b.tag ≠ tag) :
    compactFuel old new tag fuel before after = before.reverse ++ after := by
  induction fuel generalizing before after with
  | zero => rfl
  | succ fuel ih =>
      cases after with
      | nil => rw [compactFuel_nil, List.append_nil]
      | cons b after =>
          obtain ⟨hb, hafter⟩ := List.forall_mem_cons.mp h
          rw [compactFuel, if_neg hb, ih hafter, List.reverse_cons, List.append_assoc]
          rfl

/-- If there are no changes, there is nothing to bring together. -/
theorem compact_of_equal (h : ∀ b ∈ bs, b.tag = .equal) : compact old new bs = bs := by
  have hno (tag : Tag) (htag : tag ≠ .equal) : ∀ b ∈ bs, b.tag ≠ tag := fun b hb hkind =>
    htag (hkind.symm.trans (h b hb))
  rw [compact, compactKind, compactKind, compactFuel_of_no_kind (hno .delete (by decide)),
    List.reverse_nil, List.nil_append, compactFuel_of_no_kind (hno .insert (by decide))]
  rfl

end ScriptRefactor.LineDiff
