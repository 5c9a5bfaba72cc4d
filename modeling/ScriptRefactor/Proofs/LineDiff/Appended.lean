import ScriptRefactor.Proofs.LineDiff.Unified

/-!
# `ScriptRefactor.Proofs.LineDiff.Appended`: lines put behind a text

If lines are put behind a text, all the old ones are equal lines at the front
and the script is one insertion behind them. The insertion may slide up when
its last lines are those of the old text, too. But wherever it stands between
shared lines, the lines behind it go on as it starts, because the new text
goes on as the old one does; so it slides down again to the very end
(`slideDown_to_end`), and the difference is what was appended, as one added
chunk (`chunks_append`).
-/

set_option autoImplicit false

namespace ScriptRefactor.LineDiff

variable {old new : Array String} {p q : Nat × Nat} {here : Block}
  {before after bs front : List Block} {fuel : Nat}

/-! ### One insertion between shared lines -/

/-- Shared lines lead on in both texts alike. -/
theorem Tiles.of_equal (h : Tiles old new p bs q) (hbs : ∀ b ∈ bs, b.tag = .equal) :
    ∃ n, q = (p.1 + n, p.2 + n) := by
  induction bs generalizing p with
  | nil => exact ⟨0, (show p = q from h).symm⟩
  | cons b bs ih =>
      obtain ⟨hb, hbs⟩ := List.forall_mem_cons.mp hbs
      obtain ⟨-, h⟩ := h
      obtain ⟨n, rfl⟩ := ih h hbs
      exact ⟨b.length + n, by simp only [Block.stop, hb, Nat.add_assoc]⟩

/-- Shared lines put in front of an insertion leave no change there. -/
theorem equal_pushAbove {here shared : Block} {n : Nat} (h : ∀ b ∈ bs, b.tag = .equal) :
    ∀ b ∈ pushAbove here shared n bs, b.tag = .equal := by
  cases bs with
  | nil => simp [pushAbove]
  | cons last bs =>
      obtain ⟨hlast, hbs⟩ := List.forall_mem_cons.mp h
      rw [pushAbove, if_pos hlast]
      exact List.forall_mem_cons.mpr ⟨hlast, hbs⟩

/-- Nor do those put behind it. -/
theorem equal_pushBelow {here shared : Block} {n : Nat} (h : ∀ b ∈ bs, b.tag = .equal) :
    ∀ b ∈ pushBelow here shared n bs, b.tag = .equal := by
  cases bs with
  | nil => simp [pushBelow]
  | cons next bs =>
      obtain ⟨hnext, hbs⟩ := List.forall_mem_cons.mp h
      rw [pushBelow, if_pos hnext]
      exact List.forall_mem_cons.mpr ⟨hnext, hbs⟩

/-- All blocks but one, which is an insertion, are shared lines. -/
structure OneInsertion (before : List Block) (here : Block) (after : List Block) : Prop where
  /-- The lines in front are shared. -/
  before : ∀ b ∈ before, b.tag = .equal
  /-- The block itself is an insertion. -/
  here : here.tag = .insert
  /-- The lines behind are shared. -/
  after : ∀ b ∈ after, b.tag = .equal

/-- An insertion that slides up stays the only one. -/
theorem OneInsertion.slideUp (h : OneInsertion before here after) :
    let f := slideUp old new after here before
    OneInsertion f.before f.here f.after := by
  induction after, here, before using slideUp.induct old new with
  | case1 after here =>
      rw [LineDiff.slideUp]
      exact h
  | case2 after here last before hlast n hn hlength ih =>
      rw [LineDiff.slideUp, if_pos hlast, if_pos hn, if_pos hlength]
      exact ih { h with before := (List.forall_mem_cons.mp h.before).2 }
  | case3 after here last before hlast n hn hlength =>
      rw [LineDiff.slideUp, if_pos hlast, if_pos hn, if_neg hlength]
      exact h
  | case4 after here last before hlast n hn hle ih =>
      rw [LineDiff.slideUp, if_pos hlast, if_neg hn, if_pos hle]
      exact ih ⟨(List.forall_mem_cons.mp h.before).2, h.here, equal_pushBelow h.after⟩
  | case5 after here last before hlast n hn hle ih =>
      rw [LineDiff.slideUp, if_pos hlast, if_neg hn, if_neg hle]
      exact ih ⟨List.forall_mem_cons.mpr ⟨hlast, (List.forall_mem_cons.mp h.before).2⟩, h.here,
        equal_pushBelow h.after⟩
  -- All blocks in front are equal ones, so there is none to join or to pass.
  | case6 after here last before hlast hsame ih =>
      exact absurd (h.before last List.mem_cons_self) hlast
  | case7 after here last before hlast hother ih =>
      exact absurd (h.before last List.mem_cons_self) hlast

/-- Where the new text goes on as the old one does, an insertion has slack
over the shared lines behind it. -/
theorem slackBelow_ne_zero {next : Block} (hsame : SameFrom old new 0 0 old.size)
    (hlonger : old.size < new.size) (h : OneInsertion before here (next :: after))
    (htiles : Tiles old new (0, 0) (before.reverse ++ here :: next :: after) (old.size, new.size))
    (hnext : next.length ≠ 0) : slackBelow old new here next ≠ 0 := by
  obtain ⟨hequal, hafter⟩ := List.forall_mem_cons.mp h.after
  -- In front of the insertion both texts have as many lines.
  obtain ⟨r, hfront, hhere, hfits, hrest⟩ := tiles_append.mp htiles
  obtain ⟨n, rfl⟩ := hfront.of_equal fun b hb => h.before b (List.mem_reverse.mp hb)
  obtain ⟨m, hend⟩ := hrest.of_equal hafter
  simp only [Block.Fits, Block.stop, h.here, hequal, Nat.zero_add] at hhere hfits hend
  obtain ⟨hstart, hlines⟩ := hfits
  have hlength : 0 < min next.length here.length := by
    have hstop := congrArg Prod.fst hend
    have hstop' := congrArg Prod.snd hend
    dsimp only at hstop hstop'
    omega
  obtain ⟨line, hline, -⟩ := hlines 0 (by omega)
  have hinside : n < old.size := by
    by_contra hout
    rw [Nat.add_zero, Array.getElem?_eq_none (by omega)] at hline
    cases hline
  have hfirst := hsame n hinside
  rw [Nat.zero_add] at hfirst
  rw [slackBelow, if_pos h.here, hstart, hhere]
  obtain ⟨-, -, hdiffer⟩ := samePrefix_spec old new n n (min next.length here.length)
  intro hzero
  rw [hzero] at hdiffer
  exact hdiffer hlength hfirst

/-- **An insertion behind a text slides down to its end.** -/
theorem slideDown_to_end (hsame : SameFrom old new 0 0 old.size) (hlonger : old.size < new.size)
    (h : OneInsertion before here after)
    (htiles : Tiles old new (0, 0) (before.reverse ++ here :: after) (old.size, new.size)) :
    let f := slideDown old new before here after
    OneInsertion f.before f.here f.after ∧ f.after = [] := by
  induction before, here, after using slideDown.induct old new with
  | case1 before here =>
      rw [slideDown]
      exact ⟨h, rfl⟩
  | case2 before here next after hnext n hn hlength ih =>
      rw [slideDown, if_pos hnext, if_pos hn, if_pos hlength]
      exact ih { h with after := (List.forall_mem_cons.mp h.after).2 }
        (htiles.replace fun r hr => ⟨hr.1, hr.2.of_empty hnext hlength⟩)
  -- The insertion cannot stop in front of equal lines: the new text repeats the whole old one.
  | case3 before here next after hnext n hn hlength =>
      exact absurd hn (slackBelow_ne_zero hsame hlonger h htiles hlength)
  | case4 before here next after hnext n hn hle ih =>
      rw [slideDown, if_pos hnext, if_neg hn, if_pos hle]
      obtain ⟨hinsert, hshared, hhere, hlines⟩ := slackBelow_spec hn
      refine ih ⟨equal_pushAbove h.before, h.here, (List.forall_mem_cons.mp h.after).2⟩
        ((htiles.slideDown hnext hinsert hshared hhere hlines).replace fun r hr => ?_)
      exact ⟨hr.1, hr.2.of_empty hnext (Nat.sub_eq_zero_of_le hle)⟩
  | case5 before here next after hnext n hn hle ih =>
      rw [slideDown, if_pos hnext, if_neg hn, if_neg hle]
      obtain ⟨hinsert, hshared, hhere, hlines⟩ := slackBelow_spec hn
      exact ih ⟨equal_pushAbove h.before, h.here,
          List.forall_mem_cons.mpr ⟨hnext, (List.forall_mem_cons.mp h.after).2⟩⟩
        (htiles.slideDown hnext hinsert hshared hhere hlines)
  -- All blocks behind are equal ones.
  | case6 before here next after hnext hkind ih =>
      exact absurd (h.after next List.mem_cons_self) hnext
  | case7 before here next after hnext hother ih =>
      exact absurd (h.after next List.mem_cons_self) hnext

/-! ### The script of an appended text -/

/-- The only insertion, behind all shared lines, is there again when it was
slid. -/
theorem compactFuel_appended (hsame : SameFrom old new 0 0 old.size)
    (hlonger : old.size < new.size) (hbefore : ∀ b ∈ before, b.tag = .equal)
    (hfront : ∀ b ∈ front, b.tag = .equal) (hhere : here.tag = .insert)
    (htiles : Tiles old new (0, 0) (before.reverse ++ (front ++ [here])) (old.size, new.size)) :
    ∃ bs last, compactFuel old new .insert fuel before (front ++ [here]) = bs ++ [last] ∧
      (∀ b ∈ bs, b.tag = .equal) ∧ last.tag = .insert := by
  induction fuel generalizing before front with
  | zero =>
      refine ⟨before.reverse ++ front, here, (List.append_assoc ..).symm, ?_, hhere⟩
      exact List.forall_mem_append.mpr ⟨fun b hb => hbefore b (List.mem_reverse.mp hb), hfront⟩
  | succ fuel ih =>
      cases front with
      | nil =>
          -- The insertion is reached. It slides up, and from there down to the end.
          have hone : OneInsertion before here [] := ⟨hbefore, hhere, by simp⟩
          have hup := @OneInsertion.slideUp old new _ _ _ hone
          have hupTiles := (tiles_slideUp (by rw [hhere]; decide) htiles).2
          obtain ⟨hdown, hend⟩ := slideDown_to_end hsame hlonger hup hupTiles
          rw [List.nil_append, compactFuel, if_pos hhere]
          dsimp only
          rw [hend, compactFuel_nil, List.reverse_cons]
          exact ⟨_, _, rfl, fun b hb => hdown.before b (List.mem_reverse.mp hb), hdown.here⟩
      -- An equal block is passed.
      | cons b front =>
          obtain ⟨hb, hfront⟩ := List.forall_mem_cons.mp hfront
          rw [List.cons_append, compactFuel, if_neg (by rw [hb]; decide)]
          refine ih (List.forall_mem_cons.mpr ⟨hb, hbefore⟩) hfront ?_
          rw [List.reverse_cons, List.append_assoc]
          exact htiles

/-- Behind a script of appended lines, the last block is their insertion, and
so it is when the changes are brought together. -/
theorem compact_appended (hsame : SameFrom old new 0 0 old.size) (hlonger : old.size < new.size) :
    ∃ bs last, compact old new (script old new) = bs ++ [last] ∧ (∀ b ∈ bs, b.tag = .equal) ∧
      last.tag = .insert := by
  have htiles := tiles_script old new
  have hinsert : Block.some .insert old.size old.size (new.size - old.size)
      = [⟨.insert, old.size, old.size, new.size - old.size⟩] := if_neg (by omega)
  have hequal : ∀ b ∈ Block.some .equal 0 0 old.size, b.tag = .equal := fun b hb =>
    (of_mem_some hb).1
  rw [script_of_front hsame hlonger.le, hinsert] at htiles ⊢
  have hno : ∀ b ∈ Block.some .equal 0 0 old.size
      ++ [⟨.insert, old.size, old.size, new.size - old.size⟩], b.tag ≠ .delete := by
    refine List.forall_mem_append.mpr ⟨fun b hb => ?_, by simp⟩
    rw [hequal b hb]
    decide
  rw [compact, compactKind, compactKind, compactFuel_of_no_kind hno]
  exact compactFuel_appended hsame hlonger (by simp) hequal rfl htiles

/-! ### The chunks of an appended text -/

/-- A text as one chunk. -/
def Chunk.whole (tag : Tag) (text : String) : Chunk := ⟨tag, text, (tokenize text).size⟩

/-- Lines of the kind of the last chunk go on with it. -/
theorem takeLines_onto {tag : Tag} (values : List String) (value : String) (count : Nat)
    (chunks : List Chunk) :
    (values.map (tag, ·)).foldl Chunk.take (⟨tag, value, count⟩ :: chunks)
      = ⟨tag, value ++ String.join values, count + values.length⟩ :: chunks := by
  induction values generalizing value count with
  | nil => simp
  | cons line values ih =>
      rw [List.map_cons, List.foldl_cons, Chunk.take, if_pos rfl, ih, String.append_assoc,
        ← String.join_cons, List.length_cons, Nat.add_right_comm, Nat.add_assoc]

/-- Lines of another kind than the last chunk make one of their own. -/
theorem takeLines {tag : Tag} {values : List String} (hne : values ≠ []) {chunks : List Chunk}
    (hother : ∀ c ∈ chunks.head?, c.tag ≠ tag) :
    (values.map (tag, ·)).foldl Chunk.take chunks
      = ⟨tag, String.join values, values.length⟩ :: chunks := by
  obtain ⟨line, values, rfl⟩ := List.exists_cons_of_ne_nil hne
  have hfirst : Chunk.take chunks (tag, line) = ⟨tag, line, 1⟩ :: chunks := by
    cases chunks with
    | nil => rfl
    | cons last chunks =>
        rw [Chunk.take, if_neg (hother last rfl)]
  rw [List.map_cons, List.foldl_cons, hfirst, takeLines_onto, String.join_cons, List.length_cons,
    Nat.add_comm]

/-- The lines of a text that is not empty make one chunk behind one of another
kind. -/
theorem takeText {tag : Tag} {text : String} (hne : text ≠ "") {chunks : List Chunk}
    (hother : ∀ c ∈ chunks.head?, c.tag ≠ tag) :
    ((tokenize text).toList.map (tag, ·)).foldl Chunk.take chunks
      = Chunk.whole tag text :: chunks := by
  rw [takeLines (tokenize_ne_nil hne) hother, join_tokenize, Array.length_toList, Chunk.whole]

/-- The lines of a text with others behind it: the old ones are shared, and
then there are the added ones. -/
theorem lines_appended (hsame : SameFrom old new 0 0 old.size) (hlonger : old.size < new.size) :
    ∃ shared added : List String,
      (hunks old new).flatMap (Hunk.lines old new)
        = shared.map (Tag.equal, ·) ++ added.map (Tag.insert, ·) := by
  obtain ⟨bs, last, hcompact, hbs, hlast⟩ := compact_appended hsame hlonger
  obtain ⟨tag, o, n, length⟩ := last
  obtain rfl : tag = .insert := hlast
  rw [hunks, hcompact, Hunk.ofBlocks, List.foldl_append, List.foldl_cons, List.foldl_nil]
  obtain hnone | ⟨start, count, hone⟩ := takeAll_of_equal hbs (.inl rfl)
  · rw [hnone]
    exact ⟨[], linesFrom new n length, by simp [Hunk.take, Hunk.lines, linesFrom_eq]⟩
  · rw [hone]
    exact ⟨linesFrom old start count, linesFrom new n length,
      by simp [Hunk.take, Hunk.lines, linesFrom_eq]⟩

/-- The lines of a comparison with a text that goes on are the old ones, all
shared, and then the added ones. -/
theorem lines_append {added : Array String} (hne : added.toList ≠ []) :
    (hunks old (old ++ added)).flatMap (Hunk.lines old (old ++ added))
      = old.toList.map (Tag.equal, ·) ++ added.toList.map (Tag.insert, ·) := by
  have hlonger : old.size < (old ++ added).size := by
    have hpos := List.length_pos_iff.mpr hne
    rw [Array.length_toList] at hpos
    rw [Array.size_append]
    omega
  have hsame : SameFrom old (old ++ added) 0 0 old.size := fun t ht => by
    rw [Nat.zero_add, Array.getElem?_append_left ht]
    exact ⟨old[t], Array.getElem?_eq_getElem ht, Array.getElem?_eq_getElem ht⟩
  obtain ⟨shared, more, hlines⟩ := lines_appended hsame hlonger
  obtain ⟨hold, hnew⟩ := lines_hunks old (old ++ added)
  rw [hlines] at hold hnew ⊢
  simp only [without_append, without_map, if_pos, reduceCtorEq, if_false, List.append_nil]
    at hold hnew
  rw [hold, Array.toList_append] at hnew
  rw [hold, List.append_cancel_left hnew]

/-- **What is appended is one added chunk.** If a text that is not empty is
put behind another one, which is completed with a line feed first, then the
chunks are the old text, unless it is empty, and what was added. -/
theorem chunks_append (old : String) {extra : String} (h : extra ≠ "") :
    (chunks old (withFinalFeed old ++ extra)).filter (·.tag = .insert)
        = [Chunk.whole .insert (withFinalFeed extra)] ∧
      (∀ c ∈ chunks old (withFinalFeed old ++ extra), c.tag ≠ .delete) ∧
      chunks old (withFinalFeed old ++ extra)
        = (if old = "" then [] else [Chunk.whole .equal (withFinalFeed old)])
          ++ [Chunk.whole .insert (withFinalFeed extra)] := by
  have hchunks : chunks old (withFinalFeed old ++ extra)
      = (if old = "" then [] else [Chunk.whole .equal (withFinalFeed old)])
        ++ [Chunk.whole .insert (withFinalFeed extra)] := by
    rw [chunks, withFinalFeed_append _ h, tokenize_append, lines_append, List.foldl_append]
    · split
      · rename_i hempty
        rw [hempty, takeText (withFinalFeed_ne_empty h)]
        · rfl
        · simp [tokenize, linesOf, withFinalFeed]
      · rename_i hold
        rw [takeText (withFinalFeed_ne_empty hold), takeText (withFinalFeed_ne_empty h)]
        · rfl
        · simp [Chunk.whole]
        · simp
    · exact tokenize_ne_nil (withFinalFeed_ne_empty h)
  refine ⟨?_, ?_, hchunks⟩ <;> rw [hchunks] <;> split <;> simp [Chunk.whole]

/-- The appended lines start with the last line of the text, which has no
line feed, and are added behind it. -/
theorem chunks_append_repeated :
    "b\nb" ≠ "" ∧ withFinalFeed "a\nb" ++ "b\nb" = "a\nb\nb\nb" ∧
      chunks "a\nb" "a\nb\nb\nb" = [⟨.equal, "a\nb\n", 2⟩, ⟨.insert, "b\nb\n", 2⟩] := by
  have hextra : "b\nb" ≠ "" := by decide
  have hnew : withFinalFeed "a\nb" ++ "b\nb" = "a\nb\nb\nb" := by decide
  refine ⟨hextra, hnew, ?_⟩
  rw [← hnew]
  exact (chunks_append "a\nb" hextra).2.2.trans (by decide)

end ScriptRefactor.LineDiff
