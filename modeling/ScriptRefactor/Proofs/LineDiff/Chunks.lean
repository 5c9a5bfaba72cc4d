import ScriptRefactor.Proofs.LineDiff.Lines
import ScriptRefactor.Proofs.LineDiff.Script
import Mathlib.Data.List.Chain

/-!
# `ScriptRefactor.Proofs.LineDiff.Chunks`: differences are edit scripts

The chunks between two texts give back both of them, and tell nothing but
what changed (`chunks_faithful`). Each step of the way keeps both texts: the
blocks of a script lead through them (`tiles_script`, `tiles_compact`), so do
the hunks made of them (`Covers`), and chunks are runs of the lines of the
hunks (`Collects`).
-/

set_option autoImplicit false

namespace ScriptRefactor.LineDiff

variable {old new : Array String} {p q : Nat × Nat} {b : Block} {bs : List Block}
  {hs rest : List Hunk}

/-! ### Hunks -/

/-- Where a hunk ends in both texts that starts at the given lines. -/
def Hunk.stop (p : Nat × Nat) : Hunk → Nat × Nat
  | .same _ length => (p.1 + length, p.2 + length)
  | .change _ deleted _ inserted => (p.1 + deleted, p.2 + inserted)

/-- The hunk tells that it starts at the given lines, of the texts of which
it takes lines. -/
def Hunk.Fits (old new : Array String) (p : Nat × Nat) : Hunk → Prop
  | .same o length => o = p.1 ∧ SameFrom old new p.1 p.2 length
  | .change o deleted n inserted => (deleted = 0 ∨ o = p.1) ∧ (inserted = 0 ∨ n = p.2)

/-- The hunks so far, the last one first, lead from the first lines of both
texts to the given ones. -/
def Covers (old new : Array String) : List Hunk → Nat × Nat → Prop
  | [], q => q = (0, 0)
  | h :: hs, q => ∃ p, Covers old new hs p ∧ h.Fits old new p ∧ h.stop p = q

/-- A hunk on top of others. -/
theorem Covers.cons {h : Hunk} (hcovers : Covers old new hs p) (hfits : h.Fits old new p)
    (hstop : h.stop p = q) : Covers old new (h :: hs) q :=
  ⟨p, hcovers, hfits, hstop⟩

/-- Where more lines of a kind start, with those in front of them. -/
theorem start_of_append {start start' position count : Nat} (h : count = 0 ∨ start = position)
    (h' : start' = position + count) : (if count = 0 then start' else start) = position := by
  split <;> omega

/-- A block leads on from the hunks it is taken onto. -/
theorem Covers.take (h : Covers old new hs p) (hb : b.Fits old new p) :
    Covers old new (Hunk.take hs b) (b.stop p) := by
  -- A block goes on with the last hunk if that is of its kind, and else starts one.
  obtain ⟨tag, o, n, length⟩ := b
  cases tag with
  | equal =>
    match hs, h with
    | .same _ _ :: hs, ⟨p', hcovers, hfits, hstop⟩ =>
      subst hstop
      exact hcovers.cons ⟨hfits.1, sameFrom_add.mpr ⟨hfits.2, hb.2⟩⟩
        (Prod.ext (Nat.add_assoc _ _ _).symm (Nat.add_assoc _ _ _).symm)
    | .change _ _ _ _ :: hs, h => exact h.cons hb rfl
    | [], h => exact h.cons hb rfl
  | delete =>
    match hs, h with
    | .same _ _ :: hs, h => exact h.cons ⟨.inr hb, .inl rfl⟩ rfl
    | .change _ _ _ _ :: hs, ⟨p', hcovers, hfits, hstop⟩ =>
      subst hstop
      exact hcovers.cons ⟨.inr (start_of_append hfits.1 hb), hfits.2⟩
        (Prod.ext (Nat.add_assoc _ _ _).symm rfl)
    | [], h => exact h.cons ⟨.inr hb, .inl rfl⟩ rfl
  | insert =>
    match hs, h with
    | .same _ _ :: hs, h => exact h.cons ⟨.inl rfl, .inr hb⟩ rfl
    | .change _ _ _ _ :: hs, ⟨p', hcovers, hfits, hstop⟩ =>
      subst hstop
      exact hcovers.cons ⟨hfits.1, .inr (start_of_append hfits.2 hb)⟩
        (Prod.ext rfl (Nat.add_assoc _ _ _).symm)
    | [], h => exact h.cons ⟨.inl rfl, .inr hb⟩ rfl

/-- Blocks lead on from the hunks they are taken onto. -/
theorem Covers.takeAll (h : Covers old new hs p) (hbs : Tiles old new p bs q) :
    Covers old new (bs.foldl Hunk.take hs) q := by
  induction bs generalizing hs p with
  | nil => exact (show p = q from hbs) ▸ h
  | cons b bs ih => exact ih (h.take hbs.1) hbs.2

/-- The hunks of a comparison lead through both texts. -/
theorem covers_hunks (old new : Array String) :
    Covers old new (hunks old new).reverse (old.size, new.size) := by
  rw [hunks, Hunk.ofBlocks, List.reverse_reverse]
  exact Covers.takeAll (p := (0, 0)) rfl (tiles_compact (tiles_script old new))

/-! ### Lines of hunks -/

/-- The lines that are not of one kind: without the inserted ones those of
the old text, and without the deleted ones those of the new one. -/
def without (tag : Tag) (lines : List (Tag × String)) : List String :=
  (lines.filter (·.1 ≠ tag)).map Prod.snd

@[simp] theorem without_append (tag : Tag) (front back : List (Tag × String)) :
    without tag (front ++ back) = without tag front ++ without tag back := by
  rw [without, List.filter_append, List.map_append]
  rfl

/-- Lines of one kind, without a kind of lines. -/
theorem without_map (tag kind : Tag) (values : List String) :
    without tag (values.map (kind, ·)) = if kind = tag then [] else values := by
  rw [without, List.filter_map, List.map_map]
  by_cases h : kind = tag <;> simp [Function.comp_def, h]

/-- Lines of a text as a part of its list. -/
theorem linesFrom_eq (text : Array String) (i n : Nat) :
    linesFrom text i n = (text.toList.drop i).take n := by
  rw [linesFrom, Array.toList_extract, List.extract_eq_take_drop, Nat.add_sub_cancel_left]

/-- Lines of a text in two parts. -/
theorem linesFrom_add (text : Array String) (i n m : Nat) :
    linesFrom text i (n + m) = linesFrom text i n ++ linesFrom text (i + n) m := by
  rw [linesFrom_eq, linesFrom_eq, linesFrom_eq, List.take_add, List.drop_drop]

/-- Where lines start only tells if there are some. -/
theorem linesFrom_congr {text : Array String} {i j n : Nat} (h : n = 0 ∨ i = j) :
    linesFrom text i n = linesFrom text j n := by
  obtain rfl | rfl := h
  · rw [linesFrom_eq, linesFrom_eq, List.take_zero, List.take_zero]
  · rfl

/-- Equal lines of two texts. -/
theorem SameFrom.linesFrom_eq {i j n : Nat} (h : SameFrom old new i j n) :
    linesFrom old i n = linesFrom new j n := by
  rw [LineDiff.linesFrom_eq, LineDiff.linesFrom_eq]
  refine List.ext_getElem? fun t => ?_
  rw [List.getElem?_take, List.getElem?_take]
  split
  · rename_i ht
    obtain ⟨line, hline, hline'⟩ := h t ht
    rw [List.getElem?_drop, List.getElem?_drop, Array.getElem?_toList, Array.getElem?_toList,
      hline, hline']
  · rfl

/-- The lines of a hunk stand in both texts. -/
theorem Hunk.Fits.lines {h : Hunk} (hfits : h.Fits old new p) :
    linesFrom old 0 p.1 ++ without .insert (h.lines old new) = linesFrom old 0 (h.stop p).1 ∧
    linesFrom new 0 p.2 ++ without .delete (h.lines old new) = linesFrom new 0 (h.stop p).2 := by
  cases h with
  | same o length =>
    obtain ⟨rfl, hsame⟩ := hfits
    simp only [Hunk.lines, Hunk.stop, without_map, linesFrom_add, Nat.zero_add]
    exact ⟨rfl, congrArg _ hsame.linesFrom_eq⟩
  | change o deleted n inserted =>
    obtain ⟨hold, hnew⟩ := hfits
    simp only [Hunk.lines, Hunk.stop, without_append, without_map, linesFrom_add, Nat.zero_add,
      linesFrom_congr hold, linesFrom_congr hnew]
    simp

/-- The lines of hunks that lead through two texts are those of both. -/
theorem Covers.lines (h : Covers old new hs p) :
    without .insert (hs.reverse.flatMap (Hunk.lines old new)) = linesFrom old 0 p.1 ∧
    without .delete (hs.reverse.flatMap (Hunk.lines old new)) = linesFrom new 0 p.2 := by
  induction hs generalizing p with
  | nil =>
    obtain rfl : p = (0, 0) := h
    rw [linesFrom_eq, linesFrom_eq]
    exact ⟨rfl, rfl⟩
  | cons h' hs ih =>
    obtain ⟨p', hcovers, hfits, rfl⟩ := h
    obtain ⟨hold, hnew⟩ := ih hcovers
    obtain ⟨hold', hnew'⟩ := hfits.lines
    simp only [List.reverse_cons, List.flatMap_append, List.flatMap_singleton, without_append]
    exact ⟨hold ▸ hold', hnew ▸ hnew'⟩

/-- **The lines of a comparison are those of both texts.** -/
theorem lines_hunks (old new : Array String) :
    without .insert ((hunks old new).flatMap (Hunk.lines old new)) = old.toList ∧
    without .delete ((hunks old new).flatMap (Hunk.lines old new)) = new.toList := by
  have h := (covers_hunks old new).lines
  rwa [List.reverse_reverse, linesFrom_eq, linesFrom_eq, List.drop_zero, List.drop_zero,
    List.take_of_length_le old.length_toList.le, List.take_of_length_le new.length_toList.le] at h

/-! ### Texts that are equal -/

/-- Shared lines make at most one hunk. -/
theorem takeAll_of_equal (hbs : ∀ b ∈ bs, b.tag = .equal)
    (hhs : hs = [] ∨ ∃ o length, hs = [.same o length]) :
    bs.foldl Hunk.take hs = [] ∨ ∃ o length, bs.foldl Hunk.take hs = [.same o length] := by
  induction bs generalizing hs with
  | nil => exact hhs
  | cons b bs ih =>
      obtain ⟨hb, hbs⟩ := List.forall_mem_cons.mp hbs
      refine ih hbs (.inr ?_)
      obtain ⟨tag, o, n, length⟩ := b
      obtain rfl : tag = .equal := hb
      obtain rfl | ⟨o', length', rfl⟩ := hhs
      · exact ⟨_, _, rfl⟩
      · exact ⟨_, _, rfl⟩

/-- A text has at most one hunk against itself, of shared lines. -/
theorem hunks_self (text : Array String) :
    hunks text text = [] ∨ ∃ o length, hunks text text = [.same o length] := by
  have hequal := script_self text
  rw [hunks, compact_of_equal hequal, Hunk.ofBlocks]
  obtain hnone | ⟨o, length, hone⟩ := takeAll_of_equal hequal (.inl rfl)
  · rw [hnone]
    exact .inl rfl
  · rw [hone]
    exact .inr ⟨o, length, rfl⟩

/-- A text has no changed lines against itself. -/
theorem lines_hunks_self (text : Array String) :
    ∀ line ∈ (hunks text text).flatMap (Hunk.lines text text), line.1 = .equal := by
  intro line hline
  obtain hnone | ⟨o, length, hone⟩ := hunks_self text
  · rw [hnone] at hline
    exact absurd hline List.not_mem_nil
  · rw [hone, List.flatMap_singleton] at hline
    obtain ⟨value, -, rfl⟩ := List.mem_map.mp hline
    rfl

/-! ### Chunks -/

/-- The chunks so far, the last one first, are the runs of some lines. -/
inductive Collects : List Chunk → List (Tag × String) → Prop where
  /-- There are no lines yet. -/
  | nil : Collects [] []
  /-- Some lines of one kind, behind lines of another. -/
  | cons {cs : List Chunk} {lines : List (Tag × String)} {tag : Tag} {values : List String}
    (front : Collects cs lines) (differs : ∀ before ∈ cs.head?, before.tag ≠ tag)
    (holds : values ≠ []) :
    Collects (⟨tag, String.join values, values.length⟩ :: cs) (lines ++ values.map (tag, ·))

variable {cs : List Chunk} {lines : List (Tag × String)}

/-- A line goes on with the last run, or starts one. -/
theorem Collects.take (h : Collects cs lines) (line : Tag × String) :
    Collects (Chunk.take cs line) (lines ++ [line]) := by
  obtain ⟨tag, text⟩ := line
  have hsingle : String.join [text] = text := by
    rw [String.join_cons, String.join_nil, String.append_empty]
  have hstart := @Collects.cons cs lines tag [text] h
  rw [hsingle] at hstart
  cases h with
  | nil => exact hstart (by simp) (by simp)
  | cons hfront hne hvalues =>
    rename_i cs lines tag' values
    rw [Chunk.take]
    split
    · rename_i htag
      obtain rfl : tag' = tag := htag
      have hlonger := hfront.cons hne (List.append_ne_nil_of_left_ne_nil hvalues [text])
      rwa [String.join_append, hsingle, List.length_append, List.map_append, ← List.append_assoc]
        at hlonger
    · rename_i htag
      exact hstart (fun before hbefore => Option.some.inj hbefore ▸ htag) (by simp)

/-- Lines go on with the runs, one after the other. -/
theorem Collects.takeAll {front : List (Tag × String)} (h : Collects cs front)
    (lines : List (Tag × String)) : Collects (lines.foldl Chunk.take cs) (front ++ lines) := by
  induction lines generalizing cs front with
  | nil => rwa [List.append_nil]
  | cons line lines ih =>
    rw [List.append_cons]
    exact ih (h.take line)

/-- The chunks of two texts are the runs of lines that are those of both
texts, all of them shared if the texts are equal. -/
theorem chunks_collects (old new : String) : ∃ lines, Collects (chunks old new).reverse lines ∧
    without .insert lines = (tokenize (withFinalFeed old)).toList ∧
    without .delete lines = (tokenize (withFinalFeed new)).toList ∧
    (withFinalFeed old = withFinalFeed new → ∀ line ∈ lines, line.1 = .equal) := by
  rw [chunks, List.reverse_reverse]
  obtain ⟨hold, hnew⟩ := lines_hunks (tokenize (withFinalFeed old)) (tokenize (withFinalFeed new))
  have hself := lines_hunks_self (tokenize (withFinalFeed new))
  have hruns (lines : List (Tag × String)) : Collects (lines.foldl Chunk.take []) lines :=
    Collects.nil.takeAll lines
  refine ⟨_, hruns _, hold, hnew, fun heq => ?_⟩
  rw [heq]
  exact hself

/-- Without one kind, the values of the chunks make what the lines make. -/
theorem Collects.join (h : Collects cs lines) (tag : Tag) :
    String.join ((cs.reverse.filter (·.tag ≠ tag)).map Chunk.value)
      = String.join (without tag lines) := by
  induction h with
  | nil => rfl
  | cons hfront hne hvalues ih =>
    rename_i kind values
    rw [List.reverse_cons, List.filter_append, List.map_append, String.join_append, ih,
      without_append, String.join_append, without_map]
    by_cases htag : kind = tag <;> simp [htag]

/-- Each chunk follows one of another kind. -/
theorem Collects.isChain (h : Collects cs lines) :
    cs.IsChain fun c before => before.tag ≠ c.tag := by
  induction h with
  | nil => exact List.isChain_nil
  | cons hfront hne hvalues ih => exact List.isChain_cons.mpr ⟨hne, ih⟩

/-- Each chunk is a run of lines that stand together. -/
theorem Collects.of_mem {c : Chunk} (h : Collects cs lines) (hc : c ∈ cs) :
    ∃ values, values ≠ [] ∧ c.value = String.join values ∧ c.count = values.length ∧
      values.map (c.tag, ·) <:+: lines := by
  induction h with
  | nil => exact absurd hc List.not_mem_nil
  | cons hfront hne hvalues ih =>
    rename_i values
    obtain rfl | hc := List.mem_cons.mp hc
    · exact ⟨values, hvalues, rfl, rfl, (List.suffix_append _ _).isInfix⟩
    · obtain ⟨values', hvalues', hvalue', hcount', hpart⟩ := ih hc
      exact ⟨values', hvalues', hvalue', hcount', hpart.trans (List.prefix_append _ _).isInfix⟩

/-- A run of lines stands together in each text that has its kind. -/
theorem part_without {kind tag : Tag} {values : List String} (hne : kind ≠ tag)
    (h : values.map (kind, ·) <:+: lines) : values <:+: without tag lines := by
  have hpart := (h.filter (·.1 ≠ tag)).map Prod.snd
  have hrun := without_map tag kind values
  rw [if_neg hne, without] at hrun
  rwa [hrun] at hpart

/-- A chunk holds lines of one of the texts that stand together. -/
theorem exists_values {old new : String} {c : Chunk} (hc : c ∈ chunks old new) :
    ∃ values, values ≠ [] ∧ c.value = String.join values ∧ c.count = values.length ∧
      ∃ text, (text = old ∨ text = new) ∧ values <:+: (tokenize (withFinalFeed text)).toList := by
  obtain ⟨lines, hruns, hold, hnew, -⟩ := chunks_collects old new
  obtain ⟨values, hne, hvalue, hcount, hpart⟩ := hruns.of_mem (List.mem_reverse.mpr hc)
  refine ⟨values, hne, hvalue, hcount, ?_⟩
  by_cases htag : c.tag = .insert
  · have hkept : c.tag ≠ .delete := by rw [htag]; decide
    exact ⟨new, .inr rfl, hnew ▸ part_without hkept hpart⟩
  · exact ⟨old, .inl rfl, hold ▸ part_without htag hpart⟩

/-- Without the added chunks the values make the old text, and without the
removed ones the new text. -/
theorem join_chunks (old new : String) :
    String.join (((chunks old new).filter (·.tag ≠ .insert)).map Chunk.value)
      = withFinalFeed old ∧
    String.join (((chunks old new).filter (·.tag ≠ .delete)).map Chunk.value)
      = withFinalFeed new := by
  obtain ⟨lines, hruns, hold, hnew, -⟩ := chunks_collects old new
  have hjoin (tag : Tag) := hruns.join tag
  rw [List.reverse_reverse] at hjoin
  rw [hjoin, hjoin, hold, hnew, join_tokenize, join_tokenize]
  exact ⟨rfl, rfl⟩

/-- **Chunks are an edit script.** Without the added ones they make the old
text, and without the removed ones the new one, each with a line feed at its
end. Chunks next to each other differ in kind, each counts its lines, and
there are only unchanged ones just if the texts are equal but for that line
feed. -/
theorem chunks_faithful (old new : String) :
    String.join (((chunks old new).filter (·.tag ≠ .insert)).map Chunk.value)
      = withFinalFeed old ∧
    String.join (((chunks old new).filter (·.tag ≠ .delete)).map Chunk.value)
      = withFinalFeed new ∧
    (chunks old new).IsChain (fun c next => c.tag ≠ next.tag) ∧
    (∀ c ∈ chunks old new, c.count = lineEnds c.value.toList) ∧
    ((∀ c ∈ chunks old new, c.tag = .equal) ↔ withFinalFeed old = withFinalFeed new) := by
  obtain ⟨lines, hruns, -, -, hself⟩ := chunks_collects old new
  obtain ⟨hjoinOld, hjoinNew⟩ := join_chunks old new
  refine ⟨hjoinOld, hjoinNew, List.isChain_reverse.mp hruns.isChain, fun c hc => ?_,
    fun hequal => ?_, fun heq c hc => ?_⟩
  · -- The lines of a chunk stand together in one of the texts, so it counts their ends.
    obtain ⟨values, -, hvalue, hcount, text, -, hpart⟩ := exists_values hc
    rw [hcount, hvalue]
    exact length_of_part_tokenize hpart
  · -- With only unchanged chunks, both texts are made of all of them.
    have hall (tag : Tag) (htag : tag ≠ .equal) :
        (chunks old new).filter (·.tag ≠ tag) = chunks old new :=
      List.filter_eq_self.mpr fun c hc => decide_eq_true (hequal c hc ▸ htag.symm)
    rw [hall _ (by decide)] at hjoinOld hjoinNew
    exact hjoinOld.symm.trans hjoinNew
  · obtain ⟨values, hvalues, -, -, hpart⟩ := hruns.of_mem (List.mem_reverse.mpr hc)
    obtain ⟨value, hvalue⟩ := List.exists_mem_of_ne_nil values hvalues
    exact hself heq _ (hpart.subset (List.mem_map_of_mem hvalue))

end ScriptRefactor.LineDiff
