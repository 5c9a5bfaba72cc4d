import ScriptRefactor.Grammar.Reader
import ScriptRefactor.Proofs.Text.Cut

/-!
# `ScriptRefactor.Proofs.Grammar.Gaps`: what stands between two tokens

Between two tokens there may be white space and comments in any order
(`IsGap`). A comment up to the end of its line is only a part of a gap
together with that end, for otherwise it hides the next token. The reader
passes a gap as a whole (`Reader.skip_gap`), and all it ever passes in front
of a token is a gap (`Reader.skip_rest_eq_iff`).

The induction is on the gap. White space is passed in one go, so a blank is
taken to the front of the remaining gap (`Reader.passBetween_congr`); each
comment costs one unit of the fuel, which there is enough of, since a gap has
no more comments than characters.
-/

set_option autoImplicit false

namespace ScriptRefactor.Grammar

open Syntax

variable {gap cs text after : List Char} {c : Char}

/-- White space and comments, as they may stand between two tokens. -/
inductive IsGap : List Char → Prop
  /-- Nothing. -/
  | nil : IsGap []
  /-- White space. -/
  | blank {c : Char} {gap : List Char} (hc : isBlank c = true) (h : IsGap gap) : IsGap (c :: gap)
  /-- A comment between its marks. -/
  | block {text gap : List Char} (htext : blockComment? text = some (text, [])) (h : IsGap gap) :
    IsGap ('/' :: '*' :: (text ++ gap))
  /-- A comment up to the end of its line. -/
  | line {text gap : List Char} {c : Char} (htext : ∀ d ∈ text, isLineEnd d = false)
    (hc : isLineEnd c = true) (h : IsGap gap) : IsGap ('/' :: '/' :: (text ++ c :: gap))

namespace IsGap

/-- White space is a gap. -/
theorem of_blank (h : ∀ c ∈ gap, isBlank c = true) : IsGap gap := by
  induction gap with
  | nil => exact .nil
  | cons c gap ih =>
      obtain ⟨hc, hgap⟩ := List.forall_mem_cons.mp h
      exact .blank hc (ih hgap)

/-- Two gaps in a row are one. -/
theorem append {other : List Char} (h : IsGap gap) (hother : IsGap other) :
    IsGap (gap ++ other) := by
  induction h with
  | nil => exact hother
  | blank hc _ ih => exact .blank hc ih
  | block htext _ ih => simpa using IsGap.block htext ih
  | line htext hc _ ih => simpa using IsGap.line htext hc ih

end IsGap

/-- The end of a line is white space. -/
theorem isBlank_of_isLineEnd (h : isLineEnd c = true) : isBlank c = true := by
  simp only [isLineEnd, Bool.or_eq_true, decide_eq_true_eq] at h
  rcases h with ((rfl | rfl) | rfl) | rfl <;> rfl

/-- A token that is no comment comes next. -/
structure AtToken (cs : List Char) : Prop where
  /-- No white space comes first. -/
  not_blank : ∀ c ∈ cs.head?, isBlank c = false
  /-- Nor does a comment. -/
  no_comment : comment? cs = none

/-- A character that is neither white space nor a slash starts a token. -/
theorem AtToken.cons (hblank : isBlank c = false) (hslash : c ≠ '/') (cs : List Char) :
    AtToken (c :: cs) where
  not_blank := by
    rintro d hd
    obtain rfl : c = d := by simpa using hd
    exact hblank
  no_comment := by simp [comment?, hslash]

/-! ### Comments -/

/-- A comment ends at its first closing mark, whatever follows. -/
theorem blockComment?_append (h : blockComment? cs = some (text, after)) (more : List Char) :
    blockComment? (cs ++ more) = some (text, after ++ more) := by
  fun_induction blockComment? cs generalizing text after with
  | case1 rest =>
      cases h
      rfl
  | case2 c rest hnot ih =>
      obtain ⟨⟨text', after'⟩, hrest, heq⟩ := Option.map_eq_some_iff.mp h
      cases heq
      have hstart : ∀ more', c = '*' → rest ++ more ≠ '/' :: more' := by
        intro more' hc hrest'
        cases rest with
        | nil => cases hrest
        | cons d rest =>
            obtain ⟨rfl, -⟩ := List.cons.inj hrest'
            exact hnot _ hc rfl
      rw [List.cons_append, blockComment?, ih hrest]
      · rfl
      · exact hstart
  | case3 => cases h

/-- It is a part of the text, and would end there without what follows. -/
theorem of_blockComment? (h : blockComment? cs = some (text, after)) :
    cs = text ++ after ∧ blockComment? text = some (text, []) := by
  fun_induction blockComment? cs generalizing text after with
  | case1 rest =>
      cases h
      exact ⟨rfl, rfl⟩
  | case2 c rest hnot ih =>
      obtain ⟨⟨text', after'⟩, hrest, heq⟩ := Option.map_eq_some_iff.mp h
      cases heq
      obtain ⟨rfl, htext⟩ := ih hrest
      have hstart : ∀ more, c = '*' → text' ≠ '/' :: more := by
        rintro more hc rfl
        exact hnot _ hc rfl
      refine ⟨rfl, ?_⟩
      rw [blockComment?, htext]
      · rfl
      · exact hstart
  | case3 => cases h

/-- A comment up to the end of its line is passed up to there. -/
theorem comment?_line (htext : ∀ d ∈ text, isLineEnd d = false) (hc : isLineEnd c = true)
    (more : List Char) :
    comment? ('/' :: '/' :: (text ++ c :: more)) = some ('/' :: '/' :: text, c :: more) := by
  have hpos : ∀ d ∈ text, (!isLineEnd d) = true := fun d hd => by rw [htext d hd]; rfl
  have hneg : ¬ (!isLineEnd c) = true := by rw [hc]; decide
  rw [comment?, List.takeWhile_append_of_pos hpos, List.dropWhile_append_of_pos hpos,
    List.takeWhile_cons_of_neg (p := (!isLineEnd ·)) hneg,
    List.dropWhile_cons_of_neg (p := (!isLineEnd ·)) hneg, List.append_nil]

/-- A comment with the gap behind it is a gap in front of a token. -/
theorem IsGap.comment {tail : List Char} (hgap : IsGap gap) (hc : isBlank c = false)
    (h : comment? cs = some (text, gap ++ c :: tail)) :
    IsGap (text ++ gap) ∧ cs = text ++ gap ++ c :: tail := by
  unfold comment? at h
  split at h
  · -- Behind a comment of a line stands the end of the line.
    rename_i rest
    obtain ⟨rfl, hafter⟩ := Prod.mk.inj (Option.some.inj h)
    have hsplit := List.takeWhile_append_dropWhile (p := (!isLineEnd ·)) (l := rest)
    have hhead := List.head?_dropWhile_not (!isLineEnd ·) rest
    rw [hafter] at hsplit hhead
    have htext : ∀ d ∈ rest.takeWhile (!isLineEnd ·), isLineEnd d = false := fun d hd => by
      simpa using List.all_eq_true.mp List.all_takeWhile d hd
    refine ⟨?_, by simpa using hsplit.symm⟩
    cases hgap with
    | nil =>
        have hend : isLineEnd c = true := by simpa using hhead
        rw [isBlank_of_isLineEnd hend] at hc
        cases hc
    | blank hd hgap => exact .line htext (by simpa using hhead) hgap
    | block | line =>
        have hend : isLineEnd '/' = true := by simpa using hhead
        cases hend
  · obtain ⟨⟨text, after⟩, hblock, heq⟩ := Option.map_eq_some_iff.mp h
    cases heq
    obtain ⟨rfl, htext⟩ := of_blockComment? hblock
    exact ⟨.block htext hgap, by simp⟩
  · cases h

/-! ### The reader -/

namespace Reader

variable {r r' : Reader} {pos fuel : Nat} {comments : List Node}

/-- What is passed depends on what stands behind the white space. -/
theorem passBetween_congr (h : r.passBlanks = r'.passBlanks) (fuel : Nat) :
    r.passBetween fuel = r'.passBetween fuel := by
  cases fuel with
  | zero => exact h
  | succ fuel => rw [passBetween, passBetween, h]

/-- White space is passed at no cost. -/
theorem passBetween_blank (hc : isBlank c = true) (fuel : Nat) :
    (⟨c :: cs, pos, comments⟩ : Reader).passBetween fuel
      = (⟨cs, pos + c.utf8Size, comments⟩ : Reader).passBetween fuel := by
  refine passBetween_congr ?_ fuel
  rw [passBlanks, passBlanks, List.dropWhile_cons_of_pos hc, List.takeWhile_cons_of_pos hc,
    Text.byteSize_cons, Nat.add_assoc]

/-- A comment in front of the reader is passed and kept. -/
theorem passBetween_comment (h : comment? ('/' :: cs) = some (text, after)) (fuel : Nat) :
    (⟨'/' :: cs, pos, comments⟩ : Reader).passBetween (fuel + 1)
      = (⟨after, pos + Text.byteSize text,
          Node.leaf (.construct .comment) pos (String.ofList text) :: comments⟩
        : Reader).passBetween fuel := by
  have hblanks : (⟨'/' :: cs, pos, comments⟩ : Reader).passBlanks = ⟨'/' :: cs, pos, comments⟩ :=
    rfl
  rw [passBetween, hblanks, passComment?, h]
  rfl

/-- Nothing is passed in front of a token. -/
theorem passBetween_of_atToken (h : AtToken cs) (fuel : Nat) :
    (⟨cs, pos, comments⟩ : Reader).passBetween fuel = ⟨cs, pos, comments⟩ := by
  have hblanks : (⟨cs, pos, comments⟩ : Reader).passBlanks = ⟨cs, pos, comments⟩ := by
    cases cs with
    | nil => rfl
    | cons c cs =>
        have hc : ¬ isBlank c = true := by simp [h.not_blank c rfl]
        rw [passBlanks, List.dropWhile_cons_of_neg hc, List.takeWhile_cons_of_neg hc]
        rfl
  cases fuel with
  | zero => rw [passBetween, hblanks]
  | succ fuel =>
      have hcomment : (⟨cs, pos, comments⟩ : Reader).passComment? = none := by
        rw [passComment?, h.no_comment]
        rfl
      rw [passBetween, hblanks, hcomment]

/-- With enough fuel a gap is passed up to the token behind it. -/
theorem passBetween_gap (hgap : IsGap gap) (hcs : AtToken cs) (hfuel : gap.length ≤ fuel) :
    ∃ passed, (⟨gap ++ cs, pos, comments⟩ : Reader).passBetween fuel
      = ⟨cs, pos + Text.byteSize gap, passed⟩ := by
  induction hgap generalizing pos comments fuel with
  | nil => exact ⟨comments, passBetween_of_atToken hcs fuel⟩
  -- A blank takes no fuel.
  | @blank c gap hc _ ih =>
      obtain ⟨passed, hpassed⟩ := @ih (pos + c.utf8Size) fuel comments (Nat.le_of_succ_le hfuel)
      exact ⟨passed, by rw [List.cons_append, passBetween_blank hc, hpassed, Text.byteSize_cons,
        Nat.add_assoc]⟩
  | @block text gap htext _ ih =>
      obtain ⟨fuel, rfl⟩ : ∃ n, fuel = n + 1 := ⟨fuel - 1, by simp at hfuel; omega⟩
      -- A comment takes one turn of the fuel.
      have hcomment : comment? ('/' :: '*' :: (text ++ (gap ++ cs)))
          = some ('/' :: '*' :: text, gap ++ cs) := by
        rw [comment?, blockComment?_append htext]
        rfl
      obtain ⟨passed, hpassed⟩ := @ih (pos + Text.byteSize ('/' :: '*' :: text)) fuel
        (Node.leaf (.construct .comment) pos (String.ofList ('/' :: '*' :: text)) :: comments)
        (by simp at hfuel; omega)
      refine ⟨passed, ?_⟩
      rw [List.cons_append, List.cons_append, List.append_assoc, passBetween_comment hcomment,
        hpassed, ← List.cons_append, ← List.cons_append, Text.byteSize_append, Nat.add_assoc]
  | @line text gap c htext hc _ ih =>
      obtain ⟨fuel, rfl⟩ : ∃ n, fuel = n + 1 := ⟨fuel - 1, by simp at hfuel; omega⟩
      obtain ⟨passed, hpassed⟩ := @ih (pos + Text.byteSize ('/' :: '/' :: text) + c.utf8Size) fuel
        (Node.leaf (.construct .comment) pos (String.ofList ('/' :: '/' :: text)) :: comments)
        (by simp at hfuel; omega)
      refine ⟨passed, ?_⟩
      rw [List.cons_append, List.cons_append, List.append_assoc, List.cons_append,
        passBetween_comment (comment?_line htext hc _), passBetween_blank
        (isBlank_of_isLineEnd hc), hpassed, ← List.cons_append, ← List.cons_append,
        Text.byteSize_append, Text.byteSize_cons c]
      simp only [Nat.add_assoc]

/-- The reader passes a gap up to the token behind it. -/
theorem skip_gap (hgap : IsGap gap) (hcs : AtToken cs) (pos : Nat) (comments : List Node) :
    ∃ passed, (⟨gap ++ cs, pos, comments⟩ : Reader).skip
      = ⟨cs, pos + Text.byteSize gap, passed⟩ := by
  refine passBetween_gap hgap hcs ?_
  rw [List.length_append]
  exact Nat.le_add_right ..

/-- The white space that is passed at no cost is a gap, and none is left. -/
theorem exists_gap_of_passBlanks (r : Reader) :
    ∃ gap, IsGap gap ∧ r.rest = gap ++ r.passBlanks.rest ∧
      ∀ c ∈ r.passBlanks.rest.head?, isBlank c = false := by
  refine ⟨r.rest.takeWhile isBlank,
    .of_blank fun c hc => List.all_eq_true.mp List.all_takeWhile c hc,
    List.takeWhile_append_dropWhile.symm, fun c hc => ?_⟩
  have hhead := List.head?_dropWhile_not isBlank r.rest
  rw [show (r.rest.dropWhile isBlank).head? = some c from hc] at hhead
  simpa using hhead

/-- All that is passed in front of some text is a gap. -/
theorem exists_gap_of_passBetween (h : (r.passBetween fuel).rest = c :: cs) :
    isBlank c = false ∧ ∃ gap, IsGap gap ∧ r.rest = gap ++ c :: cs := by
  induction fuel generalizing r with
  | zero =>
      obtain ⟨gap, hgap, hrest, hblank⟩ := exists_gap_of_passBlanks r
      rw [show r.passBlanks.rest = c :: cs from h] at hrest hblank
      exact ⟨hblank c rfl, gap, hgap, hrest⟩
  | succ fuel ih =>
      obtain ⟨front, hfront, hrest, hblank⟩ := exists_gap_of_passBlanks r
      rw [passBetween] at h
      split at h
      · -- A comment was passed, and what follows it is passed by the others.
        rename_i r' hr'
        obtain ⟨⟨text, after⟩, hcomment, rfl⟩ := Option.map_eq_some_iff.mp hr'
        obtain ⟨hc, gap, hgap, hafter⟩ := ih h
        obtain rfl : after = gap ++ c :: cs := hafter
        obtain ⟨htext, hsplit⟩ := hgap.comment hc hcomment
        exact ⟨hc, _, hfront.append htext, by rw [hrest, hsplit, ← List.append_assoc]⟩
      · rw [h] at hrest hblank
        exact ⟨hblank c rfl, front, hfront, hrest⟩

/-- In front of a token the reader passes gaps, and nothing else. -/
theorem skip_rest_eq_iff (h : AtToken (c :: cs)) :
    r.skip.rest = c :: cs ↔ ∃ gap, IsGap gap ∧ r.rest = gap ++ c :: cs := by
  constructor
  · exact fun hskip => (exists_gap_of_passBetween hskip).2
  · rintro ⟨gap, hgap, hrest⟩
    obtain ⟨rest, pos, comments⟩ := r
    obtain rfl : rest = gap ++ c :: cs := hrest
    obtain ⟨passed, hskip⟩ := skip_gap hgap h pos comments
    rw [hskip]

end Reader

end ScriptRefactor.Grammar
