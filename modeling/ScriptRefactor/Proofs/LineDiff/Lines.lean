import ScriptRefactor.LineDiff.Hunk

/-!
# `ScriptRefactor.Proofs.LineDiff.Lines`: lines and their ends

The lines of a text put together are the text (`flatten_linesOf`), and any
of them that stand together are the lines of what they make
(`linesOf_part`): a cut between two lines never parts a carriage return
from its line feed. A text that ends with a line feed has as many lines as
line ends (`length_linesOf`).
-/

set_option autoImplicit false

namespace ScriptRefactor.LineDiff

variable {cs line : List Char} {front lines back : List (List Char)}

/-! ### One line after another -/

/-- Only the empty text has no lines. -/
theorem linesOf_eq_nil (h : linesOf cs = []) : cs = [] := by
  fun_cases linesOf cs <;> simp_all [linesOf]

/-- A line ends behind a character that ends one, unless that is a carriage
return in front of a line feed. -/
theorem linesOf_end {c : Char} (hpair : ∀ rest, c = '\r' → cs = '\n' :: rest → False)
    (hend : c = '\n' ∨ c = '\r') : linesOf (c :: cs) = [c] :: linesOf cs := by
  rw [linesOf, if_pos hend]
  exact hpair

/-- Any other character goes in front of the first line. -/
theorem linesOf_char {c : Char} (hend : ¬ (c = '\n' ∨ c = '\r'))
    (hlines : linesOf cs = line :: lines) : linesOf (c :: cs) = (c :: line) :: lines := by
  rw [linesOf, if_neg hend, hlines]
  exact fun rest hc _ => hend (.inr hc)

/-- A first line ends where the next one starts. -/
theorem linesOf_eq_cons (h : linesOf cs = line :: lines) :
    ∃ rest, cs = line ++ rest ∧ linesOf rest = lines := by
  fun_induction linesOf cs generalizing line lines with
  | case1 => cases h
  | case2 cs ih =>
      cases h
      exact ⟨cs, rfl, rfl⟩
  | case3 c cs hpair hend ih =>
      cases h
      exact ⟨cs, rfl, rfl⟩
  | case4 c cs hpair hend line' lines' hlines ih =>
      cases h
      obtain ⟨rest, rfl, hrest⟩ := ih hlines
      exact ⟨rest, rfl, hrest⟩
  | case5 c cs hpair hend hlines ih =>
      cases h
      exact ⟨[], by rw [linesOf_eq_nil hlines, List.append_nil], rfl⟩

/-- The lines of a text put together are the text. -/
theorem flatten_linesOf (cs : List Char) : (linesOf cs).flatten = cs := by
  fun_induction linesOf cs with
  | case1 => rfl
  | case2 cs ih => rw [List.flatten_cons, ih]; rfl
  | case3 c cs hpair hend ih => rw [List.flatten_cons, ih]; rfl
  | case4 c cs hpair hend line lines hlines ih =>
      rw [hlines] at ih
      rw [List.flatten_cons, List.cons_append, ← List.flatten_cons, ih]
  | case5 c cs hpair hend hlines ih => rw [linesOf_eq_nil hlines]; rfl

/-! ### Lines that stand together -/

/-- The lines behind some others are the lines of what they make. -/
theorem linesOf_back (h : linesOf cs = front ++ back) : linesOf back.flatten = back := by
  induction front generalizing cs with
  | nil =>
      rw [List.nil_append] at h
      rw [← h, flatten_linesOf]
  | cons line front ih =>
      obtain ⟨rest, -, hrest⟩ := linesOf_eq_cons h
      exact ih hrest

/-- The lines in front of some others are the lines of what they make. -/
theorem linesOf_front (h : linesOf cs = front ++ back) : linesOf front.flatten = front := by
  fun_induction linesOf cs generalizing front with
  | case1 =>
      rw [(List.append_eq_nil_iff.mp h.symm).1]
      rfl
  | case2 cs ih =>
      obtain ⟨rfl, -⟩ | ⟨front, rfl, hlines⟩ := List.cons_eq_append_iff.mp h
      · rfl
      · exact congrArg _ (ih hlines)
  | case3 c cs hpair hend ih =>
      obtain ⟨rfl, -⟩ | ⟨front, rfl, hlines⟩ := List.cons_eq_append_iff.mp h
      · rfl
      · -- A carriage return is cut from no line feed: the cut is behind the whole first line.
        have hcs : cs = front.flatten ++ back.flatten := by
          rw [← List.flatten_append, ← hlines, flatten_linesOf]
        refine (linesOf_end (fun rest hc hrest => ?_) hend).trans (congrArg _ (ih hlines))
        have hrest : front.flatten = '\n' :: rest := hrest
        exact hpair (rest ++ back.flatten) hc (by rw [hcs, hrest]; rfl)
  | case4 c cs hpair hend line lines hlines ih =>
      obtain ⟨rfl, -⟩ | ⟨front, rfl, hrest⟩ := List.cons_eq_append_iff.mp h
      · rfl
      · have hfront : linesOf cs = (line :: front) ++ back := by rw [hlines, hrest]; rfl
        exact linesOf_char hend (ih hfront)
  | case5 c cs hpair hend hlines ih =>
      obtain ⟨rfl, -⟩ | ⟨front, rfl, hrest⟩ := List.cons_eq_append_iff.mp h
      · rfl
      · rw [(List.append_eq_nil_iff.mp hrest.symm).1]
        simp [linesOf, hend]

/-- **Lines of a text that stand together are the lines of what they make.** -/
theorem linesOf_part (h : lines <:+: linesOf cs) : linesOf lines.flatten = lines := by
  obtain ⟨front, back, h⟩ := h
  exact linesOf_back (linesOf_front h.symm)

/-- No line is empty: such a line would not be one of its own. -/
theorem linesOf_ne_nil (h : line ∈ linesOf cs) : line ≠ [] := by
  rintro rfl
  obtain ⟨front, back, hlines⟩ := List.append_of_mem h
  have hfirst : linesOf ([] :: back).flatten = [[]] ++ back := linesOf_back hlines
  cases linesOf_front hfirst

/-! ### Line ends -/

/-- The number of line ends in a text: line feeds, carriage returns, and
both together. -/
def lineEnds : List Char → Nat
  | [] => 0
  | '\r' :: '\n' :: cs => lineEnds cs + 1
  | c :: cs => if c = '\n' ∨ c = '\r' then lineEnds cs + 1 else lineEnds cs

/-- The last character of the text, if there is one, ends a line. -/
def Ended (cs : List Char) : Prop := ∀ c, cs.getLast? = some c → c = '\n' ∨ c = '\r'

/-- An ended text is one behind its first character, too. -/
theorem Ended.tail {c : Char} (h : Ended (c :: cs)) : Ended cs := by
  intro last hlast
  refine h last ?_
  rw [List.getLast?_cons, hlast]
  rfl

/-- If a text is ended, each line of it is. -/
theorem Ended.of_mem_linesOf (h : Ended cs) (hline : line ∈ linesOf cs) : Ended line := by
  fun_induction linesOf cs generalizing line with
  | case1 => exact absurd hline List.not_mem_nil
  | case2 cs ih =>
      obtain rfl | hline := List.mem_cons.mp hline
      · exact fun last hlast => .inl (Option.some.inj hlast).symm
      · exact ih h.tail.tail hline
  | case3 c cs hpair hend ih =>
      obtain rfl | hline := List.mem_cons.mp hline
      · exact fun last hlast => Option.some.inj hlast ▸ hend
      · exact ih h.tail hline
  | case4 c cs hpair hend first lines hlines ih =>
      obtain rfl | hline := List.mem_cons.mp hline
      · intro last hlast
        rw [List.getLast?_cons] at hlast
        cases hfirst : first.getLast? with
        | some d =>
            rw [hfirst] at hlast
            exact ih h.tail (hlines ▸ List.mem_cons_self) last (hfirst.trans hlast)
        | none =>
            exact absurd (List.getLast?_eq_none_iff.mp hfirst)
              (linesOf_ne_nil (hlines ▸ List.mem_cons_self))
      · exact ih h.tail (hlines ▸ List.mem_cons_of_mem first hline)
  -- A text that stops inside a line is not ended.
  | case5 c cs hpair hend hlines ih =>
      rw [linesOf_eq_nil hlines] at h
      exact absurd (h c rfl) hend

/-- An ended text has as many lines as line ends. -/
theorem length_linesOf (h : Ended cs) : (linesOf cs).length = lineEnds cs := by
  fun_induction linesOf cs with
  | case1 => rfl
  | case2 cs ih => rw [List.length_cons, ih h.tail.tail, lineEnds]
  | case3 c cs hpair hend ih =>
      rw [List.length_cons, ih h.tail, lineEnds, if_pos hend]
      exact hpair
  | case4 c cs hpair hend first lines hlines ih =>
      rw [lineEnds, if_neg hend, ← ih h.tail, hlines]
      · rfl
      · exact hpair
  | case5 c cs hpair hend hlines ih =>
      rw [linesOf_eq_nil hlines] at h
      exact absurd (h c rfl) hend

/-- So are lines of it that stand together. -/
theorem Ended.of_part (h : Ended cs) (hlines : lines <:+: linesOf cs) : Ended lines.flatten := by
  intro c hc
  rw [List.getLast?_flatten] at hc
  obtain ⟨line, hline, hc⟩ := List.exists_of_findSome?_eq_some hc
  exact h.of_mem_linesOf (hlines.subset (List.mem_reverse.mp hline)) c hc

/-- Lines of an ended text that stand together are as many as the line ends
in what they make. -/
theorem length_of_part (h : Ended cs) (hlines : lines <:+: linesOf cs) :
    lines.length = lineEnds lines.flatten := by
  rw [← length_linesOf (h.of_part hlines), linesOf_part hlines]

/-! ### Completed texts -/

/-- The last character of the text, if there is one, is a line feed. -/
def Fed (cs : List Char) : Prop := ∀ c, cs.getLast? = some c → c = '\n'

/-- A fed text is one behind its first character, too. -/
theorem Fed.tail {c : Char} (h : Fed (c :: cs)) : Fed cs := by
  intro last hlast
  refine h last ?_
  rw [List.getLast?_cons, hlast]
  rfl

/-- The lines of a fed text stay when another text is put behind it. -/
theorem linesOf_append (h : Fed cs) (ds : List Char) :
    linesOf (cs ++ ds) = linesOf cs ++ linesOf ds := by
  fun_induction linesOf cs with
  | case1 => rfl
  | case2 cs ih =>
      rw [List.cons_append, List.cons_append, linesOf, ih h.tail.tail]
      rfl
  | case3 c cs hpair hend ih =>
      rw [List.cons_append, linesOf_end (fun rest hc hrest => ?_) hend, ih h.tail]
      · rfl
      · cases cs with
        | nil =>
            -- The last character of the text is no carriage return.
            have hfeed := h c rfl
            rw [hc] at hfeed
            cases hfeed
        | cons d cs =>
            obtain rfl : d = '\n' := (List.cons.inj hrest).1
            exact hpair cs hc rfl
  | case4 c cs hpair hend line lines hlines ih =>
      have hrest := ih h.tail
      rw [hlines] at hrest
      exact linesOf_char hend hrest
  | case5 c cs hpair hend hlines ih =>
      rw [linesOf_eq_nil hlines] at h
      exact absurd (.inl (h c rfl)) hend

/-- A text ends with a character if that is its last one. -/
theorem endsWith_singleton {c : Char} : Text.endsWith [c] cs = true ↔ cs.getLast? = some c := by
  rw [Text.endsWith, Text.startsWith, List.getLast?_eq_head?_reverse]
  cases cs.reverse with
  | nil => simp [Text.afterPrefix?]
  | cons d ds =>
    by_cases hcd : c = d <;> simp [Text.afterPrefix?, hcd, eq_comm]

/-- A text is completed if it is not empty and does not end with a line
feed. -/
theorem withFinalFeed_eq (text : String) : withFinalFeed text
    = if text = "" ∨ text.toList.getLast? = some '\n' then text else text ++ "\n" := by
  rw [withFinalFeed]
  simp only [Bool.or_eq_true, String.isEmpty_iff, endsWith_singleton]

/-- A completed text is fed. -/
theorem fed_withFinalFeed (text : String) : Fed (withFinalFeed text).toList := by
  intro c hc
  rw [withFinalFeed_eq] at hc
  split at hc
  · rename_i h
    obtain rfl | h := h
    · cases hc
    · exact Option.some.inj (hc.symm.trans h)
  · rw [String.toList_append, List.getLast?_append] at hc
    exact (Option.some.inj hc).symm

/-- A completed text is ended. -/
theorem ended_withFinalFeed (text : String) : Ended (withFinalFeed text).toList :=
  fun c hc => .inl (fed_withFinalFeed text c hc)

/-- The lines of a text as lists of characters. -/
theorem toList_tokenize (text : String) :
    (tokenize text).toList.map String.toList = linesOf text.toList := by
  rw [tokenize, List.map_map]
  simp only [Function.comp_def, String.toList_ofList, List.map_id']

/-- The lines of a text put together are the text, as strings. -/
theorem join_tokenize (text : String) : String.join (tokenize text).toList = text := by
  rw [← String.toList_inj, String.toList_join, List.flatMap_def, toList_tokenize, flatten_linesOf]

/-- Lines of a completed text that stand together are as many as the line
ends in what they make. -/
theorem length_of_part_tokenize {text : String} {values : List String}
    (h : values <:+: (tokenize (withFinalFeed text)).toList) :
    values.length = lineEnds (String.join values).toList := by
  have hmap := h.map String.toList
  rw [toList_tokenize] at hmap
  have hlength := length_of_part (ended_withFinalFeed text) hmap
  rwa [List.length_map, ← List.flatMap_def, ← String.toList_join] at hlength

/-! ### Lines behind a text -/

/-- To complete a text that goes on behind another one is to complete what
goes on. -/
theorem withFinalFeed_append (text : String) {extra : String} (h : extra ≠ "") :
    withFinalFeed (text ++ extra) = text ++ withFinalFeed extra := by
  have hne : extra.toList ≠ [] := fun hnil => h (String.toList_eq_nil_iff.mp hnil)
  have hlast : (text ++ extra).toList.getLast? = extra.toList.getLast? := by
    rw [String.toList_append, List.getLast?_append, List.getLast?_eq_some_getLast hne,
      Option.some_or]
  have hempty : text ++ extra ≠ "" := fun hempty => h (String.append_eq_empty_iff.mp hempty).2
  rw [withFinalFeed_eq, withFinalFeed_eq, hlast]
  simp only [h, hempty, false_or]
  split
  · rfl
  · rw [String.append_assoc]

/-- A text that is not empty does not become so. -/
theorem withFinalFeed_ne_empty {text : String} (h : text ≠ "") : withFinalFeed text ≠ "" := by
  rw [withFinalFeed_eq]
  split
  · exact h
  · exact fun hempty => h (String.append_eq_empty_iff.mp hempty).1

/-- A text that is not empty has lines. -/
theorem tokenize_ne_nil {text : String} (h : text ≠ "") : (tokenize text).toList ≠ [] := by
  intro hnil
  have hjoin := join_tokenize text
  rw [hnil] at hjoin
  exact h hjoin.symm

/-- The lines of a completed text with another one behind it. -/
theorem tokenize_append (old extra : String) :
    tokenize (withFinalFeed old ++ extra) = tokenize (withFinalFeed old) ++ tokenize extra := by
  rw [tokenize, String.toList_append, linesOf_append (fed_withFinalFeed old), List.map_append,
    tokenize, tokenize, List.append_toArray]

end ScriptRefactor.LineDiff
