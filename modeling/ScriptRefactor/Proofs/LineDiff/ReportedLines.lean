import ScriptRefactor.Proofs.LineDiff.Chunks
import ScriptRefactor.Proofs.Text.Pieces

/-!
# `ScriptRefactor.Proofs.LineDiff.ReportedLines`: what a report shows of a chunk

A difference compares lines that end with a line feed, a carriage return or
both. A report only knows line feeds. The two agree on a chunk just if every
carriage return in it has a line feed behind it: then the chunk ends with a
line feed, and the report shows each of its lines that is not empty
(`chunks_report_lines_iff`). A carriage return that stands alone joins its
line to the next one in a report (`filledPieces_add_loneReturns`), and a
chunk may end with it (`chunk_ends_with_return`).
-/

set_option autoImplicit false

namespace ScriptRefactor.LineDiff

open Text (splitOn splitOn_ne_nil not_mem_of_mem_splitOn)

variable {cs : List Char}

/-! ### Carriage returns that stand alone -/

/-- The number of carriage returns without a line feed behind them. -/
def loneReturns : List Char → Nat
  | [] => 0
  | '\r' :: '\n' :: cs => loneReturns cs
  | c :: cs => if c = '\r' then loneReturns cs + 1 else loneReturns cs

/-- A character that is not followed by its line feed counts if it is a
carriage return. -/
theorem loneReturns_cons {c : Char} (hpair : ∀ rest, c = '\r' → cs = '\n' :: rest → False) :
    loneReturns (c :: cs) = if c = '\r' then loneReturns cs + 1 else loneReturns cs := by
  rw [loneReturns]
  exact hpair

/-- No carriage return stands alone just if no line ends with one. -/
theorem loneReturns_eq_zero_iff :
    loneReturns cs = 0 ↔ ∀ line ∈ linesOf cs, line.getLast? ≠ some '\r' := by
  fun_induction linesOf cs with
  | case1 => simp [loneReturns]
  | case2 cs ih => simp [loneReturns, ih]
  | case3 c cs hpair hend ih =>
      rw [loneReturns_cons hpair, List.forall_mem_cons, ← ih]
      by_cases hc : c = '\r' <;> simp [hc]
  | case4 c cs hpair hend line lines hlines ih =>
      have hc : c ≠ '\r' := fun hc => hend (.inr hc)
      rw [loneReturns_cons hpair, if_neg hc, ih, hlines, List.forall_mem_cons, List.forall_mem_cons,
        List.getLast?_cons]
      cases line.getLast? <;> simp [hc]
  | case5 c cs hpair hend hlines ih =>
      have hc : c ≠ '\r' := fun hc => hend (.inr hc)
      rw [loneReturns_cons hpair, if_neg hc, ih, hlines]
      simp [hc]

/-! ### Pieces and lines -/

/-- A line feed alone is a line of its own. -/
theorem linesOf_feed (cs : List Char) : linesOf ('\n' :: cs) = ['\n'] :: linesOf cs :=
  linesOf_end (fun _ hc _ => absurd hc (by decide)) (.inl rfl)

/-- The pieces behind a character that is no line feed. -/
theorem splitOn_char {c : Char} (h : c ≠ '\n') {piece : List Char} {pieces : List (List Char)}
    (hpieces : splitOn '\n' cs = piece :: pieces) :
    splitOn '\n' (c :: cs) = (c :: piece) :: pieces := by
  rw [splitOn, if_neg h, hpieces]

/-- The pieces behind a line feed. -/
theorem splitOn_feed (cs : List Char) : splitOn '\n' ('\n' :: cs) = [] :: splitOn '\n' cs := by
  rw [splitOn, if_pos rfl]

/-- What ends behind a character ends so with the character in front, unless
this is all there is. -/
theorem getLast?_cons_iff {c : Char} (h : c ≠ '\r' ∨ cs ≠ []) :
    (c :: cs).getLast? = some '\r' ↔ cs.getLast? = some '\r' := by
  rw [List.getLast?_cons]
  cases hlast : cs.getLast? with
  | none =>
      have hc := h.resolve_right (not_not.mpr (List.getLast?_eq_none_iff.mp hlast))
      simp [hc]
  | some d => simp

/-- The number of pieces between line feeds that are not empty. -/
def filledPieces (cs : List Char) : Nat := ((splitOn '\n' cs).filter (!·.isEmpty)).length

/-- The number of lines that hold more than a line feed. -/
def filledLines (cs : List Char) : Nat := ((linesOf cs).filter (· ≠ ['\n'])).length

/-- A line feed ends an empty piece. -/
theorem filledPieces_feed (cs : List Char) : filledPieces ('\n' :: cs) = filledPieces cs := by
  rw [filledPieces, splitOn_feed, List.filter_cons_of_neg (by simp), filledPieces]

/-- A character in front of a line feed is a piece of its own. -/
theorem filledPieces_char_feed {c : Char} (h : c ≠ '\n') (cs : List Char) :
    filledPieces (c :: '\n' :: cs) = filledPieces cs + 1 := by
  rw [filledPieces, splitOn_char h (splitOn_feed cs), List.filter_cons_of_pos (by simp),
    List.length_cons, filledPieces]

/-- In front of any other character it makes the first piece longer. -/
theorem filledPieces_char {c d : Char} (h : c ≠ '\n') (hd : d ≠ '\n') (cs : List Char) :
    filledPieces (c :: d :: cs) = filledPieces (d :: cs) := by
  obtain ⟨piece, pieces, hpieces⟩ := List.exists_cons_of_ne_nil (splitOn_ne_nil '\n' cs)
  have hnext := splitOn_char hd hpieces
  rw [filledPieces, splitOn_char h hnext, filledPieces, hnext, List.filter_cons_of_pos (by simp),
    List.filter_cons_of_pos (by simp), List.length_cons, List.length_cons]

/-- A line feed alone is no filled line. -/
theorem filledLines_feed (cs : List Char) : filledLines ('\n' :: cs) = filledLines cs := by
  rw [filledLines, linesOf_feed, List.filter_cons_of_neg (by simp), filledLines]

/-- Any other line is one. -/
theorem filledLines_line {line rest : List Char} (hlines : linesOf cs = line :: linesOf rest)
    (hline : line ≠ ['\n']) : filledLines cs = filledLines rest + 1 := by
  rw [filledLines, hlines, List.filter_cons_of_pos (by simpa using hline), List.length_cons,
    filledLines]

/-- It stays so behind another character. -/
theorem filledLines_char {c d : Char} (hend : ¬ (c = '\n' ∨ c = '\r')) (hd : d ≠ '\n')
    {line : List Char} {lines : List (List Char)} (hlines : linesOf (d :: cs) = line :: lines) :
    filledLines (c :: d :: cs) = filledLines (d :: cs) := by
  obtain ⟨rest, hrest, rfl⟩ := linesOf_eq_cons hlines
  have hline : line ≠ ['\n'] := by
    rintro rfl
    exact hd (List.cons.inj hrest).1
  have hlonger : c :: line ≠ ['\n'] := fun heq => hend (.inl (List.cons.inj heq).1)
  rw [filledLines_line (linesOf_char hend hlines) hlonger, filledLines_line hlines hline]

/-- The pieces of a text that are not empty are as many as its lines that hold
more than a line feed; but a carriage return that stands alone ends no piece,
unless it is the last character. -/
theorem filledPieces_add_loneReturns (h : Ended cs) :
    filledPieces cs + loneReturns cs
      = filledLines cs + if cs.getLast? = some '\r' then 1 else 0 := by
  fun_induction linesOf cs with
  | case1 => rfl
  | case2 cs ih =>
      have hlast : ('\r' :: '\n' :: cs).getLast? = some '\r' ↔ cs.getLast? = some '\r' := by
        rw [getLast?_cons_iff (.inr (List.cons_ne_nil _ _)), getLast?_cons_iff (.inl (by decide))]
      have hrest := ih h.tail.tail
      have hlines : filledLines ('\r' :: '\n' :: cs) = filledLines cs + 1 :=
        filledLines_line rfl (by decide)
      simp only [filledPieces_char_feed (c := '\r') (by decide) cs, loneReturns, hlast, hlines]
      omega
  | case3 c cs hpair hend ih =>
      have hrest := ih h.tail
      rw [loneReturns_cons hpair]
      by_cases hc : c = '\r'
      · subst hc
        rw [if_pos rfl, filledLines_line (linesOf_end hpair hend) (by decide)]
        cases cs with
        | nil => rfl
        | cons d cs =>
            -- The next line starts with another character, and is one piece with the return.
            have hd : d ≠ '\n' := fun hd => hpair cs rfl (by rw [hd])
            simp only [filledPieces_char (c := '\r') (by decide) hd,
              getLast?_cons_iff (.inr (List.cons_ne_nil d cs))]
            omega
      · obtain rfl := hend.resolve_right hc
        simp only [filledPieces_feed, filledLines_feed, if_neg hc, getLast?_cons_iff (.inl hc)]
        exact hrest
  | case4 c cs hpair hend line lines hlines ih =>
      have hc := not_or.mp hend
      have hrest := ih h.tail
      rw [loneReturns_cons hpair, if_neg hc.2]
      simp only [getLast?_cons_iff (.inl hc.2)]
      cases cs with
      | nil => cases hlines
      | cons d cs =>
          by_cases hd : d = '\n'
          · subst hd
            have hline : c :: ['\n'] ≠ ['\n'] := by simp
            have hlines := linesOf_char hend (linesOf_feed cs)
            rw [filledPieces_char_feed hc.1, filledLines_line hlines hline]
            rw [filledPieces_feed, filledLines_feed] at hrest
            omega
          · rw [filledPieces_char hc.1 hd, filledLines_char hend hd hlines]
            exact hrest
  | case5 c cs hpair hend hlines ih =>
      rw [linesOf_eq_nil hlines] at h
      exact absurd (h c rfl) hend

/-- Where no carriage return stands alone, the pieces between line feeds are
the lines without their line feeds, and there is nothing behind the last. -/
theorem splitOn_of_paired (h : Fed cs) (hpaired : loneReturns cs = 0) :
    splitOn '\n' cs = (linesOf cs).map List.dropLast ++ [[]] := by
  fun_induction linesOf cs with
  | case1 => rfl
  | case2 cs ih =>
      -- A pair of a carriage return and a line feed ends one line and one piece.
      have hrest := ih h.tail.tail hpaired
      rw [splitOn_char (by decide) (splitOn_feed cs), hrest]
      rfl
  | case3 c cs hpair hend ih =>
      -- A lone carriage return is excluded, so the line ends with a line feed.
      rw [loneReturns_cons hpair] at hpaired
      split at hpaired
      · cases hpaired
      · rename_i hc
        obtain rfl := hend.resolve_right hc
        rw [splitOn_feed, ih h.tail hpaired]
        rfl
  | case4 c cs hpair hend line lines hlines ih =>
      -- The character belongs to the line that the rest starts with.
      rw [not_or] at hend
      rw [loneReturns_cons hpair, if_neg hend.2] at hpaired
      have hrest := ih h.tail hpaired
      have hne : line ≠ [] := linesOf_ne_nil (hlines ▸ List.mem_cons_self)
      rw [hlines] at hrest
      rw [splitOn_char hend.1 hrest, List.map_cons, List.dropLast_cons_of_ne_nil hne]
      rfl
  | case5 c cs hpair hend hlines ih =>
      -- A completed text does not stop in the middle of a line.
      rw [linesOf_eq_nil hlines] at h
      exact absurd (.inl (h c rfl)) hend

/-! ### Reports of chunks -/

/-- The lines of a chunk that hold more than a line feed. A carriage return
in front of the line feed counts: a report leaves only pieces out that are
empty. -/
def Chunk.filledLines (c : Chunk) : List String := (tokenize c.value).toList.filter (· ≠ "\n")

/-- The number of lines that a report shows of a chunk. -/
def Chunk.shown (c : Chunk) : Nat := c.report.toList.count '\n'

variable {c : Chunk}

/-- The filled lines as characters. -/
theorem toList_filledLines (c : Chunk) :
    c.filledLines.map String.toList = (linesOf c.value.toList).filter (· ≠ ['\n']) := by
  rw [← toList_tokenize, List.filter_map, Chunk.filledLines]
  refine congrArg _ (List.filter_congr fun line _ => ?_)
  show decide (line ≠ "\n") = decide (line.toList ≠ ['\n'])
  rw [decide_eq_decide, ← String.toList_inj.ne]
  rfl

/-- The number of the filled lines. -/
theorem length_filledLines (c : Chunk) : c.filledLines.length = filledLines c.value.toList := by
  rw [← List.length_map, toList_filledLines, LineDiff.filledLines]

/-- A report shows the pieces of a value that are not empty. -/
theorem toList_report {mark : String} (hmark : reportMark? c.tag = some mark) :
    c.report.toList = ((splitOn '\n' c.value.toList).filter (!·.isEmpty)).flatMap
      fun piece => mark.toList ++ piece ++ ['\n'] := by
  have hempty (piece : List Char) : (String.ofList piece).isEmpty = piece.isEmpty := by
    rw [Bool.eq_iff_iff, String.isEmpty_iff, List.isEmpty_iff, ← String.toList_inj,
      String.toList_ofList, String.toList_empty]
  rw [Chunk.report, hmark, String.toList_join, Text.linesOf, List.filter_map, List.map_map,
    List.flatMap_map]
  simp [Function.comp_def, hempty]

/-- A report shows one line for each piece of the value that is not empty. -/
theorem shown_eq (h : c.tag ≠ .equal) : c.shown = filledPieces c.value.toList := by
  obtain ⟨mark, hmark, hmarkFeed⟩ : ∃ mark, reportMark? c.tag = some mark ∧ '\n' ∉ mark.toList := by
    cases htag : c.tag with
    | equal => exact absurd htag h
    | delete => exact ⟨_, rfl, by decide⟩
    | insert => exact ⟨_, rfl, by decide⟩
  rw [Chunk.shown, toList_report hmark, List.count_flatMap, List.map_congr_left (g := fun _ => 1)]
  · simp [filledPieces]
  · intro piece hpiece
    have hpieceFeed := (not_mem_of_mem_splitOn (List.mem_of_mem_filter hpiece)).1
    simp [List.count_eq_zero_of_not_mem, hmarkFeed, hpieceFeed]

/-- Where no carriage return stands alone, a report shows the filled lines
behind their marks. -/
theorem report_of_paired (h : Fed c.value.toList) (hpaired : loneReturns c.value.toList = 0)
    {mark : String} (hmark : reportMark? c.tag = some mark) :
    c.report = String.join (c.filledLines.map (mark ++ ·)) := by
  -- Each line ends with a line feed, so it is filled just if something stands in front of that.
  have hend : ∀ line ∈ linesOf c.value.toList, line = line.dropLast ++ ['\n'] := by
    intro line hline
    have hne := linesOf_ne_nil hline
    have hlast := List.getLast?_eq_some_getLast hne
    have hended : Ended line := Ended.of_mem_linesOf (fun c hc => .inl (h c hc)) hline
    have hreturn := loneReturns_eq_zero_iff.mp hpaired line hline
    obtain hfeed | hfeed := hended _ hlast
    · rw [← hfeed, List.dropLast_concat_getLast]
    · exact absurd (hlast.trans (congrArg _ hfeed)) hreturn
  have hfilled : (linesOf c.value.toList).filter ((!·.isEmpty) ∘ List.dropLast)
      = (linesOf c.value.toList).filter (· ≠ ['\n']) := by
    refine List.filter_congr fun line hline => ?_
    rw [Function.comp_apply, Bool.eq_iff_iff, Bool.not_eq_true', List.isEmpty_eq_false_iff,
      decide_eq_true_iff, hend line hline, List.dropLast_concat]
    simp
  have hshown : (c.filledLines.map (mark ++ ·)).flatMap String.toList
      = ((linesOf c.value.toList).filter (· ≠ ['\n'])).flatMap (mark.toList ++ ·) := by
    rw [← toList_filledLines, List.flatMap_map, List.flatMap_map]
    simp only [String.toList_append]
  rw [← String.toList_inj, toList_report hmark, splitOn_of_paired h hpaired, List.filter_append,
    List.filter_map, hfilled, String.toList_join, hshown, List.flatMap_append, List.flatMap_map]
  refine (List.append_nil _).trans (List.flatMap_congr fun line hline => ?_)
  rw [List.append_assoc, ← hend line (List.mem_of_mem_filter hline)]

/-! ### Chunks of two texts -/

/-- A character in front makes at most one more carriage return stand
alone. -/
theorem loneReturns_cons_le (c : Char) (cs : List Char) :
    loneReturns (c :: cs) ≤ loneReturns cs + if c = '\r' then 1 else 0 := by
  by_cases hpair : ∃ rest, c = '\r' ∧ cs = '\n' :: rest
  · obtain ⟨rest, rfl, rfl⟩ := hpair
    exact Nat.le_succ (loneReturns rest)
  · rw [loneReturns_cons fun rest hc hcs => hpair ⟨rest, hc, hcs⟩]
    split <;> rfl

/-- Texts put together have no more carriage returns that stand alone. -/
theorem loneReturns_append_le (cs ds : List Char) :
    loneReturns (cs ++ ds) ≤ loneReturns cs + loneReturns ds := by
  fun_induction loneReturns cs with
  | case1 => rw [List.nil_append, Nat.zero_add]
  | case2 cs ih => exact ih
  | case3 cs hpair ih =>
      have hle := loneReturns_cons_le '\r' (cs ++ ds)
      rw [if_pos rfl] at hle
      rw [List.cons_append]
      omega
  | case4 c cs hpair hc ih =>
      have hle := loneReturns_cons_le c (cs ++ ds)
      rw [if_neg hc] at hle
      rw [List.cons_append]
      omega

/-- Nor have several texts. -/
theorem loneReturns_join {values : List String}
    (h : ∀ value ∈ values, loneReturns value.toList = 0) :
    loneReturns (String.join values).toList = 0 := by
  induction values with
  | nil => rfl
  | cons value values ih =>
      obtain ⟨hvalue, hvalues⟩ := List.forall_mem_cons.mp h
      have hle := loneReturns_append_le value.toList (String.join values).toList
      rw [String.join_cons, String.toList_append]
      have hrest := ih hvalues
      omega

/-- Where no carriage return stands alone, none is the last character. -/
theorem last_of_paired (h : loneReturns cs = 0) : cs.getLast? ≠ some '\r' := by
  fun_induction loneReturns cs with
  | case1 => simp
  | case2 cs ih =>
      rw [ne_eq, getLast?_cons_iff (.inr (List.cons_ne_nil _ _)),
        getLast?_cons_iff (.inl (by decide))]
      exact ih h
  | case3 cs hpair ih => cases h
  | case4 c cs hpair hc ih =>
      rw [ne_eq, getLast?_cons_iff (.inl hc)]
      exact ih h

/-- The lines of a chunk stand together in one of the completed texts. -/
theorem exists_linesOf_part {old new : String} (hc : c ∈ chunks old new) :
    c.count = (tokenize c.value).size ∧ linesOf c.value.toList ≠ [] ∧
      ∃ text, (text = old ∨ text = new) ∧
        linesOf c.value.toList <:+: linesOf (withFinalFeed text).toList := by
  obtain ⟨values, hne, hvalue, hcount, text, htext, hpart⟩ := exists_values hc
  have hmap := hpart.map String.toList
  rw [toList_tokenize] at hmap
  have hlines : linesOf c.value.toList = values.map String.toList := by
    rw [hvalue, String.toList_join, List.flatMap_def, linesOf_part hmap]
  refine ⟨?_, by simpa [hlines] using hne, text, htext, hlines ▸ hmap⟩
  rw [hcount, tokenize, hlines]
  simp

/-- A chunk ends with the end of a line. -/
theorem last_of_mem_chunks {old new : String} (hc : c ∈ chunks old new) :
    c.value.toList.getLast? = some '\n' ∨ c.value.toList.getLast? = some '\r' := by
  obtain ⟨-, hne, text, -, hpart⟩ := exists_linesOf_part hc
  have hended := (ended_withFinalFeed text).of_part hpart
  rw [flatten_linesOf] at hended
  have hvalue : c.value.toList ≠ [] := fun hnil => hne (by rw [hnil, linesOf])
  have hlast := List.getLast?_eq_some_getLast hvalue
  obtain hfeed | hreturn := hended _ hlast
  · exact .inl (hlast.trans (congrArg _ hfeed))
  · exact .inr (hlast.trans (congrArg _ hreturn))

/-- In a chunk each carriage return has its line feed just if it has in both
texts. -/
theorem chunks_paired_iff (old new : String) :
    (∀ c ∈ chunks old new, loneReturns c.value.toList = 0) ↔
      loneReturns (withFinalFeed old).toList = 0 ∧ loneReturns (withFinalFeed new).toList = 0 := by
  obtain ⟨hjoinOld, hjoinNew⟩ := join_chunks old new
  have hkept (tag : Tag) (h : ∀ c ∈ chunks old new, loneReturns c.value.toList = 0) :
      loneReturns (String.join (((chunks old new).filter (·.tag ≠ tag)).map Chunk.value)).toList
        = 0 := by
    refine loneReturns_join (List.forall_mem_map.mpr fun c hc => ?_)
    exact h c (List.mem_of_mem_filter hc)
  refine ⟨fun h => ⟨hjoinOld ▸ hkept .insert h, hjoinNew ▸ hkept .delete h⟩, fun h c hc => ?_⟩
  obtain ⟨-, -, text, htext, hpart⟩ := exists_linesOf_part hc
  have hpaired : loneReturns (withFinalFeed text).toList = 0 := by
    obtain rfl | rfl := htext
    · exact h.1
    · exact h.2
  exact loneReturns_eq_zero_iff.mpr fun line hline =>
    loneReturns_eq_zero_iff.mp hpaired line (hpart.subset hline)

/-- **A report shows the lines of a chunk just if no carriage return stands
alone.** A chunk counts its lines and ends as its last line does. Such a
return, wherever it is, takes a line from the report or stands at the end of
the chunk instead of a line feed. With none in the two texts, each chunk ends
with a line feed, and its filled lines are shown behind their marks. -/
theorem chunks_report_lines_iff (old new : String) :
    (∀ c ∈ chunks old new,
      c.count = (tokenize c.value).size ∧
      (c.value.toList.getLast? = some '\n' ∨ c.value.toList.getLast? = some '\r') ∧
      (c.tag ≠ .equal →
        (c.value.toList.getLast? = some '\n' ∧ c.shown = c.filledLines.length ↔
          loneReturns c.value.toList = 0)) ∧
      (loneReturns c.value.toList = 0 → c.value.toList.getLast? = some '\n' ∧
        ∀ mark, reportMark? c.tag = some mark →
          c.report = String.join (c.filledLines.map (mark ++ ·)))) ∧
    ((∀ c ∈ chunks old new, loneReturns c.value.toList = 0) ↔
      loneReturns (withFinalFeed old).toList = 0 ∧ loneReturns (withFinalFeed new).toList = 0) := by
  refine ⟨fun c hc => ?_, chunks_paired_iff old new⟩
  have hlast := last_of_mem_chunks hc
  have hfeed (hpaired : loneReturns c.value.toList = 0) : c.value.toList.getLast? = some '\n' :=
    hlast.resolve_right (last_of_paired hpaired)
  have hended : Ended c.value.toList := by
    intro last hlast'
    rw [hlast', Option.some_inj, Option.some_inj] at hlast
    exact hlast
  refine ⟨(exists_linesOf_part hc).1, hlast, fun htag => ?_, fun hpaired => ?_⟩
  · have hlength := filledPieces_add_loneReturns hended
    rw [← shown_eq htag, ← length_filledLines] at hlength
    refine ⟨fun ⟨hlast, hshown⟩ => ?_, fun hpaired => ⟨hfeed hpaired, ?_⟩⟩
    · rw [hlast, if_neg (by decide)] at hlength
      omega
    · rw [hfeed hpaired, if_neg (by decide)] at hlength
      omega
  · refine ⟨hfeed hpaired, fun mark hmark => report_of_paired ?_ hpaired hmark⟩
    intro last hlast
    exact Option.some.inj (hlast.symm.trans (hfeed hpaired))

/-- Texts with both ways to end a line, one of them not completed. -/
theorem chunks_report_lines_iff_paired : ∀ c ∈ chunks "a\r\nb" "a\r\n\r\nc\n",
    c.value.toList.getLast? = some '\n' ∧ (c.tag ≠ .equal → c.shown = c.filledLines.length) := by
  intro c hc
  obtain ⟨hchunk, hpaired⟩ := chunks_report_lines_iff "a\r\nb" "a\r\n\r\nc\n"
  obtain ⟨-, -, hshown, hreport⟩ := hchunk c hc
  have hc := hpaired.mpr ⟨by decide, by decide⟩ c hc
  exact ⟨(hreport hc).1, fun htag => ((hshown htag).mpr hc).2⟩

/-- A chunk may end with a carriage return, and a report may show two lines
of a chunk as one. -/
theorem chunk_ends_with_return :
    (∃ c ∈ chunks "a\rb\n" "a\rc\n", c.value.toList.getLast? = some '\r') ∧
    ∃ c ∈ chunks "" "a\rb\n", c.tag = .insert ∧ c.filledLines.length = 2 ∧ c.shown = 1 := by
  decide +kernel

end ScriptRefactor.LineDiff
