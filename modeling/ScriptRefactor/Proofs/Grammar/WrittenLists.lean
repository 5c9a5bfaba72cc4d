import ScriptRefactor.Proofs.Grammar.BareImports
import ScriptRefactor.Proofs.Grammar.Gaps
import ScriptRefactor.Proofs.Text.Pieces

/-!
# `ScriptRefactor.Proofs.Grammar.WrittenLists`: lists in brackets

How a list in brackets is written: entries with single commas between them,
a comma behind the last one or none, and white space and comments wherever
there is room for them (`WrittenList`, `WrittenList.IsWellWritten`). The
rules of the grammar for lists read such a text to its end, with the nodes of
the entries in order (`WrittenList.IsWellWritten.read`), if the rule for the
entries reads each of them in front of a comma and in front of the closing
bracket (`Reads`).

The loop over the entries is followed slot by slot. A slot with a comma
behind it is read with the comma (`listItem_comma`); the rule for the last
one stops in front of what stands between the entry and the bracket
(`listItem_last`).
-/

set_option autoImplicit false

namespace ScriptRefactor.Grammar

open Syntax

/-! ### How a list is written -/

/-- An entry with what stands around it, up to the next commas or brackets. -/
structure Slot where
  /-- What stands in front of the entry. -/
  front : List Char
  /-- The entry. -/
  entry : List Char
  /-- What stands behind it. -/
  behind : List Char

/-- The text of a slot. -/
def Slot.text (s : Slot) : List Char := s.front ++ s.entry ++ s.behind

/-- A list in brackets. -/
structure WrittenList where
  /-- The bracket in front. -/
  opening : Char
  /-- The entries. -/
  slots : List Slot
  /-- What stands behind a comma that follows the last entry. -/
  tail? : Option (List Char)
  /-- The bracket behind. -/
  closing : Char

namespace WrittenList

variable {l : WrittenList}

/-- What stands between the brackets. -/
def inside (l : WrittenList) : List Char :=
  Text.joinWith [','] (l.slots.map Slot.text ++ l.tail?.toList)

/-- The text of the list. -/
def text (l : WrittenList) : List Char := l.opening :: l.inside ++ [l.closing]

/-- The entries in order. -/
def entries (l : WrittenList) : List (List Char) := l.slots.map Slot.entry

/-- The brackets that make a list. -/
def brackets : List (Char × Char) := [('(', ')'), ('[', ']'), ('\x7b', '\x7d')]

/-- Between the marks of the list and its entries there are only white space
and comments, and each entry is more than that. -/
structure IsWellWritten (l : WrittenList) : Prop where
  /-- The brackets belong together. -/
  brackets : (l.opening, l.closing) ∈ brackets
  /-- There are gaps around each entry. -/
  gaps : ∀ s ∈ l.slots, IsGap s.front ∧ IsGap s.behind
  /-- No entry is a gap itself. -/
  entries : ∀ s ∈ l.slots, ¬ IsGap s.entry
  /-- There is a gap behind a comma at the end. -/
  tail : ∀ gap ∈ l.tail?, IsGap gap

/-- The nodes of the slots from a position on, with the commas behind them. -/
def slotNodes (nodesOf : List Char → Nat → List Node) (tail? : Option (List Char)) :
    Nat → List Slot → List Node
  | _, [] => []
  | pos, s :: rest =>
    let comma :=
      if rest = [] ∧ tail? = none then [] else [Node.token (pos + Text.byteSize s.text) ","]
    nodesOf s.entry (pos + Text.byteSize s.front) ++ comma
      ++ slotNodes nodesOf tail? (pos + Text.byteSize s.text + 1) rest

/-- The nodes of a list at a position. -/
def nodes (l : WrittenList) (nodesOf : List Char → Nat → List Node) (pos : Nat) : List Node :=
  Node.token pos (String.ofList [l.opening])
    :: slotNodes nodesOf l.tail? (pos + 1) l.slots
    ++ [Node.token (pos + 1 + Text.byteSize l.inside) (String.ofList [l.closing])]

end WrittenList

/-! ### Marks -/

/-- The marks of a list. -/
def listMarks : List Char := [',', '(', ')', '[', ']', '\x7b', '\x7d']

/-- A mark of a list takes one byte, is no part of a longer mark, and starts a
token. -/
theorem of_mem_listMarks {c : Char} (h : c ∈ listMarks) (cs : List Char) :
    c.utf8Size = 1 ∧ Ahead.of (c :: cs) = .mark (String.ofList [c]) ∧ AtToken (c :: cs) := by
  simp only [listMarks, List.mem_cons, List.not_mem_nil, or_false] at h
  rcases h with rfl | rfl | rfl | rfl | rfl | rfl | rfl <;>
    exact ⟨rfl, rfl, .cons rfl (by decide) cs⟩

namespace Parser

open WrittenList

variable {item rule : Parser (List Node)} {env : Surroundings} {closing c : Char} {s : Slot}
  {gap tail entry : List Char} {nodes : Nat → List Node} {pos : Nat} {comments : List Node}

/-- What comes next behind a gap. -/
theorem ahead_behind_gap (hgap : IsGap gap) (hc : c ∈ listMarks) :
    Ahead.of (⟨gap ++ c :: tail, pos, comments⟩ : Reader).skip.rest
      = .mark (String.ofList [c]) := by
  obtain ⟨-, hahead, hat⟩ := of_mem_listMarks hc tail
  obtain ⟨passed, hskip⟩ := Reader.skip_gap hgap hat pos comments
  rw [hskip, hahead]

/-- A mark behind a gap is read. -/
theorem mark_behind_gap (env : Surroundings) (hgap : IsGap gap) (hc : c ∈ listMarks)
    (tail : List Char) (pos : Nat) (comments : List Node) :
    ∃ passed, mark (String.ofList [c]) env ⟨gap ++ c :: tail, pos, comments⟩
      = .ok (Node.token (pos + Text.byteSize gap) (String.ofList [c]),
        ⟨tail, pos + Text.byteSize gap + 1, passed⟩) := by
  obtain ⟨hsize, -, hat⟩ := of_mem_listMarks hc tail
  obtain ⟨passed, hskip⟩ := Reader.skip_gap hgap hat pos comments
  have hmark : isMark (String.ofList [c]) env ⟨gap ++ c :: tail, pos, comments⟩
      = .ok (true, ⟨gap ++ c :: tail, pos, comments⟩) := by
    show Except.ok (decide (Ahead.of (Reader.skip _).rest = .mark _), _) = _
    rw [ahead_behind_gap hgap hc, decide_eq_true rfl]
  refine ⟨passed, ?_⟩
  rw [mark, bind_of_ok hmark]
  show token (String.ofList [c]).toList env (Reader.skip _) = _
  have htoken := @token_of env (pos + Text.byteSize gap) passed [c] tail
  rw [Text.byteSize_cons, Text.byteSize_nil, hsize] at htoken
  rw [hskip, String.toList_ofList]
  exact htoken

/-- Another mark than the one asked for comes next. -/
theorem isMark_behind_gap {m : String} (hgap : IsGap gap) (hc : c ∈ listMarks) :
    isMark m env ⟨gap ++ c :: tail, pos, comments⟩
      = .ok (decide (m = String.ofList [c]), ⟨gap ++ c :: tail, pos, comments⟩) := by
  show Except.ok (decide (Ahead.of (Reader.skip _).rest = .mark m), _) = _
  rw [ahead_behind_gap hgap hc]
  simp only [Ahead.mark.injEq, eq_comm]

/-! ### Entries -/

/-- The rule reads the text as an entry of a list that ends with a bracket:
behind any gap, up to the gap in front of a comma or of the bracket. -/
structure Reads (item : Parser (List Node)) (env : Surroundings) (closing : Char)
    (entry : List Char) (nodes : Nat → List Node) : Prop where
  /-- The entry starts with a token. -/
  atToken : ∀ tail, AtToken (entry ++ tail)
  /-- This token belongs to the entry. -/
  ahead : ∀ tail, Ahead.of (entry ++ tail)
    ∉ [.finished, .mark ",", .mark (String.ofList [closing])]
  /-- The nodes depend on where the entry stands. -/
  read : ∀ {front behind : List Char} {c : Char}, IsGap front → IsGap behind →
    c ∈ [',', closing] → ∀ tail pos comments, ∃ passed,
      item env ⟨front ++ entry ++ (behind ++ c :: tail), pos, comments⟩
        = .ok (nodes (pos + Text.byteSize front),
          ⟨behind ++ c :: tail, pos + Text.byteSize (front ++ entry), passed⟩)

/-- An entry with the comma behind it. -/
theorem listItem_comma (hcomma : closing ≠ ',')
    (hs : IsGap s.front ∧ IsGap s.behind) (hread : Reads item env closing s.entry nodes)
    (tail : List Char) (pos : Nat) (comments : List Node) :
    ∃ passed, listItem (String.ofList [closing]) item env ⟨s.text ++ ',' :: tail, pos, comments⟩
      = .ok (nodes (pos + Text.byteSize s.front)
          ++ [Node.token (pos + Text.byteSize s.text) ","],
        ⟨tail, pos + Text.byteSize s.text + 1, passed⟩) := by
  -- The entry is read up to its comma, and the gap behind it is passed there.
  obtain ⟨passed, hitem⟩ := hread.read hs.1 hs.2 (List.mem_cons_self ..) tail pos comments
  obtain ⟨passed', hmark⟩ := mark_behind_gap env (c := ',') hs.2 (by decide) tail
    (pos + Text.byteSize (s.front ++ s.entry)) passed
  -- A comma is no closing bracket, so the list goes on.
  have hopen : isMark (String.ofList [closing]) env
      ⟨s.behind ++ ',' :: tail, pos + Text.byteSize (s.front ++ s.entry), passed⟩
      = .ok (false, ⟨s.behind ++ ',' :: tail, pos + Text.byteSize (s.front ++ s.entry), passed⟩) := by
    rw [isMark_behind_gap hs.2 (by decide), decide_eq_false]
    intro h
    have hlist := congrArg String.toList h
    rw [String.toList_ofList, String.toList_ofList] at hlist
    exact hcomma (List.cons.inj hlist).1
  refine ⟨passed', ?_⟩
  have hpos : pos + Text.byteSize (s.front ++ s.entry) + Text.byteSize s.behind
      = pos + Text.byteSize s.text := by
    rw [Nat.add_assoc, ← Text.byteSize_append, Slot.text]
  rw [hpos] at hmark
  rw [Slot.text, List.append_assoc, listItem, bind_of_ok hitem, bind_of_ok hopen]
  show (mark "," >>= fun comma => pure (_ ++ [comma]) : Parser _) env _ = _
  rw [bind_of_ok hmark, ← Slot.text]
  rfl

/-- An entry in front of the closing bracket. -/
theorem listItem_last (hclosing : closing ∈ listMarks) (hs : IsGap s.front ∧ IsGap s.behind)
    (hread : Reads item env closing s.entry nodes) (tail : List Char) (pos : Nat)
    (comments : List Node) :
    ∃ passed, listItem (String.ofList [closing]) item env
        ⟨s.text ++ closing :: tail, pos, comments⟩
      = .ok (nodes (pos + Text.byteSize s.front),
        ⟨s.behind ++ closing :: tail, pos + Text.byteSize (s.front ++ s.entry), passed⟩) := by
  obtain ⟨passed, hitem⟩ := hread.read hs.1 hs.2
    (List.mem_cons_of_mem _ (List.mem_cons_self ..)) tail pos comments
  refine ⟨passed, ?_⟩
  rw [Slot.text, List.append_assoc, listItem, bind_of_ok hitem,
    bind_of_ok (isMark_behind_gap hs.2 hclosing), decide_eq_true rfl]
  rfl

/-! ### Loops over entries -/

/-- There is a separator between any two pieces. -/
theorem length_le_joinWith (sep : Char) (pieces : List (List Char)) :
    pieces.length ≤ (Text.joinWith [sep] pieces).length + 1 := by
  induction pieces with
  | nil => exact Nat.zero_le _
  | cons piece pieces ih =>
      by_cases hpieces : pieces = []
      · simp [hpieces]
      · rw [Text.joinWith_cons _ _ hpieces]
        simp only [List.length_cons, List.length_append, List.length_nil]
        omega

/-- The token ends a list. -/
def endsList (closing : Char) (a : Ahead) : Bool :=
  a = .mark (String.ofList [closing]) || a = .finished

/-- The rule for what stands between the commas of a list: an item, unless the
item is left out. -/
def IsItemRule (rule item : Parser (List Node)) (env : Surroundings) (closing : Char) : Prop :=
  ∀ r, Ahead.of r.skip.rest ≠ .mark "," →
    rule env r = listItem (String.ofList [closing]) item env r

/-- The loop is done in front of the bracket. -/
theorem round_end (rule : Parser (List Node)) (hclosing : closing ∈ listMarks) (hgap : IsGap gap)
    (tail : List Char) (pos : Nat) (comments : List Node) :
    round (endsList closing) rule env ⟨gap ++ closing :: tail, pos, comments⟩
      = .ok (none, ⟨gap ++ closing :: tail, pos, comments⟩) := by
  refine round_of_stop rule ?_
  rw [ahead_behind_gap hgap hclosing, endsList, decide_eq_true rfl]
  rfl

/-- In front of a slot it goes on with the item. -/
theorem round_slot {more : List Char} {given : List Node} {r : Reader}
    (hrule : IsItemRule rule item env closing) (hs : IsGap s.front)
    (hread : Reads item env closing s.entry nodes)
    (hitem : listItem (String.ofList [closing]) item env ⟨s.text ++ more, pos, comments⟩
      = .ok (given, r)) :
    round (endsList closing) rule env ⟨s.text ++ more, pos, comments⟩ = .ok (some given, r) := by
  obtain ⟨passed, hskip⟩ := Reader.skip_gap hs (hread.atToken (s.behind ++ more)) pos comments
  have hahead := hread.ahead (s.behind ++ more)
  simp only [List.mem_cons, List.not_mem_nil, or_false, not_or] at hahead
  rw [← List.append_assoc, ← List.append_assoc, ← Slot.text] at hskip
  refine round_of_ok ?_ ((hrule _ ?_).trans hitem)
  · rw [hskip, endsList, decide_eq_false hahead.2.2, decide_eq_false hahead.1]
    rfl
  · rw [hskip]
    exact hahead.2.1

/-- One slot after the other is read, up to the gap in front of the bracket. -/
theorem growFuel_slots {nodesOf : List Char → Nat → List Node} (hclosing : closing ∈ listMarks)
    (hcomma : closing ≠ ',') (hrule : IsItemRule rule item env closing) {slots : List Slot}
    {tail? : Option (List Char)} (htail : ∀ gap ∈ tail?, IsGap gap)
    (hslots : ∀ s ∈ slots, (IsGap s.front ∧ IsGap s.behind) ∧
      Reads item env closing s.entry (nodesOf s.entry))
    {fuel : Nat} (hfuel : slots.length < fuel) (tail : List Char) (pos : Nat)
    (comments before : List Node) :
    ∃ gap stop passed, IsGap gap ∧
      stop + Text.byteSize gap
        = pos + Text.byteSize (Text.joinWith [','] (slots.map Slot.text ++ tail?.toList)) ∧
      growFuel (fun nodes => do return (← round (endsList closing) rule).map (nodes ++ ·)) fuel
          before env
        ⟨Text.joinWith [','] (slots.map Slot.text ++ tail?.toList) ++ closing :: tail, pos,
          comments⟩
        = .ok (before ++ slotNodes nodesOf tail? pos slots,
          ⟨gap ++ closing :: tail, stop, passed⟩) := by
  induction slots generalizing fuel pos comments before with
  | nil =>
      obtain ⟨fuel, rfl⟩ : ∃ n, fuel = n + 1 := ⟨fuel - 1, by omega⟩
      have hgap : IsGap (Text.joinWith [','] ([].map Slot.text ++ tail?.toList)) := by
        cases tail? with
        | none => exact .nil
        | some gap => exact htail gap rfl
      refine ⟨_, pos, comments, hgap, rfl, ?_⟩
      rw [growFuel_of_none (round_end rule hclosing hgap tail pos comments), slotNodes,
        List.append_nil]
  | cons s slots ih =>
      obtain ⟨fuel, rfl⟩ : ∃ n, fuel = n + 1 := ⟨fuel - 1, by omega⟩
      obtain ⟨⟨hs, hread⟩, hslots⟩ := List.forall_mem_cons.mp hslots
      by_cases hlast : slots = [] ∧ tail? = none
      · -- The list ends behind this entry.
        obtain ⟨rfl, rfl⟩ := hlast
        obtain ⟨fuel, rfl⟩ : ∃ n, fuel = n + 1 := ⟨fuel - 1, by simp at hfuel; omega⟩
        obtain ⟨passed, hitem⟩ := listItem_last hclosing hs hread tail pos comments
        refine ⟨s.behind, pos + Text.byteSize (s.front ++ s.entry), passed, hs.2, ?_, ?_⟩
        · show _ = pos + Text.byteSize s.text
          rw [Nat.add_assoc, ← Text.byteSize_append, Slot.text]
        · show growFuel _ _ _ _ ⟨s.text ++ closing :: tail, pos, comments⟩ = _
          rw [growFuel_of_some (round_slot hrule hs.1 hread hitem),
            growFuel_of_none (round_end rule hclosing hs.2 tail _ passed), slotNodes, slotNodes,
            if_pos ⟨rfl, rfl⟩, List.append_nil, List.append_nil]
      · -- There is a comma, and the others follow.
        have hpieces : slots.map Slot.text ++ tail?.toList ≠ [] := by
          intro hempty
          obtain ⟨hmap, hnone⟩ := List.append_eq_nil_iff.mp hempty
          exact hlast ⟨List.map_eq_nil_iff.mp hmap, by simpa using hnone⟩
        have htext : Text.joinWith [','] ((s :: slots).map Slot.text ++ tail?.toList)
            = s.text ++ ',' :: Text.joinWith [','] (slots.map Slot.text ++ tail?.toList) := by
          rw [List.map_cons, List.cons_append, Text.joinWith_cons _ _ hpieces, List.append_assoc]
          rfl
        obtain ⟨passed, hitem⟩ := listItem_comma hcomma hs hread
          (Text.joinWith [','] (slots.map Slot.text ++ tail?.toList) ++ closing :: tail) pos
          comments
        obtain ⟨gap, stop, passed, hgap, hstop, hloop⟩ := ih hslots (Nat.lt_of_succ_lt_succ hfuel)
          (pos + Text.byteSize s.text + 1) passed
          (before ++ (nodesOf s.entry (pos + Text.byteSize s.front)
            ++ [Node.token (pos + Text.byteSize s.text) ","]))
        refine ⟨gap, stop, passed, hgap, ?_, ?_⟩
        · have hone : (',').utf8Size = 1 := rfl
          rw [hstop, htext, Text.byteSize_append, Text.byteSize_cons, hone]
          omega
        · rw [htext, List.append_assoc, List.cons_append,
            growFuel_of_some (round_slot hrule hs.1 hread hitem), hloop, slotNodes, if_neg hlast]
          simp only [List.append_assoc]

end Parser

namespace WrittenList

open Grammar.Parser

variable {l : WrittenList} {item rule : Parser (List Node)} {env : Surroundings}
  {nodesOf : List Char → Nat → List Node} {gap : List Char}

/-- The closing bracket is a mark of its own. -/
theorem IsWellWritten.marks (h : l.IsWellWritten) :
    l.opening ∈ listMarks ∧ l.closing ∈ listMarks ∧ l.closing ≠ ',' := by
  have hbrackets := h.brackets
  simp only [WrittenList.brackets, List.mem_cons, List.not_mem_nil, or_false, Prod.mk.injEq] at hbrackets
  rcases hbrackets with ⟨hopening, hclosing⟩ | ⟨hopening, hclosing⟩ | ⟨hopening, hclosing⟩ <;>
    rw [hopening, hclosing] <;> decide

/-- Between brackets, `in` is an operator and no statement ends. -/
def between (env : Surroundings) : Surroundings :=
  { env with inOperator := true, mayEnd := false, namesResult := true }

/-- **A well written list is read** to its end, with the nodes of its entries
in order. -/
theorem IsWellWritten.read (h : l.IsWellWritten)
    (hentries : ∀ e ∈ l.entries, Reads item (between env) l.closing e (nodesOf e))
    (hrule : IsItemRule rule item (between env) l.closing)
    (hgap : IsGap gap) (tail : List Char) (pos : Nat) (comments : List Node) :
    ∃ passed, bracketed (String.ofList [l.opening]) (String.ofList [l.closing])
        (untilMark (String.ofList [l.closing]) rule) env
        ⟨gap ++ l.text ++ tail, pos, comments⟩
      = .ok (l.nodes nodesOf (pos + Text.byteSize gap),
        ⟨tail, pos + Text.byteSize gap + Text.byteSize l.text, passed⟩) := by
  obtain ⟨hopening, hclosing, hcomma⟩ := h.marks
  obtain ⟨opened, hfirst⟩ := mark_behind_gap env hgap hopening (l.inside ++ l.closing :: tail) pos
    comments
  -- Each slot takes a character at least, so the fuel does not run out.
  have hfuel : l.slots.length < (l.inside ++ l.closing :: tail).length + 1 := by
    have hlength := length_le_joinWith ',' (l.slots.map Slot.text ++ l.tail?.toList)
    simp only [List.length_append, List.length_map, List.length_cons, inside] at hlength ⊢
    omega
  obtain ⟨gap', stop, passed, hgap', hstop, hloop⟩ := growFuel_slots hclosing hcomma hrule h.tail
    (fun s hs => ⟨h.gaps s hs, hentries s.entry (List.mem_map_of_mem hs)⟩) hfuel tail
    (pos + Text.byteSize gap + 1) opened []
  obtain ⟨closed, hlast⟩ := mark_behind_gap env hgap' hclosing tail stop passed
  have hinside : enclosed (untilMark (String.ofList [l.closing]) rule) env
      ⟨l.inside ++ l.closing :: tail, pos + Text.byteSize gap + 1, opened⟩
      = .ok (slotNodes nodesOf l.tail? (pos + Text.byteSize gap + 1) l.slots,
        ⟨gap' ++ l.closing :: tail, stop, passed⟩) := hloop
  refine ⟨closed, ?_⟩
  -- The three parts follow one another; what is left is that their sizes add up.
  rw [show gap ++ l.text ++ tail = gap ++ l.opening :: (l.inside ++ l.closing :: tail) by
    simp [text], bracketed, bind_of_ok hfirst, bind_of_ok hinside, bind_of_ok hlast]
  have hsize : Text.byteSize l.text = 1 + (Text.byteSize l.inside + 1) := by
    rw [text, List.cons_append, Text.byteSize_cons, Text.byteSize_append, Text.byteSize_cons,
      (of_mem_listMarks hopening []).1, (of_mem_listMarks hclosing []).1]
    rfl
  have hend : pos + Text.byteSize gap + Text.byteSize l.text
      = stop + Text.byteSize gap' + 1 := by
    rw [hstop, hsize, inside]
    omega
  rw [hend, hstop, nodes, inside]
  rfl

/-- Every item of a list may have to be there. -/
theorem IsWellWritten.read_commaList (h : l.IsWellWritten)
    (hentries : ∀ e ∈ l.entries, Reads item (between env) l.closing e (nodesOf e))
    (hgap : IsGap gap) (tail : List Char) (pos : Nat) (comments : List Node) :
    ∃ passed, bracketed (String.ofList [l.opening]) (String.ofList [l.closing])
        (commaList (String.ofList [l.closing]) item) env ⟨gap ++ l.text ++ tail, pos, comments⟩
      = .ok (l.nodes nodesOf (pos + Text.byteSize gap),
        ⟨tail, pos + Text.byteSize gap + Text.byteSize l.text, passed⟩) :=
  h.read hentries (fun _ _ => rfl) hgap tail pos comments

/-- Or some of them may be left out. -/
theorem IsWellWritten.read_sparseList (h : l.IsWellWritten)
    (hentries : ∀ e ∈ l.entries, Reads item (between env) l.closing e (nodesOf e))
    (hgap : IsGap gap) (tail : List Char) (pos : Nat) (comments : List Node) :
    ∃ passed, bracketed (String.ofList [l.opening]) (String.ofList [l.closing])
        (sparseList (String.ofList [l.closing]) item) env ⟨gap ++ l.text ++ tail, pos, comments⟩
      = .ok (l.nodes nodesOf (pos + Text.byteSize gap),
        ⟨tail, pos + Text.byteSize gap + Text.byteSize l.text, passed⟩) := by
  refine h.read hentries (fun r hr => ?_) hgap tail pos comments
  have hmark : isMark "," (between env) r = .ok (false, r) := by
    show Except.ok (decide (Ahead.of r.skip.rest = .mark ","), r) = _
    rw [decide_eq_false hr]
  rw [bind_of_ok hmark]
  rfl

end WrittenList

/-! ### Lists of names -/

/-- A name that is no word of the language. -/
structure IsFreeName (name : List Char) : Prop where
  /-- It starts as a name does. -/
  start : ∀ c ∈ name.head?, isNameStart c = true
  /-- It has a first character. -/
  ne_nil : name ≠ []
  /-- All of its characters may stand in a name. -/
  chars : ∀ c ∈ name, isNameChar c = true
  /-- The language does not use it. -/
  free : isFree (String.ofList name) = true

-- Through the characters of the name, not through all characters there are.
instance (name : List Char) : Decidable (IsFreeName name) :=
  decidable_of_iff ((name.head?.all isNameStart = true) ∧ name ≠ [] ∧ name.all isNameChar = true
      ∧ isFree (String.ofList name) = true)
    ⟨fun ⟨h1, h2, h3, h4⟩ => ⟨fun c hc => by rw [hc] at h1; exact h1, h2,
      List.all_eq_true.mp h3, h4⟩,
     fun h => ⟨by
      cases hhead : name.head? with
      | none => rfl
      | some c => exact h.start c hhead, h.ne_nil, List.all_eq_true.mpr h.chars, h.free⟩⟩

/-- A character that starts a name starts a word. -/
theorem ahead_of_isNameStart {c : Char} (h : isNameStart c = true) (cs : List Char) :
    Ahead.of (c :: cs) = .word (String.ofList ((c :: cs).takeWhile isNameChar)) := by
  have hdigit : isDigit c = false := by
    simp only [isNameStart, Bool.and_eq_true, Bool.not_eq_true'] at h
    exact h.2
  have hdot : c ≠ '.' := by
    rintro rfl
    cases h
  have hnumber : ¬ (isDigit c = true ∨ (c = '.' ∧ cs.head?.any isDigit = true)) := by
    rw [hdigit]
    rintro (h | ⟨h, -⟩)
    · cases h
    · exact hdot h
  rw [Ahead.of, if_neg hnumber, if_pos h]

/-- A name ends in front of a gap with a mark behind it. -/
theorem IsGap.head_not_isNameChar {gap : List Char} (hgap : IsGap gap) {c : Char}
    (hc : c ∈ listMarks) (tail : List Char) :
    ∀ d ∈ (gap ++ c :: tail).head?, isNameChar d = false := by
  have hslash : isNameChar '/' = false := by decide
  intro d hd
  cases hgap with
  | nil =>
      obtain rfl : c = d := by simpa using hd
      simp only [listMarks, List.mem_cons, List.not_mem_nil, or_false] at hc
      rcases hc with rfl | rfl | rfl | rfl | rfl | rfl | rfl <;> decide
  | @blank b gap hb =>
      obtain rfl : b = d := by simpa using hd
      rw [isNameChar, hb]
      rfl
  | block | line =>
      obtain rfl : '/' = d := by simpa using hd
      exact hslash

namespace IsFreeName

variable {name : List Char}

/-- A name starts with a character that starts names. -/
theorem exists_cons (h : IsFreeName name) :
    ∃ c cs, name = c :: cs ∧ isNameStart c = true := by
  obtain ⟨c, cs, rfl⟩ := List.exists_cons_of_ne_nil h.ne_nil
  exact ⟨c, cs, rfl, h.start c rfl⟩

/-- A name starts a token. -/
theorem atToken (h : IsFreeName name) (tail : List Char) : AtToken (name ++ tail) := by
  obtain ⟨c, cs, rfl, hc⟩ := h.exists_cons
  refine .cons ?_ ?_ _
  · simp only [isNameStart, isNameChar, Bool.and_eq_true, Bool.not_eq_true'] at hc
    exact hc.1.1.1
  · rintro rfl
    cases hc

/-- A name is a word as far as it goes. -/
theorem ahead (h : IsFreeName name) {tail : List Char}
    (htail : ∀ c ∈ tail.head?, isNameChar c = false) :
    Ahead.of (name ++ tail) = .word (String.ofList name) := by
  have htake : (name ++ tail).takeWhile isNameChar = name := by
    rw [List.takeWhile_append_of_pos h.chars]
    cases tail with
    | nil => simp
    | cons c tail =>
        have hc : ¬ isNameChar c = true := by simp [htail c rfl]
        rw [List.takeWhile_cons_of_neg hc, List.append_nil]
  obtain ⟨c, cs, rfl, hc⟩ := h.exists_cons
  rw [List.cons_append, ahead_of_isNameStart hc, ← List.cons_append, htake]

end IsFreeName

namespace Parser

variable {env : Surroundings} {name front : List Char}

/-- The node of an imported name. -/
def importedName (name : List Char) (pos : Nat) : List Node :=
  [Node.branch .importSpecifier
    [(Node.leaf (.construct .identifier) pos (String.ofList name)).inRole .name]]

section FreeName

variable {rest : List Char} {stop : Nat} {passed : List Node} {r : Reader}
  (hname : IsFreeName name) (hskip : r.skip = ⟨name ++ rest, stop, passed⟩)
  (hrest : ∀ c ∈ rest.head?, isNameChar c = false)

include hname hskip hrest

/-- The name is what the reader stands in front of. -/
theorem ahead_freeName : ahead env r = .ok (.word (String.ofList name), r) := by
  rw [ahead, hskip, hname.ahead hrest]

/-- It is read as a whole. -/
theorem anyName_freeName :
    anyName .identifier env r
      = .ok (Node.leaf (.construct .identifier) stop (String.ofList name),
        ⟨rest, stop + Text.byteSize name, passed⟩) := by
  rw [anyName, bind_of_ok (ahead_freeName hname hskip hrest)]
  show (leaf _ _ : Parser Node) env r.skip = _
  rw [hskip, leaf]
  show Except.ok (_, (⟨(name ++ rest).drop _, _, _⟩ : Reader)) = _
  rw [String.toList_ofList, List.drop_left]

/-- A list may name it, since it is neither a string nor a word of the
language. -/
theorem listedName_freeName : listedName env r = anyName .identifier env r := by
  have hahead : ahead env r = _ := ahead_freeName hname hskip hrest
  have hstring : isStringAhead env r = .ok (false, r) := by
    rw [isStringAhead, bind_of_ok hahead]
    rfl
  have hdefault : Ahead.word (String.ofList name) ≠ .word "default" := by
    intro h
    have hfree := hname.free
    rw [Ahead.word.inj h] at hfree
    cases hfree
  rw [listedName, bind_of_ok hstring]
  show (Parser.ahead >>= _ : Parser Node) env r = _
  rw [bind_of_ok hahead]
  generalize Ahead.word (String.ofList name) = a at hdefault
  split
  · exact absurd rfl hdefault
  · rfl

end FreeName

/-- **A name is read as an entry of an import list**, whatever gaps stand
around it. -/
theorem reads_importSpecifier (hplain : env.dialect = .plain) (hname : IsFreeName name) :
    Reads (do return [← importSpecifier]) env '\x7d' name (importedName name) where
  atToken := hname.atToken
  ahead := by
    intro tail
    obtain ⟨c, cs, rfl, hc⟩ := hname.exists_cons
    rw [List.cons_append, ahead_of_isNameStart hc]
    simp
  read := by
    intro front behind c hfront hbehind hc tail pos comments
    have hmark : c ∈ listMarks := by
      simp only [List.mem_cons, List.not_mem_nil, or_false] at hc
      rcases hc with rfl | rfl <;> decide
    obtain ⟨passed, hskip⟩ := Reader.skip_gap hfront (hname.atToken (behind ++ c :: tail)) pos
      comments
    -- Behind the name comes a gap and a mark, so the name ends where it was written.
    have hend := hbehind.head_not_isNameChar hmark tail
    refine ⟨passed, ?_⟩
    rw [List.append_assoc]
    generalize (⟨front ++ (name ++ (behind ++ c :: tail)), pos, comments⟩ : Reader) = r at hskip ⊢
    have hlisted : listedName env r = _ :=
      (listedName_freeName hname hskip hend).trans (anyName_freeName hname hskip hend)
    rw [Nat.add_assoc, ← Text.byteSize_append] at hlisted
    -- In the plain dialect no word in front marks a type.
    have htyped : typed env r = .ok (false, r) := by
      rw [typed, hplain]
      rfl
    have hmarker : typeMarker? env r = .ok ([], r) := by
      rw [typeMarker?, bind_of_ok htyped]
      rfl
    -- The word for another name is not ahead, but a mark.
    have hlast : isWord "as" env
        ⟨behind ++ c :: tail, pos + Text.byteSize (front ++ name), passed⟩
        = .ok (false, ⟨behind ++ c :: tail, pos + Text.byteSize (front ++ name), passed⟩) := by
      show Except.ok (decide (Ahead.of (Reader.skip _).rest = .word "as"), _) = _
      rw [ahead_behind_gap hbehind hmark]
      rfl
    have hspecifier : importSpecifier env r
        = .ok (Node.branch .importSpecifier [(Node.leaf (.construct .identifier)
            (pos + Text.byteSize front) (String.ofList name)).inRole .name],
          ⟨behind ++ c :: tail, pos + Text.byteSize (front ++ name), passed⟩) := by
      rw [importSpecifier, bind_of_ok hmarker, bind_of_ok hlisted, bind_of_ok hlast]
      show (require (true && isFree (String.ofList name)) >>= fun _ => pure _ : Parser Node) env _
        = _
      rw [hname.free]
      rfl
    rw [bind_of_ok hspecifier]
    rfl

/-- So imported names in braces are read, however they are laid out. -/
theorem namedImports_of {l : WrittenList} {gap : List Char} (h : l.IsWellWritten)
    (hopening : l.opening = '\x7b') (hnames : ∀ name ∈ l.entries, IsFreeName name)
    (hplain : env.dialect = .plain) (hgap : IsGap gap) (tail : List Char) (pos : Nat)
    (comments : List Node) :
    ∃ passed, namedImports env ⟨gap ++ l.text ++ tail, pos, comments⟩
      = .ok (Node.branch .namedImports (l.nodes importedName (pos + Text.byteSize gap)),
        ⟨tail, pos + Text.byteSize gap + Text.byteSize l.text, passed⟩) := by
  have hclosing : l.closing = '\x7d' := by
    have hbrackets := h.brackets
    rw [hopening] at hbrackets
    simpa [WrittenList.brackets] using hbrackets
  have hreads : ∀ name ∈ l.entries, Reads (do return [← importSpecifier])
      (WrittenList.between env) l.closing name (importedName name) := by
    rw [hclosing]
    exact fun name hname => reads_importSpecifier hplain (hnames name hname)
  obtain ⟨passed, hread⟩ := h.read_commaList hreads hgap tail pos comments
  rw [hopening, hclosing] at hread
  refine ⟨passed, ?_⟩
  rw [namedImports]
  exact bind_of_ok hread

end Parser

end ScriptRefactor.Grammar
