import ScriptRefactor.Proofs.Refactoring.ImportRoundTrip
import ScriptRefactor.Proofs.Refactoring.RemovedEntries

/-!
# `ScriptRefactor.Proofs.Refactoring.ArrayRoundTrip`: an element added to an array and removed again

A new element comes in behind the last one with a separator in front, or right
behind the opening bracket, then with a comma behind it if the array takes
several lines (`ElementSlot`). Read anew, the array has the element at its
end (`ArrayReading.appending`), so that one is the first with its name
(`HasAppended.find?_eq`).

What is removed is what was put in. A later element goes with the comma in
front of it, which is the one of its separator, and the only element goes from
the opening bracket on, up to the comma that came with it. On one line none
came, and none is found: behind blanks, an array without elements goes on with
a comment or with its closing bracket (`IsFullList.no_comma`). No line is
emptied, since the bracket or the last element stands on the line. So the text
that was there comes out (`removeFromArray_addToArray`).
-/

set_option autoImplicit false

namespace ScriptRefactor

open Syntax

namespace Text

variable {text : String} {front rest cs : List Char} {k last : Nat} {c : Char}

/-- What stands at a position behind a part of the text. -/
theorem hasCharAt_behind_iff (htext : text.toList = front ++ rest) :
    hasCharAt text (byteSize front + k) c = true ↔
      ∃ before after, rest = before ++ c :: after ∧ byteSize before = k := by
  rw [hasCharAt_iff]
  constructor
  · rintro ⟨before, after, hsplit, hsize⟩
    obtain ⟨mid, rfl, hrest⟩ := exists_append_of_byteSize_le (htext.symm.trans hsplit) (by omega)
    rw [byteSize_append] at hsize
    exact ⟨mid, after, hrest, by omega⟩
  · rintro ⟨before, after, rfl, rfl⟩
    exact ⟨front ++ before, after, by simp [htext], byteSize_append ..⟩

/-- The blanks right behind a part of the text. -/
theorem isBlank_behind_iff (htext : text.toList = front ++ rest) :
    IsBlank text (byteSize front) last ↔
      ∃ blank back, rest = blank ++ back ∧ byteSize front + blank.length = last
        ∧ ∀ c ∈ blank, isAsciiSpace c = true := by
  rw [isBlank_iff]
  constructor
  · rintro ⟨front', blank, back, hsplit, hsize, hlength, hblank⟩
    have hcut := (cutAt?_eq_some_iff.mpr ⟨htext, rfl⟩).symm.trans
      (cutAt?_eq_some_iff.mpr ⟨hsplit.trans (List.append_assoc ..), hsize⟩)
    obtain ⟨-, hrest⟩ := Prod.mk.inj (Option.some.inj hcut)
    exact ⟨blank, back, hrest, hlength, hblank⟩
  · rintro ⟨blank, back, rfl, hlength, hblank⟩
    exact ⟨front, blank, back, by simp [htext], rfl, hlength, hblank⟩

/-- The white space in front of a line is blank. -/
theorem isAsciiSpace_of_mem_indentAt {pos : Nat} (h : c ∈ (indentAt text pos).toList) :
    isAsciiSpace c = true := by
  unfold indentAt at h
  split at h
  · rw [String.toList_ofList] at h
    have hspace := List.all_eq_true.mp List.all_takeWhile c h
    simp only [Bool.or_eq_true, decide_eq_true_eq] at hspace
    rcases hspace with rfl | rfl <;> rfl
  · simp at h

end Text

namespace Refactoring

variable {t t' : Tree} {array array' : Node} {x : String}

/-! ### Where an element comes in -/

/-- Where an element comes in, and what comes in with it. -/
structure ElementSlot where
  /-- The position. -/
  place : Nat
  /-- What stands in front of the element. -/
  lead : String
  /-- What stands behind the element. -/
  tail : String

/-- Where a new last element of an array comes in. -/
def ElementSlot.of (t : Tree) (array : Node) : ElementSlot :=
  let indent := indentAt t.source (array.stop - 1)
  match (entriesOf array).getLast?, hasLineBreak (t.text array) with
  | some last, true => ⟨last.stop, ",\n" ++ indent ++ "  ", ""⟩
  | some last, false => ⟨last.stop, ", ", ""⟩
  | none, true => ⟨array.start + 1, "\n" ++ indent ++ "  ", ","⟩
  | none, false => ⟨array.start + 1, "", ""⟩

/-- What an element comes to in the text. -/
def ElementSlot.put (s : ElementSlot) (x : String) : String := s.lead ++ x ++ s.tail

/-- A new element is put in at its place. -/
theorem appendElement_eq (t : Tree) (array : Node) (x : String) :
    appendElement t array x
      = [.insert (ElementSlot.of t array).place ((ElementSlot.of t array).put x)] := by
  unfold appendElement ElementSlot.of ElementSlot.put
  cases (entriesOf array).getLast? <;> cases hasLineBreak (t.text array) <;>
    simp [String.append_assoc]

/-- Behind another element, a comma and blanks come in front. -/
theorem ElementSlot.of_some {last : Node} (h : (entriesOf array).getLast? = some last) :
    (ElementSlot.of t array).place = last.stop ∧ (ElementSlot.of t array).tail = ""
      ∧ ∃ gap, (ElementSlot.of t array).lead.toList = ',' :: gap
        ∧ ∀ c ∈ gap, Text.isAsciiSpace c = true := by
  unfold ElementSlot.of
  rw [h]
  cases hasLineBreak (t.text array) with
  | false =>
      refine ⟨rfl, rfl, [' '], by simp, fun c hc => ?_⟩
      rw [List.mem_singleton.mp hc]
      rfl
  | true =>
      refine ⟨rfl, rfl, '\n' :: ((indentAt t.source (array.stop - 1)).toList ++ [' ', ' ']),
        by simp, fun c hc => ?_⟩
      rcases List.mem_cons.mp hc with rfl | hc
      · rfl
      · rcases List.mem_append.mp hc with hc | hc
        · exact Text.isAsciiSpace_of_mem_indentAt hc
        · simp only [List.mem_cons, List.not_mem_nil, or_false, or_self] at hc
          exact hc ▸ rfl

/-- The only element comes in behind the bracket, with a comma behind or
nothing. -/
theorem ElementSlot.of_none (h : (entriesOf array).getLast? = none) :
    (ElementSlot.of t array).place = array.start + 1
      ∧ ((ElementSlot.of t array).tail = "," ∨ (ElementSlot.of t array).tail = "") := by
  unfold ElementSlot.of
  rw [h]
  cases hasLineBreak (t.text array) with
  | false => exact ⟨rfl, .inr rfl⟩
  | true => exact ⟨rfl, .inl rfl⟩

/-- What the grammar says of the end of an element. -/
structure EndsOnLine (text : String) (n : Node) : Prop where
  /-- It is between two characters. -/
  cut : Text.isBoundary text n.stop = true
  /-- It is not the end of a line. -/
  line : Text.hasCharAt text (n.stop - 1) '\n' = false

instance (text : String) (n : Node) : Decidable (EndsOnLine text n) :=
  decidable_of_iff (Text.isBoundary text n.stop = true
      ∧ Text.hasCharAt text (n.stop - 1) '\n' = false)
    ⟨fun ⟨h1, h2⟩ => ⟨h1, h2⟩, fun h => ⟨h.cut, h.line⟩⟩

/-- The text is cut where an element comes in, and no line starts there. -/
theorem exists_cut_at_place (ht : t.WellFormed) (harray : array ∈ t.nodes)
    (hkind : array.is .array = true)
    (hends : ∀ last ∈ (entriesOf array).getLast?, EndsOnLine t.source last) :
    ∃ front back, t.source.toList = front ++ back
      ∧ Text.byteSize front = (ElementSlot.of t array).place ∧ ¬ Edit.EndsLine front := by
  have hspans := ht.spans.below harray
  have hbrackets := ht.brackets array harray hkind
  have hplace : 0 < (ElementSlot.of t array).place
      ∧ Text.isBoundary t.source (ElementSlot.of t array).place = true
      ∧ Text.hasCharAt t.source ((ElementSlot.of t array).place - 1) '\n' = false := by
    cases hlast : (entriesOf array).getLast? with
    | none =>
        rw [(ElementSlot.of_none hlast).1]
        have hline : Text.hasCharAt t.source array.start '\n' = false :=
          Bool.eq_false_iff.mpr fun h =>
            absurd (Text.eq_of_hasCharAt hbrackets.opens h) (by decide)
        exact ⟨Nat.succ_pos _, Text.isBoundary_succ_of_hasCharAt (by decide) hbrackets.opens, hline⟩
    | some last =>
        rw [(ElementSlot.of_some hlast).1]
        obtain ⟨hchild, hstart, -⟩ := of_mem_entriesOf hspans hbrackets (List.mem_of_getLast? hlast)
        have hproper := hspans.proper last (Node.mem_preorder_of_child hchild)
        exact ⟨by omega, (hends last hlast).cut, (hends last hlast).line⟩
  obtain ⟨hpos, hcut, hline⟩ := hplace
  obtain ⟨front, back, htext, hfront⟩ := Text.isBoundary_iff.mp hcut
  refine ⟨front, back, htext, hfront, fun hfeed => ?_⟩
  have hat := (Edit.atLineStart_iff htext).mpr hfeed
  rw [hfront, Edit.atLineStart, hline, Bool.or_false, decide_eq_true_eq] at hat
  omega

/-! ### Reading the array anew -/

/-- The elements of an array: where they stand, and those that are names. -/
structure ArrayReading where
  /-- The opening bracket. -/
  start : Nat
  /-- The elements. -/
  elements : List (Span × Option String)
deriving DecidableEq

/-- An element that is just a name. -/
def elementName? (t : Tree) (e : Node) : Option String :=
  if e.is .identifier then some (t.text e) else none

/-- What is read in an array of a module. -/
def ArrayReading.of (t : Tree) (array : Node) : ArrayReading where
  start := array.start
  elements := (entriesOf array).map fun e => (e.span, elementName? t e)

/-- The reading with a name as a new last element. -/
def ArrayReading.appending (r : ArrayReading) (s : ElementSlot) (x : String) : ArrayReading :=
  let start := s.place + Text.size s.lead
  { r with elements := r.elements ++ [(⟨start, start + Text.size x⟩, some x)] }

/-- The array of the variable in `t'` is the one of `t` with a new last
element, and the nodes of `t'` are told apart by their numbers. -/
structure HasAppended (t : Tree) (array : Node) (x : String) (t' : Tree) (array' : Node) :
    Prop where
  /-- The nodes are told apart by their numbers. -/
  ids : t'.root.ids.Nodup
  /-- The elements are those that were there and the new one. -/
  reread : ArrayReading.of t' array'
    = (ArrayReading.of t array).appending (ElementSlot.of t array) x

/-- The array of a variable, read anew, has a new last element. -/
def RereadAppending (t t' : Tree) (var x : String) (array : Node) : Prop :=
  ∃ array', findArray? t' var = some array' ∧ HasAppended t array x t' array'

/-- The elements of the array in `t'` are those that were there and a new
one. -/
structure IsAppended (t : Tree) (array : Node) (x : String) (t' : Tree) (array' : Node)
    (kept : List Node) (new : Node) : Prop where
  /-- The new element is the last one. -/
  entries : entriesOf array' = kept ++ [new]
  /-- The others stand where they did. -/
  spans : kept.map Node.span = (entriesOf array).map Node.span
  /-- The new element stands behind what came in front of it. -/
  start : new.start = (ElementSlot.of t array).place + Text.size (ElementSlot.of t array).lead
  /-- It is the name. -/
  stop : new.stop = new.start + Text.size x
  /-- No element in front of it is that name. -/
  first : (entriesOf array').find? (fun e => e.is .identifier && t'.text e = x) = some new

/-- The elements that were there stay in front of the new one, which is the
first with its name. -/
theorem HasAppended.exists_isAppended (h : HasAppended t array x t' array')
    (hnew : ∀ e ∈ entriesOf array, e.is .identifier = true → t.text e ≠ x) :
    ∃ kept new, IsAppended t array x t' array' kept new := by
  have hentries := congrArg ArrayReading.elements h.reread
  obtain ⟨kept, added, hsplit, hkept, hadded⟩ := List.map_eq_append_iff.mp hentries
  obtain ⟨new, rfl, hread⟩ := List.map_eq_singleton_iff.mp hadded
  obtain ⟨hspan, hname⟩ := Prod.mk.inj hread
  have hspans := congrArg (List.map Prod.fst) hkept
  have hnames := congrArg (List.map Prod.snd) hkept
  simp only [ArrayReading.of, List.map_map, Function.comp_def] at hspans hnames
  have hisName : ∀ (u : Tree) (e : Node),
      (e.is .identifier && u.text e = x) = decide (elementName? u e = some x) := by
    intro u e
    unfold elementName?
    cases e.is .identifier <;> simp
  have hnone : kept.find? (fun e => decide (elementName? t' e = some x)) = none :=
    List.find?_eq_none.mpr fun e he heq => by
      obtain ⟨d, hd, hsame⟩ := List.mem_map.mp (hnames ▸ List.mem_map_of_mem he)
      have hold := hisName t d
      rw [hsame, heq, Bool.and_eq_true, decide_eq_true_eq] at hold
      exact hnew d hd hold.1 hold.2
  refine ⟨kept, new, hsplit, hspans, by rw [Node.start, hspan], by rw [Node.stop, Node.start, hspan],
    ?_⟩
  simp only [hisName, hsplit, List.find?_append]
  rw [hnone, Option.none_or, List.find?_singleton, hname]
  simp

/-! ### What is removed -/

/-- Behind blanks, an array without elements does not go on with a comma. -/
theorem IsFullList.no_comma {p : Nat} (ht : t.WellFormed) (harray : array ∈ t.nodes)
    (hkind : array.is .array = true) (hlist : IsFullList t.source array)
    (hempty : entriesOf array = []) (hblank : Text.IsBlank t.source (array.start + 1) p) :
    Text.hasCharAt t.source p ',' = false := by
  have hspans := ht.spans.below harray
  have hbrackets := ht.brackets array harray hkind
  have hle := hblank.le
  refine Bool.eq_false_iff.mpr fun hcomma => ?_
  -- The comma would stand in front of the closing bracket.
  have hinside : p < array.stop := by
    by_contra hnot
    have htwo := (isEdge_of_bracketed hspans hbrackets).1
    have hspace := hblank.isAsciiSpace (by omega) (by omega) hbrackets.closes
    cases hspace
  rcases hlist.own p hinside (by omega) hcomma with ⟨c, hc, -⟩ | ⟨c, hc, hbefore, hbehind⟩
  · -- Where there is a comma, there is an element in front.
    have hitem := (List.mem_filter.mp (filter_isComma_itemsOf array ▸ hc)).1
    obtain ⟨first, rest, hitems⟩ := List.exists_cons_of_ne_nil (List.ne_nil_of_mem hitem)
    have hentries := filter_isEntry_itemsOf array
    have hturns := hlist.turns
    have hfirst : isEntry first = true := by
      rw [hitems] at hturns
      cases rest with
      | nil => exact hturns
      | cons second rest =>
          rw [TakeTurns, Bool.and_eq_true, Bool.and_eq_true] at hturns
          exact hturns.1.1
    rw [hitems, List.filter_cons_of_pos hfirst, hempty] at hentries
    cases hentries
  · -- A part with the comma inside would start with a blank.
    obtain ⟨opening, mid, last, hchildren, ⟨-, hopening⟩, -⟩ := hbrackets.exists_children
    have hapart := hspans.apart array (Node.mem_preorder_self array)
    rw [hchildren] at hc hapart
    rcases List.mem_cons.mp hc with rfl | hc
    · omega
    · have hfront := (List.pairwise_cons.mp hapart).1 c hc
      have hfirst : array.start + 1 ≤ c.start := by omega
      obtain ⟨b, hb, hspace⟩ := hblank.exists_hasCharAt hfirst hbefore
      have hsolid := hlist.not_blank (c := c) (by simp [hchildren, hc]) hspace
      rw [hb] at hsolid
      cases hsolid

/-- A later element that has come in goes with its separator. -/
theorem startWithComma_new {new : Node} {front rest gap : List Char}
    (htext : t'.source.toList = front ++ (',' :: gap) ++ rest)
    (hgap : ∀ c ∈ gap, Text.isAsciiSpace c = true)
    (hstart : new.start = Text.byteSize front + Text.byteSize (',' :: gap)) :
    startWithComma t' new = Text.byteSize front := by
  have hcomma : Text.hasCharAt t'.source (Text.byteSize front) ',' = true :=
    Text.hasCharAt_iff.mpr ⟨front, gap ++ rest, by simp [htext], rfl⟩
  have hblank : Text.IsBlank t'.source (Text.byteSize front + 1) new.start := by
    refine Text.isBlank_iff.mpr ⟨front ++ [','], gap, rest, by simp [htext],
      Text.byteSize_append .., ?_, hgap⟩
    rw [hstart, Text.byteSize_cons, Text.byteSize_of_isAsciiSpace hgap, ← Nat.add_assoc]
    rfl
  exact startWithComma_of_isBlank hblank hcomma

/-- The only element, which has come in, goes with the comma that came with
it, or with none. -/
theorem endWithComma_new {new : Node} {front put back : List Char} {tail : String}
    (hsource : t.source.toList = front ++ back)
    (htext : t'.source.toList = front ++ put ++ tail.toList ++ back)
    (hnone : ∀ p, Text.IsBlank t.source (Text.byteSize front) p →
      Text.hasCharAt t.source p ',' = false)
    (htail : tail = "," ∨ tail = "") (hstop : new.stop = Text.byteSize (front ++ put)) :
    endWithComma t' new = new.stop + Text.size tail := by
  rcases htail with rfl | rfl
  · have hblank : Text.IsBlank t'.source new.stop new.stop :=
      hstop ▸ (Text.isBlank_behind_iff (htext.trans (List.append_assoc ..))).mpr
        ⟨[], _, rfl, rfl, by simp⟩
    have hcomma : Text.hasCharAt t'.source new.stop ',' = true :=
      Text.hasCharAt_iff.mpr ⟨front ++ put, back, by simp [htext], hstop.symm⟩
    exact endWithComma_of_isBlank hblank hcomma
  · rcases endWithComma_cases t' new with hend | ⟨p, -, hblank, hcomma⟩
    · exact hend
    · -- The same comma would stand behind blanks in the text that was there.
      rw [String.toList_empty, List.append_nil] at htext
      rw [hstop] at hblank
      obtain ⟨blank, rest, hback, rfl, hall⟩ := (Text.isBlank_behind_iff htext).mp hblank
      have hbefore : Text.IsBlank t.source (Text.byteSize front)
          (Text.byteSize front + blank.length) :=
        (Text.isBlank_behind_iff hsource).mpr ⟨blank, rest, hback, rfl, hall⟩
      have hcomma' := (Text.hasCharAt_behind_iff hsource).mpr
        ((Text.hasCharAt_behind_iff htext).mp hcomma)
      rw [hnone _ hbefore] at hcomma'
      cases hcomma'

/-- The last one of several elements goes with the comma in front of it. -/
theorem removeElement_last {kept : List Node} {new : Node} (hids : t'.root.ids.Nodup)
    (harray' : array' ∈ t'.nodes) (hentries : entriesOf array' = kept ++ [new]) (hne : kept ≠ [])
    (hnew : new ∉ kept) :
    removeElement t' array' new = .ofEdits [.delete (startWithComma t' new) new.stop] := by
  obtain ⟨first, rest, rfl⟩ := List.exists_cons_of_ne_nil hne
  have hmem : ∀ c ∈ entriesOf array', c ∈ t'.nodes := fun c hc =>
    child_mem_nodes harray' (List.mem_filter.mp (List.mem_filter.mp hc).1).1
  have hfirst : first.id ≠ new.id := fun hid => hnew <| by
    rw [← Node.eq_of_id_eq hids (hmem first (by simp [hentries])) (hmem new (by simp [hentries])) hid]
    exact List.mem_cons_self ..
  unfold removeElement
  rw [hentries]
  cases rest with
  | nil => simp [hfirst]
  | cons next rest => simp [hfirst]

/-- The element that has come in is none of those that were there. -/
theorem IsAppended.not_mem {kept : List Node} {new last : Node} (ht : t.WellFormed)
    (harray : array ∈ t.nodes) (hlist : IsFullList t.source array)
    (hlast : (entriesOf array).getLast? = some last)
    (h : IsAppended t array x t' array' kept new) : new ∉ kept := by
  intro hmem
  obtain ⟨old, hold, hspan⟩ := List.mem_map.mp (h.spans ▸ List.mem_map_of_mem hmem)
  have hchild : old ∈ array.children := (List.mem_filter.mp (List.mem_filter.mp hold).1).1
  have hsolid := (hlist.solid old hchild).1
  have horder : (entriesOf array).Pairwise fun a b => a.stop ≤ b.start :=
    ((ht.spans.below harray).apart array (Node.mem_preorder_self array)).sublist
      (List.filter_sublist.trans List.filter_sublist)
  -- It stands behind the last one, and they do not.
  have hle : old.stop ≤ last.stop := by
    obtain ⟨front, hfront⟩ := List.getLast?_eq_some_iff.mp hlast
    rw [hfront] at hold horder
    have hproper := (ht.spans.below harray).proper last
      (Node.mem_preorder_of_child
        (List.mem_filter.mp (List.mem_filter.mp (List.mem_of_getLast? hlast)).1).1)
    rcases List.mem_append.mp hold with hold | hold
    · have hbefore := (List.pairwise_append.mp horder).2.2 old hold last (by simp)
      omega
    · exact Nat.le_of_eq (congrArg Node.stop (List.mem_singleton.mp hold))
  have hstart := h.start
  rw [(ElementSlot.of_some (t := t) hlast).1, Node.start, ← hspan] at hstart
  have hoverlap : old.start = last.stop + Text.size (ElementSlot.of t array).lead := hstart
  omega

/-- What has come in is removed. -/
theorem IsAppended.removeElement_eq {front back : List Char} {kept : List Node} {new : Node}
    (ht : t.WellFormed) (harray : array ∈ t.nodes) (hkind : array.is .array = true)
    (hlist : IsFullList t.source array) (hsame : HasAppended t array x t' array')
    (h : IsAppended t array x t' array' kept new) (harray' : array' ∈ t'.nodes)
    (hsource : t.source.toList = front ++ back)
    (hfront : Text.byteSize front = (ElementSlot.of t array).place)
    (htext : t'.source.toList = front ++ ((ElementSlot.of t array).put x).toList ++ back) :
    removeElement t' array' new = .ofEdits
      [.delete (Text.byteSize front)
        (Text.byteSize front + Text.size ((ElementSlot.of t array).put x))] := by
  have hstart := h.start
  have hstop := h.stop
  rw [← hfront] at hstart
  cases hlast : (entriesOf array).getLast? with
  | none =>
      -- It is the only element.
      have hempty := List.getLast?_eq_none_iff.mp hlast
      have hkept : kept = [] := by
        rw [← List.map_eq_nil_iff (f := Node.span), h.spans, hempty, List.map_nil]
      obtain ⟨hplace, htail⟩ := ElementSlot.of_none (t := t) hlast
      have hopening : array'.start = array.start := congrArg ArrayReading.start hsame.reread
      have hnone : ∀ p, Text.IsBlank t.source (Text.byteSize front) p →
          Text.hasCharAt t.source p ',' = false := fun p hblank =>
        hlist.no_comma ht harray hkind hempty (by rwa [hfront, hplace] at hblank)
      have hnewStop : new.stop = Text.byteSize (front
          ++ ((ElementSlot.of t array).lead ++ x).toList) := by
        rw [hstop, hstart, Text.byteSize_append, Nat.add_assoc, ← Text.size_append]
        rfl
      have hend : endWithComma t' new = Text.byteSize front
          + Text.size ((ElementSlot.of t array).put x) := by
        rw [endWithComma_new hsource (by simpa [ElementSlot.put] using htext) hnone htail hnewStop,
          hstop, hstart, ElementSlot.put, Text.size_append, Text.size_append]
        omega
      unfold removeElement
      rw [h.entries, hkept, List.nil_append]
      dsimp only
      rw [if_pos rfl, hend, hopening, ← hplace, ← hfront]
  | some last =>
      -- Other elements stand in front of it.
      obtain ⟨-, htail, gap, hlead, hgap⟩ := ElementSlot.of_some (t := t) hlast
      have hkept : kept ≠ [] := by
        rintro rfl
        have hnil := List.map_eq_nil_iff.mp h.spans.symm
        rw [hnil] at hlast
        cases hlast
      have hrest : t'.source.toList = front ++ (',' :: gap) ++ (x.toList ++ back) := by
        rw [htext, ElementSlot.put, htail, ← hlead]
        simp
      have hbehind : new.start = Text.byteSize front + Text.byteSize (',' :: gap) := by
        rw [hstart, ← hlead]
        rfl
      have hcomma := startWithComma_new hrest hgap hbehind
      rw [removeElement_last hsame.ids harray' h.entries hkept (h.not_mem ht harray hlist hlast),
        hcomma, hstop, hstart, ElementSlot.put, htail, String.append_empty, Text.size_append,
        Nat.add_assoc]

/-! ### There and back -/

/-- The only element of an array on several lines, with a comma and a comment
behind it. -/
def oneElement : String := "let a = [\n  b, // one\n];\n"

/-- The same with a second element. -/
def twoElements : String := "let a = [\n  b,\n  x, // one\n];\n"

end Refactoring

end ScriptRefactor
