import ScriptRefactor.Proofs.Edit.Moved
import ScriptRefactor.Proofs.Grammar.WrittenLists
import ScriptRefactor.Proofs.Refactoring.ArrayRoundTrip

/-!
# `ScriptRefactor.Proofs.Refactoring.GrownLists`: new entries in a list

New entries come in behind the last entry of a list, and one in front of the
first. However the list is laid out, and wherever comments stand in it, a
list comes out, with the old entries between the new ones, single commas
between them, and a comma behind the last one exactly if there was one before
(`append?_grows`).

The layout looks for a comma behind the last entry in what stands there up to
the bracket. A comment may hide the comma from it, but nothing else is ever
taken for one (`eq_of_comma`). So there are two cases only. Either the comma
is seen and the list takes several lines; then the entries come in behind it,
and each brings a comma of its own. Or they come in right behind the last
entry, each with a comma in front; then all that stood behind that entry comes
to stand behind the last new one.
-/

set_option autoImplicit false

namespace ScriptRefactor

open Syntax Grammar

namespace Refactoring

variable {l l' : WrittenList} {t : Tree} {container : Node} {items : List Node}
  {front back : List Char} {slots init : List Slot} {s last : Slot} {entries : List String}

/-! ### Lists in a tree -/

/-- The spans of the entries, from a position on. -/
def slotSpans : Nat → List Slot → List Span
  | _, [] => []
  | pos, s :: rest =>
    ⟨pos + Text.byteSize s.front, pos + Text.byteSize (s.front ++ s.entry)⟩
      :: slotSpans (pos + Text.byteSize s.text + 1) rest

/-- The list stands in the text of a tree, between two parts of the text. The
container is its node, and the items are those of its entries. -/
structure StandsIn (l : WrittenList) (t : Tree) (container : Node) (items : List Node)
    (front back : List Char) : Prop where
  /-- The list is a part of the text. -/
  text : t.source.toList = front ++ l.text ++ back
  /-- The container is where the list is. -/
  span : container.span = ⟨Text.byteSize front, Text.byteSize front + Text.byteSize l.text⟩
  /-- The items are where the entries are. -/
  items : items.map Node.span = slotSpans (Text.byteSize front + l.opening.utf8Size) l.slots

/-- The list up to the end of its last entry, from the opening bracket on. -/
def upToLast (init : List Slot) (last : Slot) : List Char :=
  Text.joinWith [','] (init.map Slot.text ++ [last.front ++ last.entry])

/-- What stands inside a list: the entries, then the gap behind the last one,
then the comma with what is behind it. -/
theorem inside_eq (hslots : l.slots = init ++ [last]) :
    l.inside = upToLast init last ++ last.behind ++ l.tail?.toList.flatMap (',' :: ·) := by
  rw [WrittenList.inside, hslots, List.map_append, Text.joinWith_append _ (by simp), upToLast,
    Text.joinWith_append_last]
  rfl

/-- Where the last entry is. -/
theorem slotSpans_snoc (pos : Nat) (init : List Slot) (last : Slot) :
    ∃ start, slotSpans pos (init ++ [last])
      = slotSpans pos init ++ [⟨start, pos + Text.byteSize (upToLast init last)⟩] := by
  induction init generalizing pos with
  | nil => exact ⟨_, rfl⟩
  | cons s init ih =>
      obtain ⟨start, hstart⟩ := ih (pos + Text.byteSize s.text + 1)
      have hone : (',').utf8Size = 1 := rfl
      have hsize : Text.byteSize (upToLast (s :: init) last)
          = Text.byteSize s.text + (1 + Text.byteSize (upToLast init last)) := by
        rw [upToLast, List.map_cons, List.cons_append, Text.joinWith_cons _ _ (by simp),
          List.append_assoc, Text.byteSize_append, List.singleton_append, Text.byteSize_cons, hone,
          upToLast]
      refine ⟨start, ?_⟩
      rw [List.cons_append, slotSpans, hstart, slotSpans, hsize, List.cons_append]
      simp only [Nat.add_assoc]

/-- The last item stops where the last entry does. -/
theorem StandsIn.last_stop (h : StandsIn l t container items front back)
    (hslots : l.slots = init ++ [last]) :
    ∃ item, items.getLast? = some item ∧
      item.stop = Text.byteSize (front ++ l.opening :: upToLast init last) := by
  obtain ⟨start, hspans⟩ := slotSpans_snoc (Text.byteSize front + l.opening.utf8Size) init last
  have hlast := congrArg List.getLast? h.items
  rw [hslots, hspans, List.getLast?_concat, List.getLast?_map] at hlast
  obtain ⟨item, hitem, hspan⟩ := Option.map_eq_some_iff.mp hlast
  refine ⟨item, hitem, ?_⟩
  rw [Node.stop, hspan, Text.byteSize_append, Text.byteSize_cons, Nat.add_assoc]

/-- The first item starts where the first entry does. -/
theorem StandsIn.first_start (h : StandsIn l t container items front back)
    (hslots : l.slots = s :: slots) :
    ∃ item, items.head? = some item ∧
      item.start = Text.byteSize (front ++ l.opening :: s.front) := by
  have hfirst := congrArg List.head? h.items
  rw [hslots, slotSpans, List.head?_cons, List.head?_map] at hfirst
  obtain ⟨item, hitem, hspan⟩ := Option.map_eq_some_iff.mp hfirst
  refine ⟨item, hitem, ?_⟩
  rw [Node.start, hspan, Text.byteSize_append front, Text.byteSize_cons, Nat.add_assoc]

/-! ### The comma behind the last entry -/

/-- In a gap, no comma comes first behind white space. -/
theorem not_isGap_of_comma {blank rest : List Char} (hblank : ∀ c ∈ blank, Text.isSpace c = true) :
    ¬ IsGap (blank ++ ',' :: rest) := by
  induction blank with
  | nil =>
      intro h
      cases h with
      | blank hc => cases hc
  | cons c blank ih =>
      obtain ⟨hc, hblank⟩ := List.forall_mem_cons.mp hblank
      have hnot := ih hblank
      intro h
      rw [List.cons_append] at h
      generalize blank ++ ',' :: rest = more at h hnot
      cases h with
      | blank _ h => exact hnot h
      | block | line => cases hc

/-- A comma that is seen behind a gap and white space is the first character
behind the gap. -/
theorem eq_of_comma {behind blank rest : List Char} {tail? : Option (List Char)}
    (hbehind : IsGap behind) (hblank : ∀ c ∈ blank, Text.isSpace c = true)
    (h : behind ++ tail?.toList.flatMap (',' :: ·) = blank ++ ',' :: rest) :
    behind = blank ∧ tail? = some rest := by
  rcases List.append_eq_append_iff.mp h with ⟨more, rfl, hrest⟩ | ⟨more, rfl, hrest⟩
  · cases tail? with
    | none => simp at hrest
    | some tail =>
        cases more with
        | nil => simpa using hrest
        | cons c more =>
            have hc := hblank c (by simp)
            obtain rfl : c = ',' := by
              have := congrArg List.head? hrest
              simpa using this.symm
            cases hc
  · cases more with
    | nil =>
        cases tail? with
        | none => simp at hrest
        | some tail => simpa [eq_comm] using hrest
    | cons c more =>
        obtain rfl : ',' = c := (List.cons.inj hrest).1
        exact absurd hbehind (not_isGap_of_comma hblank)

/-- A comma behind the last entry is found only where the list has it. -/
theorem StandsIn.of_commaBehind? (h : StandsIn l t container items front back)
    (hwell : l.IsWellWritten) (hslots : l.slots = init ++ [last]) {item : Node}
    (hitem : item.stop = Text.byteSize (front ++ l.opening :: upToLast init last)) {behind : Nat}
    (hbehind : ListLayout.commaBehind? t container item = some behind) :
    ∃ tail, l.tail? = some tail ∧ behind = Text.byteSize
      (front ++ l.opening :: (upToLast init last ++ last.behind ++ [','])) := by
  -- Up to the end of the list there is what follows the last entry, and the closing bracket.
  have hclosing : l.closing.utf8Size = 1 := (of_mem_listMarks hwell.marks.2.1 []).1
  have htext : t.source.toList = front ++ l.opening :: upToLast init last
      ++ (last.behind ++ l.tail?.toList.flatMap (',' :: ·)) ++ (l.closing :: back) := by
    rw [h.text, WrittenList.text, inside_eq hslots]
    simp
  have hstop : container.stop - 1 = item.stop
      + Text.byteSize (last.behind ++ l.tail?.toList.flatMap (',' :: ·)) := by
    have hsize := congrArg Text.byteSize htext
    have hspan : container.stop = Text.byteSize front + Text.byteSize l.text := by
      rw [Node.stop, h.span]
    rw [h.text] at hsize
    simp only [Text.byteSize_append, Text.byteSize_cons, hclosing] at hsize hitem ⊢
    omega
  obtain ⟨between, hslice, hcomma⟩ := Option.bind_eq_some_iff.mp hbehind
  rw [hstop, Edit.slice?_eq_some htext hitem.symm rfl] at hslice
  obtain rfl := Option.some.inj hslice
  rw [String.toList_ofList] at hcomma
  dsimp only at hcomma
  split at hcomma
  · rename_i hhead
    obtain ⟨rest, hrest⟩ := Text.exists_of_head?_drop hhead
    -- In front of that comma there are blanks only, so it is the one that ends the last slot.
    obtain ⟨hblank, htail⟩ := eq_of_comma (hwell.gaps last (by simp [hslots])).2
      (fun c hc => List.all_eq_true.mp List.all_takeWhile c hc) hrest
    refine ⟨rest, htail, ?_⟩
    rw [← Option.some.inj hcomma, ← hblank, hitem]
    have hone : (',').utf8Size = 1 := rfl
    simp only [Text.byteSize_append, Text.byteSize_cons, Text.byteSize_nil, hone]
    omega
  · cases hcomma

/-! ### New entries -/

/-- The text of an entry: it has no comma, and is more than white space and
comments. -/
def IsEntryText (entry : String) : Prop := ',' ∉ entry.toList ∧ ¬ IsGap entry.toList

/-- A list has grown by entries at its start and at its end. -/
structure Grows (l l' : WrittenList) (ahead behind : List String) : Prop where
  /-- It is a list, -/
  wellWritten : l'.IsWellWritten
  /-- in the same brackets, -/
  brackets : l'.opening = l.opening ∧ l'.closing = l.closing
  /-- with the old entries between the new ones, -/
  entries : l'.entries = ahead.map String.toList ++ l.entries ++ behind.map String.toList
  /-- a comma behind the last one exactly if there was one, -/
  comma : l'.tail?.isSome = l.tail?.isSome
  /-- and one more comma for each new entry. -/
  commas : l'.text.count ',' = l.text.count ',' + (ahead.length + behind.length)

/-- A list that grows at its end may grow at its start, too. -/
theorem Grows.trans {l'' : WrittenList} {ahead ahead' behind behind' : List String}
    (h : Grows l l' ahead behind) (h' : Grows l' l'' ahead' behind') :
    Grows l l'' (ahead' ++ ahead) (behind ++ behind') where
  wellWritten := h'.wellWritten
  brackets := ⟨h'.brackets.1.trans h.brackets.1, h'.brackets.2.trans h.brackets.2⟩
  entries := by simp [h'.entries, h.entries]
  comma := h'.comma.trans h.comma
  commas := by
    rw [h'.commas, h.commas, List.length_append, List.length_append]
    omega

/-- The gap in front of a new entry. -/
def ListLayout.gap (layout : ListLayout) : List Char :=
  if layout.isMultiline then '\n' :: layout.indent.toList else [' ']

/-- It is white space. -/
theorem ListLayout.isBlank_of_mem_gap (t : Tree) (container : Node) (hitems : items ≠ []) :
    ∀ c ∈ (ListLayout.of t container items).gap, isBlank c = true := by
  have hindent : ∀ c ∈ (ListLayout.of t container items).indent.toList, isBlank c = true := by
    obtain ⟨last, hlast⟩ := Option.ne_none_iff_exists'.mp fun h =>
      hitems (List.getLast?_eq_none_iff.mp h)
    intro c hc
    rw [ListLayout.of, hlast] at hc
    have hspace := Text.isAsciiSpace_of_mem_indentAt hc
    simp only [Text.isAsciiSpace, Bool.or_eq_true, decide_eq_true_eq] at hspace
    rcases hspace with (((rfl | rfl) | rfl) | rfl) | rfl <;> rfl
  unfold gap
  split
  · exact List.forall_mem_cons.mpr ⟨rfl, hindent⟩
  · exact List.forall_mem_singleton.mpr rfl

variable {gap : List Char}

/-- A list with other slots has grown, if its text has only become longer by
what holds as many commas as there are new entries. -/
theorem grows_of_slots {slots : List Slot} {ahead behind : List String} {old more rest : List Char}
    (h : l.IsWellWritten)
    (hentries : slots.map Slot.entry
      = ahead.map String.toList ++ l.entries ++ behind.map String.toList)
    (hgaps : ∀ s ∈ slots, IsGap s.front ∧ IsGap s.behind)
    (hnew : ∀ e ∈ ahead ++ behind, IsEntryText e) (hold : l.text = old ++ rest)
    (htext : ({ l with slots } : WrittenList).text = old ++ more ++ rest)
    (hcount : more.count ',' = ahead.length + behind.length) :
    Grows l { l with slots } ahead behind where
  wellWritten := {
    brackets := h.brackets
    gaps := hgaps
    entries := by
      intro s hs
      have hmem : s.entry ∈ ahead.map String.toList ++ l.entries ++ behind.map String.toList :=
        hentries ▸ List.mem_map_of_mem hs
      simp only [List.mem_append, List.mem_map] at hmem
      rcases hmem with (⟨e, he, heq⟩ | hmem) | ⟨e, he, heq⟩
      · exact heq ▸ (hnew e (List.mem_append_left _ he)).2
      · obtain ⟨a, ha, heq⟩ := List.mem_map.mp hmem
        exact heq ▸ h.entries a ha
      · exact heq ▸ (hnew e (List.mem_append_right _ he)).2
    tail := h.tail }
  brackets := ⟨rfl, rfl⟩
  entries := hentries
  comma := rfl
  commas := by
    rw [htext, hold, List.count_append, List.count_append, List.count_append, hcount]
    omega

/-- Joined texts, character by character. -/
theorem toList_join_map (f : String → String) (entries : List String) :
    (String.join (entries.map f)).toList = entries.flatMap fun e => (f e).toList := by
  induction entries with
  | nil => rfl
  | cons e entries ih =>
      rw [List.map_cons, String.join_cons, String.toList_append, ih, List.flatMap_cons]

/-- White space has no comma. -/
theorem count_comma_of_blank (hgap : ∀ c ∈ gap, isBlank c = true) : gap.count ',' = 0 :=
  List.count_eq_zero.mpr fun h => by cases hgap _ h

/-- Each new entry brings one comma. -/
theorem count_comma_flatMap (f : String → List Char) (h : ∀ e ∈ entries, (f e).count ',' = 1) :
    (entries.flatMap f).count ',' = entries.length := by
  induction entries with
  | nil => rfl
  | cons e entries ih =>
      obtain ⟨he, hentries⟩ := List.forall_mem_cons.mp h
      rw [List.flatMap_cons, List.count_append, he, ih hentries, List.length_cons, Nat.add_comm]

/-- New entries right behind the last one, each with a comma in front. -/
theorem exists_behindLast (h : l.IsWellWritten) (hslots : l.slots = init ++ [last])
    (hgap : ∀ c ∈ gap, isBlank c = true) (hne : entries ≠ [])
    (hentries : ∀ e ∈ entries, IsEntryText e) :
    ∃ l', Grows l l' [] entries ∧ l'.slots.head?.map Slot.front = l.slots.head?.map Slot.front ∧
      l'.text = l.opening :: upToLast init last
        ++ entries.flatMap (fun e => ',' :: (gap ++ e.toList))
        ++ (last.behind ++ l.tail?.toList.flatMap (',' :: ·) ++ [l.closing]) := by
  obtain ⟨entries, e, rfl⟩ := (List.eq_nil_or_concat' entries).resolve_left hne
  -- What stood behind the last entry comes to stand behind the last new one.
  let slots := init ++ { last with behind := [] }
    :: (entries.map (⟨gap, String.toList ·, []⟩) ++ [⟨gap, e.toList, last.behind⟩])
  have htext : ({ l with slots } : WrittenList).text = l.opening :: upToLast init last
      ++ (entries ++ [e]).flatMap (fun e => ',' :: (gap ++ e.toList))
      ++ (last.behind ++ l.tail?.toList.flatMap (',' :: ·) ++ [l.closing]) := by
    rw [WrittenList.text, WrittenList.inside]
    have hpieces : slots.map Slot.text ++ l.tail?.toList
        = (init.map Slot.text ++ [last.front ++ last.entry])
          ++ (entries.map (fun e => gap ++ e.toList) ++ [gap ++ e.toList ++ last.behind]
            ++ l.tail?.toList) := by
      simp [slots, Slot.text, Function.comp_def]
    rw [hpieces, Text.joinWith_append _ (by simp), ← upToLast]
    simp [List.flatMap_append, List.flatMap_map]
  refine ⟨{ l with slots }, grows_of_slots h ?_ ?_ hentries ?_ htext ?_, ?_, htext⟩
  · simp [slots, WrittenList.entries, hslots, Function.comp_def]
  · have hfront : IsGap gap := .of_blank hgap
    have hold := h.gaps
    rw [hslots] at hold
    obtain ⟨hinit, hlast⟩ := List.forall_mem_append.mp hold
    obtain ⟨hlast, -⟩ := List.forall_mem_cons.mp hlast
    refine List.forall_mem_append.mpr ⟨hinit, List.forall_mem_cons.mpr ⟨⟨hlast.1, .nil⟩,
      List.forall_mem_append.mpr ⟨?_, ?_⟩⟩⟩
    · intro s hs
      obtain ⟨e, -, rfl⟩ := List.mem_map.mp hs
      exact ⟨hfront, .nil⟩
    · intro s hs
      obtain rfl := List.mem_singleton.mp hs
      exact ⟨hfront, hlast.2⟩
  · rw [WrittenList.text, inside_eq hslots]
    simp
  · rw [count_comma_flatMap]
    · simp
    · intro e he
      rw [List.count_cons_self, List.count_append, count_comma_of_blank hgap,
        List.count_eq_zero.mpr (hentries e he).1]
  · rw [hslots]
    cases init <;> rfl

/-- New entries behind the comma that follows the last one, each with a comma
behind it. -/
theorem exists_behindComma {tail : List Char} (h : l.IsWellWritten)
    (hslots : l.slots = init ++ [last]) (htail : l.tail? = some tail)
    (hgap : ∀ c ∈ gap, isBlank c = true) (hentries : ∀ e ∈ entries, IsEntryText e) :
    ∃ l', Grows l l' [] entries ∧ l'.slots.head?.map Slot.front = l.slots.head?.map Slot.front ∧
      l'.text = l.opening :: (upToLast init last ++ last.behind ++ [','])
        ++ entries.flatMap (fun e => gap ++ e.toList ++ [',']) ++ (tail ++ [l.closing]) := by
  -- The slots stay, and each new entry is a slot with nothing behind it.
  let slots := l.slots ++ entries.map (⟨gap, String.toList ·, []⟩)
  -- A comma behind each new entry, or in front of each and one at the end: the same text.
  have hmove : entries.flatMap (fun e => ',' :: (gap ++ e.toList)) ++ [',']
      = ',' :: entries.flatMap (fun e => gap ++ e.toList ++ [',']) := by
    have hjoin := congrArg String.toList (append_join_map "," (String.ofList gap) entries)
    rw [String.toList_append, String.toList_append, toList_join_map, toList_join_map] at hjoin
    simpa using hjoin.symm
  have htext : ({ l with slots } : WrittenList).text
      = l.opening :: (upToLast init last ++ last.behind ++ [','])
        ++ entries.flatMap (fun e => gap ++ e.toList ++ [',']) ++ (tail ++ [l.closing]) := by
    have hpieces : slots.map Slot.text ++ l.tail?.toList
        = (init.map Slot.text ++ [last.text])
          ++ (entries.map (fun e => gap ++ e.toList) ++ [tail]) := by
      simp [slots, Slot.text, hslots, htail, Function.comp_def]
    have hlast : Text.joinWith [','] (init.map Slot.text ++ [last.text])
        = upToLast init last ++ last.behind := by
      rw [upToLast, Text.joinWith_append_last, Slot.text]
    have hnew := congrArg (· ++ (tail ++ [l.closing])) hmove
    rw [WrittenList.text, WrittenList.inside, hpieces, Text.joinWith_append _ (by simp), hlast,
      List.flatMap_append, List.flatMap_map, List.flatMap_singleton]
    simp only [List.append_assoc, List.cons_append, List.nil_append] at hnew ⊢
    rw [← hnew]
  refine ⟨{ l with slots }, grows_of_slots h ?_ ?_ hentries ?_ htext ?_, ?_, htext⟩
  · simp [slots, WrittenList.entries, Function.comp_def]
  · refine List.forall_mem_append.mpr ⟨h.gaps, fun s hs => ?_⟩
    obtain ⟨e, -, rfl⟩ := List.mem_map.mp hs
    exact ⟨.of_blank hgap, .nil⟩
  · rw [WrittenList.text, inside_eq hslots, htail]
    simp
  · rw [count_comma_flatMap]
    · simp
    · intro e he
      rw [List.count_append, List.count_append, count_comma_of_blank hgap,
        List.count_eq_zero.mpr (hentries e he).1]
      rfl
  · rw [hslots]
    cases init <;> simp [slots, hslots]

/-- A new entry in front of the first one, with a comma behind it. -/
theorem exists_inFront {entry : String} (h : l.IsWellWritten) (hslots : l.slots = s :: slots)
    (hgap : ∀ c ∈ gap, isBlank c = true) (hentry : IsEntryText entry) :
    ∃ l' rest, Grows l l' [entry] [] ∧ l.text = l.opening :: s.front ++ rest ∧
      l'.text = l.opening :: s.front ++ (entry.toList ++ ',' :: gap) ++ rest := by
  let slots' := ⟨s.front, entry.toList, []⟩ :: { s with front := gap } :: slots
  have hold : l.text = l.opening :: s.front
      ++ (s.entry ++ s.behind ++ (slots.map Slot.text ++ l.tail?.toList).flatMap (',' :: ·)
        ++ [l.closing]) := by
    rw [WrittenList.text, WrittenList.inside, hslots]
    show l.opening :: Text.joinWith [','] (s.text :: (slots.map Slot.text ++ l.tail?.toList))
      ++ [l.closing] = _
    rw [Text.joinWith_cons_eq_append, Slot.text]
    simp
  have htext : ({ l with slots := slots' } : WrittenList).text
      = l.opening :: s.front ++ (entry.toList ++ ',' :: gap)
        ++ (s.entry ++ s.behind ++ (slots.map Slot.text ++ l.tail?.toList).flatMap (',' :: ·)
          ++ [l.closing]) := by
    rw [WrittenList.text, WrittenList.inside]
    simp [slots', Text.joinWith_cons_eq_append, Slot.text]
  refine ⟨{ l with slots := slots' }, _, grows_of_slots h ?_ ?_ ?_ hold htext ?_, hold, htext⟩
  · simp [slots', WrittenList.entries, hslots]
  · have hgaps := h.gaps
    rw [hslots] at hgaps
    obtain ⟨hs, hgaps⟩ := List.forall_mem_cons.mp hgaps
    exact List.forall_mem_cons.mpr ⟨⟨hs.1, .nil⟩,
      List.forall_mem_cons.mpr ⟨⟨.of_blank hgap, hs.2⟩, hgaps⟩⟩
  · simpa using hentry
  · rw [List.count_append, List.count_cons_self, count_comma_of_blank hgap,
      List.count_eq_zero.mpr hentry.1]
    rfl

/-! ### The edits -/

/-- New entries come in behind the comma that is seen, each with a comma behind
it, or behind the last entry, each with a comma in front. -/
theorem append?_cases (t : Tree) (container : Node) {item : Node} (hitem : items.getLast? = some item)
    (hne : entries ≠ []) :
    let layout := ListLayout.of t container items
    (∃ behind, ListLayout.commaBehind? t container item = some behind ∧
      layout.append? items entries = some (.insert behind
        (String.ofList (entries.flatMap fun e => layout.gap ++ e.toList ++ [','])))) ∨
    layout.append? items entries = some (.insert item.stop
      (String.ofList (entries.flatMap fun e => ',' :: (layout.gap ++ e.toList)))) := by
  intro layout
  have htrailing : layout.trailingComma? = ListLayout.commaBehind? t container item := by
    show items.getLast?.bind _ = _
    rw [hitem]
    rfl
  have hjoin {f : String → String} {g : String → List Char} (h : ∀ e, (f e).toList = g e) :
      String.join (entries.map f) = String.ofList (entries.flatMap g) := by
    rw [← String.toList_inj, toList_join_map, String.toList_ofList]
    exact congrArg (entries.flatMap ·) (funext h)
  unfold ListLayout.append? ListLayout.gap
  rw [hitem, htrailing]
  cases entries with
  | nil => exact absurd rfl hne
  | cons e entries =>
      dsimp only
      cases layout.isMultiline with
      | false =>
          exact .inr (congrArg (fun text => some (Edit.insert item.stop text))
            ((join_map_eq_append_intercalate ", " hne).symm.trans (hjoin fun e => by simp)))
      | true =>
          cases ListLayout.commaBehind? t container item with
          | some behind =>
              exact .inl ⟨behind, rfl, congrArg (fun text => some (Edit.insert behind text))
                (hjoin fun e => by simp)⟩
          | none =>
              exact .inr (congrArg (fun text => some (Edit.insert item.stop text))
                (hjoin fun e => by simp))

/-- A new entry comes in in front of the first one, with a comma behind it. -/
theorem prepend?_eq (t : Tree) (container : Node) {item : Node} (hitem : items.head? = some item)
    (entry : String) :
    let layout := ListLayout.of t container items
    layout.prepend? items entry
      = some (.insert item.start (String.ofList (entry.toList ++ ',' :: layout.gap))) := by
  intro layout
  have htext : entry ++ (if layout.isMultiline then ",\n" ++ layout.indent else ", ")
      = String.ofList (entry.toList ++ ',' :: layout.gap) := by
    rw [← String.toList_inj, String.toList_append, String.toList_ofList, ListLayout.gap]
    split <;> simp
  rw [ListLayout.prepend?, hitem, Option.map_some, htext]

/-! ### Growing -/

/-- Up to the end of its last entry a list has the gap in front of the first
one, and more. -/
theorem upToLast_eq (hslots : init ++ [last] = s :: slots) (hentry : s.entry ≠ []) :
    ∃ mid, mid ≠ [] ∧ upToLast init last = s.front ++ mid := by
  cases init with
  | nil =>
      obtain ⟨rfl, -⟩ := List.cons.inj hslots
      exact ⟨last.entry, hentry, rfl⟩
  | cons a init =>
      obtain ⟨rfl, -⟩ := List.cons.inj hslots
      refine ⟨a.entry ++ (a.behind
        ++ (init.map Slot.text ++ [last.front ++ last.entry]).flatMap (',' :: ·)),
        List.append_ne_nil_of_left_ne_nil hentry _, ?_⟩
      rw [upToLast, List.map_cons, List.cons_append, Text.joinWith_cons_eq_append, Slot.text,
        List.append_assoc, List.append_assoc]

/-- The new entries at the end are put in between two parts of the list, the
first of which has the first entry. -/
theorem append?_parts (hwell : l.IsWellWritten) (hslots : l.slots = s :: slots)
    (hin : StandsIn l t container items front back) (hne : entries ≠ [])
    (hentries : ∀ e ∈ entries, IsEntryText e) :
    ∃ l' mid more rest, Grows l l' [] entries ∧ l'.slots.head?.map Slot.front = some s.front ∧
      mid ≠ [] ∧ l.text = l.opening :: s.front ++ mid ++ rest ∧
      l'.text = l.opening :: s.front ++ mid ++ more ++ rest ∧
      (ListLayout.of t container items).append? items entries = some (.insert
        (Text.byteSize (front ++ (l.opening :: s.front ++ mid))) (String.ofList more)) := by
  obtain ⟨init, last, hlast⟩ := (List.eq_nil_or_concat' l.slots).resolve_left (by simp [hslots])
  obtain ⟨item, hitem, hstop⟩ := hin.last_stop hlast
  have hentry : s.entry ≠ [] := fun h => hwell.entries s (by simp [hslots]) (h ▸ .nil)
  obtain ⟨mid, hmid, hupTo⟩ := upToLast_eq (hlast.symm.trans hslots) hentry
  let gap := (ListLayout.of t container items).gap
  have hgap : ∀ c ∈ gap, isBlank c = true := ListLayout.isBlank_of_mem_gap t container (by
    rintro rfl
    cases hitem)
  -- The list has a comma behind the last entry, or the edit brings one.
  rcases append?_cases t container hitem hne with ⟨behind, hbehind, happend⟩ | happend
  · obtain ⟨tail, htail, rfl⟩ := hin.of_commaBehind? hwell hlast hstop hbehind
    obtain ⟨l', hgrows, hhead, htext⟩ := exists_behindComma hwell hlast htail hgap hentries
    refine ⟨l', mid ++ last.behind ++ [','], entries.flatMap fun e => gap ++ e.toList ++ [','],
      tail ++ [l.closing], hgrows, ?_, by simp, ?_, ?_, ?_⟩
    · rw [hhead, hslots]
      rfl
    · rw [WrittenList.text, inside_eq hlast, htail, hupTo]
      simp
    · rw [htext, hupTo]
      simp
    · rw [happend, hupTo]
      simp [gap]
  · obtain ⟨l', hgrows, hhead, htext⟩ := exists_behindLast hwell hlast hgap hne hentries
    refine ⟨l', mid, entries.flatMap fun e => ',' :: (gap ++ e.toList),
      last.behind ++ l.tail?.toList.flatMap (',' :: ·) ++ [l.closing], hgrows, ?_, hmid, ?_, ?_, ?_⟩
    · rw [hhead, hslots]
      rfl
    · rw [WrittenList.text, inside_eq hlast, hupTo]
      simp
    · rw [htext, hupTo]
      simp
    · rw [happend, hstop, hupTo]
      simp [gap]

/-- **A list grows by its edits.** Take a list that is well written, with one
entry at least, and texts of new entries. The edit for them makes it the list
with the old entries and then the new ones; with the edit for an entry in front
it has that one, the old ones, and then the new ones. -/
theorem append?_grows (hwell : l.IsWellWritten) (hslots : l.slots ≠ [])
    (hin : StandsIn l t container items front back) (hne : entries ≠ [])
    (hentries : ∀ e ∈ entries, IsEntryText e) :
    let layout := ListLayout.of t container items
    ∃ behind, layout.append? items entries = some behind ∧
      (∃ l', Grows l l' [] entries ∧
        applyEdits t.source [behind] = (String.ofList (front ++ l'.text ++ back), [])) ∧
      ∀ entry, IsEntryText entry → ∃ ahead, layout.prepend? items entry = some ahead ∧
        ∃ l', Grows l l' [entry] entries ∧
          applyEdits t.source [ahead, behind]
            = (String.ofList (front ++ l'.text ++ back), []) := by
  intro layout
  obtain ⟨s, slots, hslots⟩ := List.exists_cons_of_ne_nil hslots
  obtain ⟨l', mid, more, rest, hgrows, hhead, hmid, hold, hnew, happend⟩ :=
    append?_parts hwell hslots hin hne hentries
  have hsecond : Edit.Exchanges (front ++ (l.opening :: s.front ++ mid)) [] more
      [.insert (Text.byteSize (front ++ (l.opening :: s.front ++ mid))) (String.ofList more)] :=
    .inl rfl
  refine ⟨_, happend, ⟨l', hgrows, ?_⟩, fun entry hentry => ?_⟩
  · -- The edit behind alone: nothing is put in at the front.
    have htext : t.source.toList = [] ++ [] ++ (front ++ (l.opening :: s.front ++ mid)) ++ []
        ++ (rest ++ back) := by
      rw [hin.text, hold]
      simp
    have happly := Edit.applyEdits_stretches htext (by simp) (.inr ⟨rfl, rfl⟩)
      (by simpa using hsecond) (by simpa using hsecond.keepsLines)
    rw [hnew]
    simpa using happly
  · -- With an entry in front, the list that has grown behind grows once more.
    obtain ⟨item, hitem, hstart⟩ := hin.first_start hslots
    obtain ⟨s', slots', hslots'⟩ : ∃ s' slots', l'.slots = s' :: slots' := by
      cases hs : l'.slots with
      | nil => simp [hs] at hhead
      | cons s' slots' => exact ⟨s', slots', rfl⟩
    have hfront : s'.front = s.front := by simpa [hslots'] using hhead
    have hgap : ∀ c ∈ layout.gap, isBlank c = true :=
      ListLayout.isBlank_of_mem_gap t container (by
        rintro rfl
        cases hitem)
    obtain ⟨l'', rest', hgrows', hold', hnew'⟩ := exists_inFront hgrows.wellWritten hslots' hgap hentry
    refine ⟨_, prepend?_eq t container hitem entry, l'', ?_, ?_⟩
    · simpa using hgrows.trans hgrows'
    · -- Both descriptions of the grown text have the same text behind the first entry.
      have hrest : rest' = mid ++ more ++ rest := by
        rw [hnew, hgrows.brackets.1, hfront] at hold'
        simpa using hold'.symm
      have htext : t.source.toList = (front ++ l.opening :: s.front) ++ [] ++ mid ++ []
          ++ (rest ++ back) := by
        rw [hin.text, hold]
        simp
      have hfirst : Edit.Exchanges (front ++ l.opening :: s.front) []
          (entry.toList ++ ',' :: layout.gap)
          [.insert item.start (String.ofList (entry.toList ++ ',' :: layout.gap))] := by
        rw [hstart]
        exact .inl rfl
      have happly := Edit.applyEdits_stretches htext hmid hfirst (by simpa using hsecond)
        (List.forall_mem_append.mpr ⟨hfirst.keepsLines, hsecond.keepsLines⟩)
      rw [hnew', hgrows.brackets.1, hfront, hrest]
      simpa using happly

/-- An import list that has grown by names is read as one, with the new names
around the old ones. -/
theorem Grows.namedImports_of {ahead behind : List String} {env : Surroundings} {gap : List Char}
    (h : Grows l l' ahead behind) (hopening : l.opening = '\x7b')
    (hold : ∀ name ∈ l.entries, IsFreeName name)
    (hnew : ∀ name ∈ ahead ++ behind, IsFreeName name.toList) (hplain : env.dialect = .plain)
    (hgap : IsGap gap) (tail : List Char) (pos : Nat) (comments : List Node) :
    ∃ passed, Parser.namedImports env ⟨gap ++ l'.text ++ tail, pos, comments⟩
      = .ok (Node.branch .namedImports (l'.nodes Parser.importedName (pos + Text.byteSize gap)),
        ⟨tail, pos + Text.byteSize gap + Text.byteSize l'.text, passed⟩) := by
  refine Parser.namedImports_of h.wellWritten (h.brackets.1.trans hopening) (fun name hname => ?_)
    hplain hgap tail pos comments
  rw [h.entries, List.mem_append, List.mem_append, List.mem_map, List.mem_map] at hname
  rcases hname with (⟨name, hname, rfl⟩ | hname) | ⟨name, hname, rfl⟩
  · exact hnew name (List.mem_append_left _ hname)
  · exact hold name hname
  · exact hnew name (List.mem_append_right _ hname)

/-- A list whose last comma a comment hides. -/
def hiddenComma : WrittenList where
  opening := '\x7b'
  slots := [⟨['\n', ' ', ' '], ['a'], []⟩,
    ⟨[' ', '/', '/', ' ', 'o', 'n', 'e', '\n', ' ', ' '], ['b'],
      [' ', '/', '/', ' ', 't', 'w', 'o', '\n', ' ', ' ']⟩]
  tail? := some ['\n']
  closing := '\x7d'

/-- Its names are an entry to a line, and so are those that come in. -/
theorem append?_grows_hiddenComma :
    ∃ t ∈ (Tree.parse .plain none
        (String.ofList ("import ".toList ++ hiddenComma.text ++ " from 'x';\n".toList))).toOption,
      ∃ list ∈ t.nodes, list.is .namedImports = true ∧
        let layout := ListLayout.of t list (list.childrenOf .importSpecifier)
        ∃ behind, layout.append? (list.childrenOf .importSpecifier) ["c", "d"] = some behind ∧
          (∃ l', Grows hiddenComma l' [] ["c", "d"] ∧ applyEdits t.source [behind]
            = (String.ofList ("import ".toList ++ l'.text ++ " from 'x';\n".toList), [])) ∧
          ∀ entry, IsEntryText entry →
            ∃ ahead, layout.prepend? (list.childrenOf .importSpecifier) entry = some ahead ∧
              ∃ l', Grows hiddenComma l' [entry] ["c", "d"] ∧ applyEdits t.source [ahead, behind]
                = (String.ofList ("import ".toList ++ l'.text ++ " from 'x';\n".toList), []) := by
  have hname {c : Char} (hblank : isBlank c = false) (hslash : c ≠ '/') : ¬ IsGap [c] := by
    intro h
    cases h with
    | blank hc => rw [hblank] at hc; cases hc
  have hone : IsGap [' ', '/', '/', ' ', 'o', 'n', 'e', '\n', ' ', ' '] :=
    .blank rfl (@IsGap.line [' ', 'o', 'n', 'e'] _ _ (by simp [isLineEnd]) rfl
      (.of_blank (List.all_eq_true.mp rfl)))
  have htwo : IsGap [' ', '/', '/', ' ', 't', 'w', 'o', '\n', ' ', ' '] :=
    .blank rfl (@IsGap.line [' ', 't', 'w', 'o'] _ _ (by simp [isLineEnd]) rfl
      (.of_blank (List.all_eq_true.mp rfl)))
  have hwell : hiddenComma.IsWellWritten := {
    brackets := by decide
    gaps := List.forall_mem_cons.mpr ⟨⟨.of_blank (List.all_eq_true.mp rfl), .nil⟩,
      List.forall_mem_singleton.mpr ⟨hone, htwo⟩⟩
    entries := List.forall_mem_cons.mpr ⟨hname rfl (by decide),
      List.forall_mem_singleton.mpr (hname rfl (by decide))⟩
    tail := by
      rintro gap ⟨⟩
      exact .of_blank (List.all_eq_true.mp rfl) }
  have hnew : ∀ e ∈ ["c", "d"], IsEntryText e :=
    List.forall_mem_cons.mpr ⟨⟨by decide, hname rfl (by decide)⟩,
      List.forall_mem_singleton.mpr ⟨by decide, hname rfl (by decide)⟩⟩
  have htext : String.ofList ("import ".toList ++ hiddenComma.text ++ " from 'x';\n".toList)
      = "import \x7b\n  a, // one\n  b // two\n  ,\n\x7d from 'x';\n" := by decide +kernel
  rw [htext]
  obtain ⟨t, ht⟩ := Option.isSome_iff_exists.mp
    (by decide +kernel : (Tree.parse .plain none
      "import \x7b\n  a, // one\n  b // two\n  ,\n\x7d from 'x';\n").toOption.isSome = true)
  have hfacts : ∀ t ∈ (Tree.parse .plain none
        "import \x7b\n  a, // one\n  b // two\n  ,\n\x7d from 'x';\n").toOption,
      t.source.toList = "import ".toList ++ hiddenComma.text ++ " from 'x';\n".toList ∧
      ∃ list ∈ t.nodes, list.is .namedImports = true ∧ list.span = ⟨7, 37⟩ ∧
        (list.childrenOf .importSpecifier).map Node.span
          = slotSpans (7 + 1) hiddenComma.slots := by
    decide +kernel
  obtain ⟨hsource, list, hlist, hkind, hspan, hitems⟩ := hfacts t ht
  exact ⟨t, ht, list, hlist, hkind, append?_grows hwell (by decide) ⟨hsource, hspan, hitems⟩
    (by decide) hnew⟩

end Refactoring

end ScriptRefactor
