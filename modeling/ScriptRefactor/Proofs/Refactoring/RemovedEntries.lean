import ScriptRefactor.Proofs.Edit.Moved
import ScriptRefactor.Proofs.Refactoring.LiteralBatches

/-!
# `ScriptRefactor.Proofs.Refactoring.RemovedEntries`: entries that go with one comma

The entries of an array or an object take turns with its commas
(`TakeTurns`), and comments stand anywhere between. An entry is removed
cleanly if it goes alone and takes one comma with it, if there are any
(`Removes`); then entries and commas take turns in what stays
(`Removes.left`).

That comma is looked for in the text, over blanks only. The first element of
several always takes its comma along, since it goes up to the next element,
and so does a later property, since it goes from the end of the one in front
of it (`removes_toNext`, `removes_fromBefore`). A later element takes the
comma in front, and an only element or a first property the comma behind,
exactly if nothing but blanks stands between (`removes_fromComma_iff`,
`removes_first_iff`). A comment there keeps the comma in the list, and leaves
a hole.
-/

set_option autoImplicit false

namespace ScriptRefactor

open Syntax

/-! ### Blanks and commas of a text -/

namespace Text

variable {text : String} {first last pos : Nat} {c d : Char} {cs : List Char}

/-- The characters that words on a line may stand apart by, and its ends. -/
def asciiSpaces : List Char := [' ', '\t', '\n', '\x0c', '\r']

theorem isAsciiSpace_iff : isAsciiSpace c = true ↔ c ∈ asciiSpaces := by
  simp [isAsciiSpace, asciiSpaces, or_assoc]

/-- A blank is a single byte. -/
theorem utf8Size_of_isAsciiSpace (h : isAsciiSpace c = true) : c.utf8Size = 1 := by
  have hall : asciiSpaces.all (·.utf8Size = 1) = true := by decide
  exact of_decide_eq_true (List.all_eq_true.mp hall c (isAsciiSpace_iff.mp h))

/-- Blanks have as many bytes as characters. -/
theorem byteSize_of_isAsciiSpace (h : ∀ c ∈ cs, isAsciiSpace c = true) :
    byteSize cs = cs.length := by
  induction cs with
  | nil => rfl
  | cons c cs ih =>
      obtain ⟨hc, hcs⟩ := List.forall_mem_cons.mp h
      rw [byteSize_cons, ih hcs, utf8Size_of_isAsciiSpace hc, List.length_cons, Nat.add_comm]

/-- Nothing but blanks stands between two positions. -/
def IsBlank (text : String) (first last : Nat) : Prop :=
  (slice? text first last).any (·.toList.all isAsciiSpace) = true

instance (text : String) (first last : Nat) : Decidable (IsBlank text first last) :=
  inferInstanceAs (Decidable (_ = true))

/-- The blanks are a part of the text. -/
theorem isBlank_iff : IsBlank text first last ↔
    ∃ front blank back, text.toList = front ++ blank ++ back ∧ byteSize front = first
      ∧ first + blank.length = last ∧ ∀ c ∈ blank, isAsciiSpace c = true := by
  unfold IsBlank slice?
  rw [Option.any_map, Option.any_eq_true]
  simp only [String.toList_ofList, List.all_eq_true]
  constructor
  · rintro ⟨blank, hslice, hblank⟩
    obtain ⟨front, back, htext, hfront, hsize⟩ := Edit.of_sliceChars? hslice
    rw [byteSize_of_isAsciiSpace hblank] at hsize
    exact ⟨front, blank, back, htext, hfront, hsize, hblank⟩
  · rintro ⟨front, blank, back, htext, rfl, rfl, hblank⟩
    refine ⟨blank, ?_, hblank⟩
    rw [htext, ← byteSize_of_isAsciiSpace hblank, sliceChars?_append]

/-- Only one character stands at a position. -/
theorem eq_of_hasCharAt (hc : hasCharAt text pos c = true) (hd : hasCharAt text pos d = true) :
    c = d := by
  unfold hasCharAt at hc hd
  split at hc
  · rename_i hcut
    rw [hcut] at hd
    exact Option.some.inj ((of_decide_eq_true hc).symm.trans (of_decide_eq_true hd))
  · cases hc

/-- A blank stands at each position between. -/
theorem IsBlank.exists_hasCharAt (h : IsBlank text first last) (hfirst : first ≤ pos)
    (hlast : pos < last) : ∃ c, hasCharAt text pos c = true ∧ isAsciiSpace c = true := by
  obtain ⟨front, blank, back, htext, rfl, rfl, hblank⟩ := isBlank_iff.mp h
  obtain ⟨k, rfl⟩ := Nat.exists_eq_add_of_le hfirst
  have hk : k < blank.length := by omega
  refine ⟨blank[k], hasCharAt_iff.mpr ⟨front ++ blank.take k, blank.drop (k + 1) ++ back, ?_, ?_⟩,
    hblank _ (List.getElem_mem hk)⟩
  · have hsplit : blank.take k ++ blank[k] :: blank.drop (k + 1) = blank := by
      rw [← List.drop_eq_getElem_cons hk, List.take_append_drop]
    rw [htext, ← List.cons_append, ← List.append_assoc, List.append_assoc front (blank.take k),
      hsplit]
  · rw [byteSize_append, byteSize_of_isAsciiSpace fun c hc => hblank c (List.mem_of_mem_take hc),
      List.length_take]
    omega

/-- Nothing that is no blank stands between. -/
theorem IsBlank.isAsciiSpace (h : IsBlank text first last) (hfirst : first ≤ pos)
    (hlast : pos < last) (hc : hasCharAt text pos c = true) : isAsciiSpace c = true := by
  obtain ⟨d, hd, hblank⟩ := h.exists_hasCharAt hfirst hlast
  exact eq_of_hasCharAt hd hc ▸ hblank

/-- The ends of blanks are in order. -/
theorem IsBlank.le (h : IsBlank text first last) : first ≤ last := by
  obtain ⟨front, blank, back, -, -, rfl, -⟩ := isBlank_iff.mp h
  exact Nat.le_add_right ..

end Text

namespace Refactoring

variable {t : Tree} {n entry : Node} {e : Edit} {opening closing : Char} {p : Nat}

/-! ### Commas beside an entry -/

/-- A comma with only blanks between goes with the entry in front of it. -/
theorem endWithComma_of_isBlank {item : Node} (hblank : Text.IsBlank t.source item.stop p)
    (hcomma : Text.hasCharAt t.source p ',' = true) : endWithComma t item = p + 1 := by
  obtain ⟨front, blank, back, htext, hfront, rfl, hall⟩ := Text.isBlank_iff.mp hblank
  obtain ⟨front', after, htext', hfront'⟩ := Text.hasCharAt_iff.mp hcomma
  -- Both cut the text in front of the comma.
  have hsize : Text.byteSize (front ++ blank) = item.stop + blank.length := by
    rw [Text.byteSize_append, Text.byteSize_of_isAsciiSpace hall, hfront]
  have hcut := (Text.cutAt?_eq_some_iff.mpr ⟨htext, hsize⟩).symm.trans
    (Text.cutAt?_eq_some_iff.mpr ⟨htext', hfront'⟩)
  obtain ⟨-, rfl⟩ := Prod.mk.inj (Option.some.inj hcut)
  have hrest : (blank ++ ',' :: after).takeWhile Text.isAsciiSpace = blank := by
    rw [List.takeWhile_append_of_pos hall, List.takeWhile_cons_of_neg (by decide), List.append_nil]
  rw [List.append_assoc] at htext
  rw [endWithComma, Text.cutAt?_eq_some_iff.mpr ⟨htext, hfront⟩]
  dsimp only
  rw [hrest, List.drop_left, List.head?_cons, if_pos rfl]

/-- A comma with only blanks between goes with the entry behind it. -/
theorem startWithComma_of_isBlank {item : Node} (hblank : Text.IsBlank t.source (p + 1) item.start)
    (hcomma : Text.hasCharAt t.source p ',' = true) : startWithComma t item = p := by
  obtain ⟨front, blank, back, htext, hfront, hstart, hall⟩ := Text.isBlank_iff.mp hblank
  obtain ⟨front', after, htext', hfront'⟩ := Text.hasCharAt_iff.mp hcomma
  -- Both cut the text behind the comma.
  have hsize : Text.byteSize (front' ++ [',']) = p + 1 := by
    rw [Text.byteSize_append, hfront']
    rfl
  have hcut := (Text.cutAt?_eq_some_iff.mpr ⟨htext.trans (List.append_assoc ..), hfront⟩).symm.trans
    (Text.cutAt?_eq_some_iff.mpr ⟨htext'.trans (List.append_cons ..), hsize⟩)
  obtain ⟨rfl, -⟩ := Prod.mk.inj (Option.some.inj hcut)
  have hreverse : (front' ++ [','] ++ blank).reverse = blank.reverse ++ ',' :: front'.reverse := by
    simp
  have hrest : (blank.reverse ++ ',' :: front'.reverse).takeWhile Text.isAsciiSpace
      = blank.reverse := by
    rw [List.takeWhile_append_of_pos fun c hc => hall c (List.mem_reverse.mp hc),
      List.takeWhile_cons_of_neg (by decide), List.append_nil]
  have hbefore : Text.byteSize (front' ++ [','] ++ blank) = item.start := by
    rw [Text.byteSize_append, hsize, Text.byteSize_of_isAsciiSpace hall, hstart]
  rw [startWithComma, Text.cutAt?_eq_some_iff.mpr ⟨htext, hbefore⟩]
  dsimp only
  rw [hreverse, hrest, List.drop_left, List.head?_cons, if_pos rfl, List.length_reverse]
  omega

/-- An entry ends with a comma behind blanks, or by itself. -/
theorem endWithComma_cases (t : Tree) (item : Node) : endWithComma t item = item.stop
    ∨ ∃ p, endWithComma t item = p + 1 ∧ Text.IsBlank t.source item.stop p
      ∧ Text.hasCharAt t.source p ',' = true := by
  unfold endWithComma
  split
  · rename_i front rest hcut
    dsimp only
    split
    · rename_i hcomma
      obtain ⟨after, hafter⟩ := Text.exists_of_head?_drop hcomma
      obtain ⟨htext, hfront⟩ := Text.cutAt?_eq_some_iff.mp hcut
      have hall := List.all_eq_true.mp (List.all_takeWhile (p := Text.isAsciiSpace) (l := rest))
      rw [hafter, ← List.append_assoc] at htext
      refine .inr ⟨_, rfl, Text.isBlank_iff.mpr ⟨front, _, _, htext, hfront, rfl, hall⟩,
        Text.hasCharAt_iff.mpr ⟨_, after, htext, ?_⟩⟩
      rw [Text.byteSize_append, Text.byteSize_of_isAsciiSpace hall, hfront]
    · exact .inl rfl
  · exact .inl rfl

/-- An entry starts with a comma in front of blanks, or by itself. -/
theorem startWithComma_cases (t : Tree) (item : Node) : startWithComma t item = item.start
    ∨ ∃ p, startWithComma t item = p ∧ Text.IsBlank t.source (p + 1) item.start
      ∧ Text.hasCharAt t.source p ',' = true := by
  unfold startWithComma
  split
  · rename_i front rest hcut
    dsimp only
    split
    · rename_i hcomma
      obtain ⟨before, hbefore⟩ := Text.exists_of_head?_drop hcomma
      obtain ⟨htext, hfront⟩ := Text.cutAt?_eq_some_iff.mp hcut
      -- The blanks in front of the entry, and the comma that they stand behind.
      have hall := List.all_eq_true.mp
        (List.all_takeWhile (p := Text.isAsciiSpace) (l := front.reverse))
      generalize front.reverse.takeWhile Text.isAsciiSpace = blank at *
      have hsplit : front = before.reverse ++ [','] ++ blank.reverse := by
        rw [← List.reverse_reverse front, hbefore]
        simp
      have hall' : ∀ c ∈ blank.reverse, Text.isAsciiSpace c = true := fun c hc =>
        hall c (List.mem_reverse.mp hc)
      have hsize : Text.byteSize before.reverse + 1 + blank.length = item.start := by
        rw [← hfront, hsplit, Text.byteSize_append, Text.byteSize_append,
          Text.byteSize_of_isAsciiSpace hall', List.length_reverse]
        rfl
      rw [hsplit] at htext
      refine .inr ⟨_, rfl, Text.isBlank_iff.mpr ⟨_, _, _, htext, ?_, ?_, hall'⟩,
        Text.hasCharAt_iff.mpr ⟨before.reverse, blank.reverse ++ rest, ?_, ?_⟩⟩
      · rw [Text.byteSize_append]
        show Text.byteSize before.reverse + 1 = _
        omega
      · rw [List.length_reverse]
        omega
      · rw [htext]
        simp
      · omega
    · exact .inl rfl
  · exact .inl rfl

/-! ### Lists without holes -/

/-- The node is an entry of a list. -/
def isEntry (c : Node) : Bool := c.isNamed && !(c.is .comment)

/-- The node is a comma. -/
def isComma (c : Node) : Bool := c.kind = .token ","

/-- The entries of a list with their commas. -/
def itemsOf (n : Node) : List Node := n.children.filter fun c => isEntry c || isComma c

/-- The commas of a list. -/
def commasOf (n : Node) : List Node := n.children.filter isComma

/-- Entries and commas take turns, beginning with an entry: no entry is left
out, and there is at most one comma behind the last one. -/
def TakeTurns : List Node → Bool
  | [] => true
  | [entry] => isEntry entry
  | entry :: comma :: rest => isEntry entry && isComma comma && TakeTurns rest

/-- A list in which no entry is left out. What stands between its parts holds
no commas. -/
structure IsFullList (text : String) (n : Node) : Prop where
  /-- Entries and commas take turns. -/
  turns : TakeTurns (itemsOf n) = true
  /-- No part is empty, or starts with a blank. -/
  solid : ∀ c ∈ n.children, c.start < c.stop
    ∧ Text.asciiSpaces.any (Text.hasCharAt text c.start) = false
  /-- The commas are commas of the text. -/
  commas : ∀ c ∈ commasOf n, c.stop = c.start + 1 ∧ Text.hasCharAt text c.start ',' = true
  /-- Any other comma of the text is within an entry or a comment. -/
  own : ∀ p < n.stop, n.start < p → Text.hasCharAt text p ',' = true →
    (∃ c ∈ commasOf n, c.start = p) ∨ ∃ c ∈ n.children, c.start < p ∧ p < c.stop

instance (text : String) (n : Node) : Decidable (IsFullList text n) :=
  decidable_of_iff (TakeTurns (itemsOf n) = true
      ∧ (∀ c ∈ n.children, c.start < c.stop
        ∧ Text.asciiSpaces.any (Text.hasCharAt text c.start) = false)
      ∧ (∀ c ∈ commasOf n, c.stop = c.start + 1 ∧ Text.hasCharAt text c.start ',' = true)
      ∧ ∀ p < n.stop, n.start < p → Text.hasCharAt text p ',' = true →
        (∃ c ∈ commasOf n, c.start = p) ∨ ∃ c ∈ n.children, c.start < p ∧ p < c.stop)
    ⟨fun ⟨h1, h2, h3, h4⟩ => ⟨h1, h2, h3, h4⟩, fun h => ⟨h.turns, h.solid, h.commas, h.own⟩⟩

/-- No blank stands where a part starts. -/
theorem IsFullList.not_blank {text : String} {n c : Node} (h : IsFullList text n)
    (hc : c ∈ n.children) {b : Char} (hb : Text.isAsciiSpace b = true) :
    Text.hasCharAt text c.start b = false :=
  Bool.eq_false_iff.mpr
    (List.any_eq_false.mp (h.solid c hc).2 b (Text.isAsciiSpace_iff.mp hb))

/-- No comma of a list stands among blanks. -/
theorem IsFullList.comma_not_blank {text : String} {n c : Node} (h : IsFullList text n)
    (hc : c ∈ commasOf n) {low high : Nat} (hblank : Text.IsBlank text low high)
    (hlow : low ≤ c.start) : high ≤ c.start := by
  by_contra hhigh
  have hspace := hblank.isAsciiSpace hlow (by omega) (h.commas c hc).2
  cases hspace

/-- Only blanks stand between the entry and a comma behind it. -/
def CommaBehind (t : Tree) (n entry : Node) : Prop :=
  ∃ c ∈ commasOf n, Text.IsBlank t.source entry.stop c.start

/-- Only blanks stand between the entry and a comma in front of it. -/
def CommaInFront (t : Tree) (n entry : Node) : Prop :=
  ∃ c ∈ commasOf n, Text.IsBlank t.source c.stop entry.start

instance (t : Tree) (n entry : Node) : Decidable (CommaBehind t n entry) :=
  inferInstanceAs (Decidable (∃ c ∈ commasOf n, Text.IsBlank t.source entry.stop c.start))

instance (t : Tree) (n entry : Node) : Decidable (CommaInFront t n entry) :=
  inferInstanceAs (Decidable (∃ c ∈ commasOf n, Text.IsBlank t.source c.stop entry.start))

/-- A comma is no entry. -/
theorem isEntry_of_isComma {c : Node} (h : isComma c = true) : isEntry c = false := by
  have hnamed : c.isNamed = false := by rw [Node.isNamed, of_decide_eq_true h]; rfl
  rw [isEntry, hnamed]
  rfl

/-- An entry is no comma. -/
theorem isComma_of_isEntry {c : Node} (h : isEntry c = true) : isComma c = false := by
  cases hcomma : isComma c with
  | false => rfl
  | true => exact absurd (h.symm.trans (isEntry_of_isComma hcomma)) (by decide)

/-- The entries of a list are those among its items. -/
theorem filter_isEntry_itemsOf (n : Node) : (itemsOf n).filter isEntry = entriesOf n := by
  rw [itemsOf, entriesOf, Node.namedChildren, List.filter_filter, List.filter_filter]
  refine List.filter_congr fun c _ => ?_
  have habsorb : (isEntry c && (isEntry c || isComma c)) = isEntry c := by
    cases isEntry c <;> rfl
  rw [habsorb, isEntry, Bool.and_comm]

/-- The commas of a list are those among its items. -/
theorem filter_isComma_itemsOf (n : Node) : (itemsOf n).filter isComma = commasOf n := by
  rw [itemsOf, commasOf, List.filter_filter]
  refine List.filter_congr fun c _ => ?_
  cases isComma c <;> simp

/-- A list that takes turns begins with its first entry, and a comma stands
behind that if anything does. -/
theorem exists_of_first {items back : List Node} (hturns : TakeTurns items = true)
    (hentries : items.filter isEntry = entry :: back) :
    (items = [entry] ∧ back = []) ∨ ∃ comma rest, items = entry :: comma :: rest
      ∧ isComma comma = true ∧ TakeTurns rest = true ∧ rest.filter isEntry = back := by
  match items with
  | [] => cases hentries
  | [first] =>
    have hfirst : isEntry first = true := hturns
    rw [List.filter_cons_of_pos hfirst] at hentries
    obtain ⟨rfl, rfl⟩ := List.cons.inj hentries
    exact .inl ⟨rfl, rfl⟩
  | first :: comma :: rest =>
    rw [TakeTurns, Bool.and_eq_true, Bool.and_eq_true] at hturns
    obtain ⟨⟨hfirst, hcomma⟩, hrest⟩ := hturns
    rw [List.filter_cons_of_pos hfirst, List.filter_cons_of_neg
      (by simp [isEntry_of_isComma hcomma])] at hentries
    obtain ⟨rfl, rfl⟩ := List.cons.inj hentries
    exact .inr ⟨comma, rest, rfl, hcomma, hrest, rfl⟩

/-- One comma stands between two entries that follow one another. -/
theorem exists_of_later {items front back : List Node} {before : Node}
    (hturns : TakeTurns items = true)
    (hentries : items.filter isEntry = front ++ before :: entry :: back) :
    ∃ head comma rest, items = head ++ before :: comma :: entry :: rest ∧ isComma comma = true := by
  induction front generalizing items with
  | nil =>
      obtain ⟨-, hnil⟩ | ⟨comma, rest, rfl, hcomma, hrest, hback⟩ := exists_of_first hturns hentries
      · cases hnil
      · obtain ⟨rfl, -⟩ | ⟨comma', rest', rfl, -⟩ := exists_of_first hrest hback
        · exact ⟨[], comma, [], rfl, hcomma⟩
        · exact ⟨[], comma, _, rfl, hcomma⟩
  | cons first front ih =>
      obtain ⟨-, hnil⟩ | ⟨comma, rest, rfl, -, hrest, hback⟩ := exists_of_first hturns hentries
      · simp at hnil
      · obtain ⟨head, comma', rest', rfl, hcomma'⟩ := ih hrest hback
        exact ⟨first :: comma :: head, comma', rest', rfl, hcomma'⟩

/-- A list without commas has a single entry. -/
theorem eq_singleton_of_no_comma {items front back : List Node} (hturns : TakeTurns items = true)
    (hentries : items.filter isEntry = front ++ entry :: back) (hnone : items.filter isComma = []) :
    items = [entry] ∧ front = [] ∧ back = [] := by
  obtain ⟨first, rest, hfirst⟩ := List.exists_cons_of_ne_nil
    (show front ++ entry :: back ≠ [] by simp)
  obtain ⟨rfl, rfl⟩ | ⟨comma, more, rfl, hcomma, -⟩ :=
    exists_of_first hturns (hentries.trans hfirst)
  · cases front with
    | nil =>
        obtain ⟨rfl, rfl⟩ := List.cons.inj hfirst
        exact ⟨rfl, rfl, rfl⟩
    | cons c front => simp at hfirst
  · exact absurd hcomma (List.filter_eq_nil_iff.mp hnone comma (by simp))

/-- A list takes turns without two neighbours, too. -/
theorem takeTurns_without_two (front back : List Node) (a b : Node)
    (h : TakeTurns (front ++ a :: b :: back) = true) : TakeTurns (front ++ back) = true := by
  match front with
  | [] =>
    rw [List.nil_append, TakeTurns, Bool.and_eq_true] at h
    exact h.2
  | [entry] =>
    rw [List.singleton_append, TakeTurns, Bool.and_eq_true, Bool.and_eq_true] at h
    obtain ⟨⟨hentry, -⟩, hrest⟩ := h
    cases back with
    | nil => exact hentry
    | cons c back =>
        rw [TakeTurns, Bool.and_eq_true, Bool.and_eq_true] at hrest
        rw [List.singleton_append, TakeTurns, hentry, hrest.1.2, hrest.2]
        rfl
  | entry :: comma :: front =>
    rw [List.cons_append, List.cons_append, TakeTurns, Bool.and_eq_true] at h
    rw [List.cons_append, List.cons_append, TakeTurns, h.1,
      takeTurns_without_two front back a b h.2]
    rfl

/-! ### Entries that go -/

/-- The edit reaches over the node. -/
def Takes (e : Edit) (c : Node) : Prop := e.start ≤ c.start ∧ c.stop ≤ e.stop

instance (e : Edit) (c : Node) : Decidable (Takes e c) :=
  inferInstanceAs (Decidable (e.start ≤ c.start ∧ c.stop ≤ e.stop))

/-- The edit drops an entry of a list and no other one, and one of its
commas if it has any. -/
structure Removes (n entry : Node) (e : Edit) : Prop where
  /-- Nothing comes in. -/
  drops : e.replacement = ""
  /-- No part of the list is cut. -/
  whole : ∀ c ∈ n.children, Takes e c ∨ c.stop ≤ e.start ∨ e.stop ≤ c.start
  /-- Of the entries only this one goes. -/
  entries : ∀ c ∈ entriesOf n, Takes e c ↔ c = entry
  /-- One comma goes, if there are any. -/
  comma : commasOf n = [] ∨ ∃! c, c ∈ commasOf n ∧ Takes e c

/-- The entries and commas that stay. -/
def itemsLeft (n : Node) (e : Edit) : List Node := (itemsOf n).filter fun c => !(decide (Takes e c))

/-- The items of a list are parts of it in text order. -/
theorem itemsOf_ordered (hspans : n.SpansNested) :
    (itemsOf n).Pairwise fun a b => a.stop ≤ b.start :=
  (hspans.apart n (Node.mem_preorder_self n)).sublist List.filter_sublist

/-- The parts that go stand together. -/
theorem exists_around {l : List Node} (hsolid : ∀ c ∈ l, c.start < c.stop)
    (horder : l.Pairwise fun a b => a.stop ≤ b.start)
    (hwhole : ∀ c ∈ l, Takes e c ∨ c.stop ≤ e.start ∨ e.stop ≤ c.start) :
    ∃ front back, l = front ++ l.filter (fun c => decide (Takes e c)) ++ back
      ∧ l.filter (fun c => !(decide (Takes e c))) = front ++ back
      ∧ ∀ c ∈ front, c.stop ≤ e.start := by
  induction l with
  | nil => exact ⟨[], [], rfl, rfl, by simp⟩
  | cons c l ih =>
      obtain ⟨hc, hsolid⟩ := List.forall_mem_cons.mp hsolid
      obtain ⟨hbehind, horder⟩ := List.pairwise_cons.mp horder
      obtain ⟨hcWhole, hwhole⟩ := List.forall_mem_cons.mp hwhole
      obtain ⟨front, back, hl, hleft, hfront⟩ := ih hsolid horder hwhole
      rcases hcWhole with htakes | hbefore | hafter
      · -- Nothing behind a part that goes stands in front of the range.
        have hnil : front = [] := List.eq_nil_iff_forall_not_mem.mpr fun d hd => by
          have hmem : d ∈ l := by rw [hl]; simp [hd]
          have h1 := hbehind d hmem
          have h2 := hsolid d hmem
          have h3 := hfront d hd
          unfold Takes at htakes
          omega
        subst hnil
        refine ⟨[], back, ?_, ?_, by simp⟩
        · rw [List.filter_cons_of_pos (by simpa using htakes)]
          exact congrArg (c :: ·) hl
        · rw [List.filter_cons_of_neg (by simpa using htakes)]
          exact hleft
      · have hstays : ¬ Takes e c := by
          unfold Takes
          omega
        refine ⟨c :: front, back, ?_, ?_, List.forall_mem_cons.mpr ⟨hbefore, hfront⟩⟩
        · rw [List.filter_cons_of_neg (by simpa using hstays)]
          exact congrArg (c :: ·) hl
        · rw [List.filter_cons_of_pos (by simpa using hstays), hleft]
          rfl
      · have hstays : ∀ d ∈ c :: l, ¬ Takes e d := fun d hd => by
          have hdSolid : d.start < d.stop ∧ e.stop ≤ d.start := by
            rcases List.mem_cons.mp hd with rfl | hd
            · exact ⟨hc, hafter⟩
            · have := hbehind d hd
              exact ⟨hsolid d hd, by omega⟩
          unfold Takes
          omega
        have hnone := List.filter_eq_nil_iff.mpr fun d hd => mt of_decide_eq_true (hstays d hd)
        have hall := List.filter_eq_self.mpr fun d hd =>
          (Bool.not_eq_true' _).mpr (decide_eq_false (hstays d hd))
        exact ⟨[], c :: l, by rw [hnone]; rfl, hall, by simp⟩

/-- No item of a list is there twice. -/
theorem nodup_itemsOf (hspans : n.SpansNested) (hlist : IsFullList t.source n) :
    (itemsOf n).Nodup :=
  (itemsOf_ordered hspans).imp_of_mem fun {a b} ha _ hab heq => by
    have hsolid := (hlist.solid a (List.mem_filter.mp ha).1).1
    rw [heq] at hab hsolid
    omega

/-- If there are commas, one of them goes. -/
theorem Removes.exists_comma {comma : Node} (h : Removes n entry e) (hcomma : comma ∈ commasOf n) :
    ∃ c ∈ commasOf n, Takes e c := by
  rcases h.comma with hnil | ⟨c, ⟨hc, htakes⟩, -⟩
  · exact absurd hcomma (hnil ▸ List.not_mem_nil)
  · exact ⟨c, hc, htakes⟩

/-- An entry and one comma are all that goes. -/
theorem Removes.perm_gone {comma : Node} (hspans : n.SpansNested) (hlist : IsFullList t.source n)
    (h : Removes n entry e) (hentry : entry ∈ entriesOf n) (hcomma : comma ∈ commasOf n)
    (htakes : Takes e comma) (hunique : ∀ c, c ∈ commasOf n ∧ Takes e c → c = comma) :
    ((itemsOf n).filter fun c => decide (Takes e c)).Perm [entry, comma] := by
  have hfilter := filter_isEntry_itemsOf n
  have hcommas := filter_isComma_itemsOf n
  obtain ⟨hentryItem, hisEntry⟩ := List.mem_filter.mp (hfilter ▸ hentry)
  obtain ⟨hcommaItem, hisComma⟩ := List.mem_filter.mp (hcommas ▸ hcomma)
  have hne : entry ≠ comma := fun heq => by
    rw [heq, isEntry_of_isComma hisComma] at hisEntry
    cases hisEntry
  refine (List.perm_ext_iff_of_nodup ((nodup_itemsOf hspans hlist).filter _)
    (by simpa using hne)).mpr fun c => ?_
  rw [List.mem_filter, decide_eq_true_eq, List.mem_pair]
  constructor
  · rintro ⟨hc, hctakes⟩
    rcases Bool.or_eq_true_iff.mp (List.mem_filter.mp hc).2 with hkind | hkind
    · have hc := hfilter ▸ List.mem_filter.mpr ⟨hc, hkind⟩
      exact .inl ((h.entries c hc).mp hctakes)
    · have hc := hcommas ▸ List.mem_filter.mpr ⟨hc, hkind⟩
      exact .inr (hunique c ⟨hc, hctakes⟩)
  · rintro (rfl | rfl)
    · exact ⟨hentryItem, (h.entries c hentry).mpr rfl⟩
    · exact ⟨hcommaItem, htakes⟩

/-- If an entry is removed, entries and commas take turns in what stays. -/
theorem Removes.takeTurns_left {front back : List Node} (hspans : n.SpansNested)
    (hlist : IsFullList t.source n) (hentries : entriesOf n = front ++ entry :: back)
    (h : Removes n entry e) : TakeTurns (itemsLeft n e) = true := by
  have hsub : ∀ c ∈ itemsOf n, c ∈ n.children := fun c hc => (List.mem_filter.mp hc).1
  have hentry : entry ∈ entriesOf n := by simp [hentries]
  have hturns := hlist.turns
  rcases h.comma with hnone | ⟨comma, ⟨hcomma, htakes⟩, hunique⟩
  · obtain ⟨hsingle, -, -⟩ := eq_singleton_of_no_comma hturns
      ((filter_isEntry_itemsOf n).trans hentries) ((filter_isComma_itemsOf n).trans hnone)
    have htakes : Takes e entry := (h.entries entry hentry).mpr rfl
    rw [itemsLeft, hsingle, List.filter_cons_of_neg (by simpa using htakes)]
    rfl
  · obtain ⟨head, tail, hitems, hleft, -⟩ := exists_around
      (fun c hc => (hlist.solid c (hsub c hc)).1) (itemsOf_ordered hspans) fun c hc =>
        h.whole c (hsub c hc)
    -- Two items go, and they are neighbours.
    obtain ⟨a, b, hab⟩ := List.length_eq_two.mp
      (h.perm_gone hspans hlist hentry hcomma htakes hunique).length_eq
    rw [hitems, hab, List.append_assoc] at hturns
    rw [itemsLeft, hleft]
    exact takeTurns_without_two head tail a b hturns

/-- If an entry is removed, the other entries stay in their order. -/
theorem Removes.filter_isEntry_left {front back : List Node} (hspans : n.SpansNested)
    (hlist : IsFullList t.source n) (hentries : entriesOf n = front ++ entry :: back)
    (h : Removes n entry e) : (itemsLeft n e).filter isEntry = front ++ back := by
  have hfilter := filter_isEntry_itemsOf n
  have htakes : Takes e entry := (h.entries entry (by simp [hentries])).mpr rfl
  have hcomm : (itemsLeft n e).filter isEntry
      = (entriesOf n).filter fun c => !(decide (Takes e c)) := by
    rw [itemsLeft, List.filter_filter, ← hfilter, List.filter_filter]
    exact List.filter_congr fun c _ => Bool.and_comm ..
  have hnodup : (front ++ entry :: back).Nodup :=
    hentries ▸ hfilter ▸ (nodup_itemsOf hspans hlist).filter _
  have hothers : entry ∉ front ++ back := (List.nodup_cons.mp (List.nodup_middle.mp hnodup)).1
  have hstay : ∀ c ∈ front ++ back, (!(decide (Takes e c))) = true := fun c hc => by
    have hmem : c ∈ entriesOf n := by
      rw [hentries]
      simp only [List.mem_append, List.mem_cons] at hc ⊢
      tauto
    have hne : ¬ Takes e c := fun hctakes =>
      hothers ((h.entries c hmem).mp hctakes ▸ hc)
    simpa using hne
  rw [hcomm, hentries, List.filter_append, List.filter_cons_of_neg (by simpa using htakes),
    ← List.filter_append]
  exact List.filter_eq_self.mpr hstay

/-- An edit from edge to edge that reaches over an entry and a comma beside
it removes the entry. -/
theorem removes_of_split (head gone tail : List Node) (hlist : IsFullList t.source n)
    (hdrops : e.replacement = "") (hstart : n.IsEdge e.start) (hstop : n.IsEdge e.stop)
    (hitems : itemsOf n = head ++ gone ++ tail) (hhead : ∀ c ∈ head, c.stop ≤ e.start)
    (hgone : ∀ c ∈ gone, Takes e c) (htail : ∀ c ∈ tail, e.stop ≤ c.start)
    (hentry : gone.filter isEntry = [entry])
    (hcomma : commasOf n = [] ∨ ∃ c, gone.filter isComma = [c]) : Removes n entry e := by
  -- An item is in front of the edit, one of those that go, or behind it.
  have htakes : ∀ c ∈ itemsOf n, Takes e c → c ∈ gone := fun c hc htakes => by
    have hsolid := (hlist.solid c (List.mem_filter.mp hc).1).1
    unfold Takes at htakes
    rw [hitems, List.mem_append, List.mem_append] at hc
    rcases hc with (hc | hc) | hc
    · have := hhead c hc
      omega
    · exact hc
    · have := htail c hc
      omega
  have hitem : ∀ c ∈ gone, c ∈ itemsOf n := fun c hc => by simp [hitems, hc]
  refine ⟨hdrops, fun c hc => ?_, fun c hc => ?_, hcomma.imp_right ?_⟩
  · have h1 := hstart.2.2 c hc
    have h2 := hstop.2.2 c hc
    unfold Takes
    omega
  · obtain ⟨hc, hkind⟩ := List.mem_filter.mp (filter_isEntry_itemsOf n ▸ hc)
    have hsingle : c ∈ gone.filter isEntry ↔ c = entry := by rw [hentry, List.mem_singleton]
    rw [← hsingle, List.mem_filter]
    exact ⟨fun h => ⟨htakes c hc h, hkind⟩, fun h => hgone c h.1⟩
  · rintro ⟨comma, hcomma⟩
    have hsingle : ∀ c, c ∈ gone.filter isComma ↔ c = comma := fun c => by
      rw [hcomma, List.mem_singleton]
    obtain ⟨hmem, hkind⟩ := List.mem_filter.mp ((hsingle comma).mpr rfl)
    refine ⟨comma, ⟨?_, hgone comma hmem⟩, fun c ⟨hc, hctakes⟩ => (hsingle c).mp ?_⟩
    · rw [← filter_isComma_itemsOf]
      exact List.mem_filter.mpr ⟨hitem comma hmem, hkind⟩
    · obtain ⟨hc, hkind⟩ := List.mem_filter.mp (filter_isComma_itemsOf n ▸ hc)
      exact List.mem_filter.mpr ⟨htakes c hc hctakes, hkind⟩

/-- Edits that reach over the same parts remove the same entry. -/
theorem Removes.congr {e' : Edit} (hdrops : e.replacement = e'.replacement)
    (hstart : e.start = e'.start)
    (hstop : ∀ c ∈ n.children, (c.stop ≤ e.stop ↔ c.stop ≤ e'.stop)
      ∧ (e.stop ≤ c.start ↔ e'.stop ≤ c.start))
    (h : Removes n entry e) : Removes n entry e' := by
  have htakes : ∀ c ∈ n.children, (Takes e' c ↔ Takes e c) := fun c hc => by
    rw [Takes, Takes, hstart, (hstop c hc).1]
  refine ⟨hdrops ▸ h.drops, fun c hc => ?_, fun c hc => ?_, h.comma.imp_right ?_⟩
  · rw [htakes c hc, ← hstart, ← (hstop c hc).2]
    exact h.whole c hc
  · rw [htakes c (List.mem_filter.mp (List.mem_filter.mp hc).1).1]
    exact h.entries c hc
  · rintro ⟨comma, ⟨hcomma, hcommaTakes⟩, hunique⟩
    have hchild : ∀ c ∈ commasOf n, c ∈ n.children := fun c hc => (List.mem_filter.mp hc).1
    exact ⟨comma, ⟨hcomma, (htakes comma (hchild comma hcomma)).mpr hcommaTakes⟩,
      fun c ⟨hc, hctakes⟩ => hunique c ⟨hc, (htakes c (hchild c hc)).mp hctakes⟩⟩

/-- The line break that goes with an emptied line is no part of the list. -/
theorem removes_withLineBreak_iff (hlist : IsFullList t.source n) (hstop : n.IsEdge e.stop)
    (batch : List Edit) :
    Removes n entry (e.withLineBreak t.source batch) ↔ Removes n entry e := by
  unfold Edit.withLineBreak
  split
  · rename_i hempties
    have hfeed : Text.hasCharAt t.source e.stop '\n' = true := by
      simp only [Edit.emptiesLine, Bool.and_eq_true] at hempties
      exact hempties.1.2
    have hsame : ∀ c ∈ n.children, (c.stop ≤ e.stop ↔ c.stop ≤ e.stop + 1)
        ∧ (e.stop ≤ c.start ↔ e.stop + 1 ≤ c.start) := fun c hc => by
      have hsolid := (hlist.solid c hc).1
      have hne : c.start ≠ e.stop := fun heq => by
        have hblank := hlist.not_blank hc (b := '\n') (by decide)
        rw [heq, hfeed] at hblank
        cases hblank
      have hedge := hstop.2.2 c hc
      omega
    exact ⟨Removes.congr rfl rfl fun c hc => ⟨(hsame c hc).1.symm, (hsame c hc).2.symm⟩,
      Removes.congr rfl rfl hsame⟩
  · rfl

/-! ### Commas of a list beside its entries -/

section Brackets

variable (hspans : n.SpansNested) (hbrackets : n.Bracketed t.source opening closing)
  (hopening : Text.isAsciiSpace opening = false ∧ opening ≠ ',')
  (hclosing : Text.isAsciiSpace closing = false ∧ closing ≠ ',')
  (hlist : IsFullList t.source n)

include hspans hbrackets hlist

include hclosing in
/-- An entry ends with a comma of the list behind blanks, or by itself. -/
theorem endWithComma_entry (hentry : entry ∈ entriesOf n) :
    (∃ c ∈ commasOf n, Text.IsBlank t.source entry.stop c.start ∧ endWithComma t entry = c.stop)
      ∨ (¬ CommaBehind t n entry ∧ endWithComma t entry = entry.stop) := by
  obtain ⟨hchild, hstart, hstop⟩ := of_mem_entriesOf hspans hbrackets hentry
  have hproper := hspans.proper entry (Node.mem_preorder_of_child hchild)
  rcases endWithComma_cases t entry with hend | ⟨p, hend, hblank, hcomma⟩
  · refine .inr ⟨?_, hend⟩
    rintro ⟨c, hc, hblank⟩
    have hwith := endWithComma_of_isBlank hblank (hlist.commas c hc).2
    have hle := hblank.le
    omega
  · have hle := hblank.le
    -- The comma is in front of the closing bracket.
    have hinside : p < n.stop := by
      by_contra hnot
      have hfirst : entry.stop ≤ n.stop - 1 := by omega
      have hspace := hblank.isAsciiSpace hfirst (by omega) hbrackets.closes
      rw [hclosing.1] at hspace
      cases hspace
    rcases hlist.own p hinside (by omega) hcomma with ⟨c, hc, rfl⟩ | ⟨c, hc, hbefore, hbehind⟩
    · exact .inl ⟨c, hc, hblank, hend.trans (hlist.commas c hc).1.symm⟩
    · -- A part with the comma inside would start with a blank.
      have hne : c ≠ entry := by
        rintro rfl
        omega
      have hapart := hspans.children_apart hc hchild hne
      have hfirst : entry.stop ≤ c.start := by omega
      obtain ⟨b, hb, hspace⟩ := hblank.exists_hasCharAt hfirst hbefore
      have hsolid := hlist.not_blank hc hspace
      rw [hb] at hsolid
      cases hsolid

include hopening in
/-- An entry starts with a comma of the list in front of blanks, or by
itself, or else with a comma that ends a comment or another entry. -/
theorem startWithComma_entry (hentry : entry ∈ entriesOf n) :
    (∃ c ∈ commasOf n, Text.IsBlank t.source c.stop entry.start
        ∧ startWithComma t entry = c.start)
      ∨ (¬ CommaInFront t n entry ∧ (startWithComma t entry = entry.start
        ∨ ∃ c ∈ n.children, c.start < startWithComma t entry
          ∧ startWithComma t entry < c.stop)) := by
  obtain ⟨hchild, hstart, hstop⟩ := of_mem_entriesOf hspans hbrackets hentry
  have hwith : ∀ c ∈ commasOf n, Text.IsBlank t.source c.stop entry.start →
      startWithComma t entry = c.start ∧ c.stop = c.start + 1 ∧ c.stop ≤ entry.start :=
    fun c hc hblank => by
      obtain ⟨hsize, hcomma⟩ := hlist.commas c hc
      exact ⟨startWithComma_of_isBlank (hsize ▸ hblank) hcomma, hsize, hblank.le⟩
  rcases startWithComma_cases t entry with hown | ⟨p, hown, hblank, hcomma⟩
  · refine .inr ⟨?_, .inl hown⟩
    rintro ⟨c, hc, hblank⟩
    have := hwith c hc hblank
    omega
  · have hle := hblank.le
    -- The comma is behind the opening bracket.
    have hinside : n.start < p := by
      by_contra hnot
      rcases Nat.eq_or_lt_of_le (Nat.le_of_not_lt hnot) with rfl | hlt
      · exact hopening.2 (Text.eq_of_hasCharAt hbrackets.opens hcomma)
      · have hspace := hblank.isAsciiSpace hlt (by omega) hbrackets.opens
        rw [hopening.1] at hspace
        cases hspace
    have hproper := hspans.proper entry (Node.mem_preorder_of_child hchild)
    rcases hlist.own p (by omega) hinside hcomma with ⟨c, hc, rfl⟩ | ⟨c, hc, hbefore, hbehind⟩
    · exact .inl ⟨c, hc, (hlist.commas c hc).1 ▸ hblank, hown⟩
    · refine .inr ⟨?_, .inr ⟨c, hc, by omega, by omega⟩⟩
      -- A comma of the list would be the one inside the other part.
      rintro ⟨d, hd, hdblank⟩
      obtain ⟨hdown, hdsize, -⟩ := hwith d hd hdblank
      have hne : c ≠ d := by
        rintro rfl
        omega
      have hapart := hspans.children_apart hc (List.mem_filter.mp hd).1 hne
      omega

omit hbrackets in
/-- A comma with only blanks between the first entry and it is the first comma:
no other item is blank. -/
theorem eq_first_comma {comma other : Node} {rest : List Node}
    (hitems : itemsOf n = entry :: comma :: rest) (hentry : isEntry entry = true)
    (hcomma : comma ∈ commasOf n) (hother : other ∈ commasOf n)
    (hblank : Text.IsBlank t.source entry.stop other.start) : other = comma := by
  have horder := itemsOf_ordered hspans
  rw [hitems] at horder
  obtain ⟨hbehind, horder⟩ := List.pairwise_cons.mp horder
  obtain ⟨hmem, hkind⟩ := List.mem_filter.mp (filter_isComma_itemsOf n ▸ hother)
  rw [hitems] at hmem
  rcases List.mem_cons.mp hmem with rfl | hmem
  · rw [isComma_of_isEntry hentry] at hkind
    cases hkind
  · refine (List.mem_cons.mp hmem).resolve_right fun hrest => ?_
    have hle := (List.pairwise_cons.mp horder).1 other hrest
    have hsize := (hlist.commas comma hcomma).1
    have hapart := hlist.comma_not_blank hcomma hblank (hbehind comma (by simp))
    omega

/-- A comma with only blanks between it and a later entry is the one right in
front of the entry. -/
theorem eq_comma_before {before comma other : Node} {head rest : List Node}
    (hitems : itemsOf n = head ++ before :: comma :: entry :: rest)
    (hentry : entry ∈ entriesOf n) (hcomma : comma ∈ commasOf n) (hother : other ∈ commasOf n)
    (hblank : Text.IsBlank t.source other.stop entry.start) : other = comma := by
  have horder := itemsOf_ordered hspans
  rw [hitems] at horder
  obtain ⟨-, horder, hhead⟩ := List.pairwise_append.mp horder
  obtain ⟨hbefore, horder⟩ := List.pairwise_cons.mp horder
  obtain ⟨hafter, horder⟩ := List.pairwise_cons.mp horder
  have hle := hblank.le
  have hsize := (hlist.commas other hother).1
  have hproper := hspans.proper entry
    (Node.mem_preorder_of_child (of_mem_entriesOf hspans hbrackets hentry).1)
  have hnotBefore : ¬ other.stop ≤ comma.start := fun hstop => by
    have hgap := hafter entry (by simp)
    have hcommaSize := (hlist.commas comma hcomma).1
    have hapart := hlist.comma_not_blank hcomma hblank hstop
    omega
  have hitem : other ∈ itemsOf n :=
    (List.mem_filter.mp (filter_isComma_itemsOf n ▸ hother)).1
  rw [hitems] at hitem
  simp only [List.mem_append, List.mem_cons] at hitem
  rcases hitem with hmem | rfl | rfl | rfl | hmem
  · exact absurd (hhead other hmem comma (by simp)) hnotBefore
  · exact absurd (hbefore comma (by simp)) hnotBefore
  · rfl
  · omega
  · have hrest := (List.pairwise_cons.mp horder).1 other hmem
    omega

/-! ### The four ways to remove an entry -/

include hclosing in
/-- An entry that goes to its own end, or to the end of a comma, goes to an
edge. -/
theorem isEdge_endWithComma (hentry : entry ∈ entriesOf n) : n.IsEdge (endWithComma t entry) := by
  rcases endWithComma_entry hspans hbrackets hclosing hlist hentry with ⟨c, hc, -, hend⟩ | ⟨-, hend⟩
  · rw [hend]
    exact (Node.isEdge_child hspans (List.mem_filter.mp hc).1).2
  · rw [hend]
    exact (Node.isEdge_child hspans (of_mem_entriesOf hspans hbrackets hentry).1).2

include hclosing in
/-- The first entry, with all that is in front of it, goes with one comma if
only blanks stand between, or if there is none. -/
theorem removes_first_iff {back : List Node} (hentries : entriesOf n = entry :: back) :
    Removes n entry (.delete (n.start + 1) (endWithComma t entry))
      ↔ commasOf n = [] ∨ CommaBehind t n entry := by
  have hentry : entry ∈ entriesOf n := by simp [hentries]
  obtain ⟨-, hstart, -⟩ := of_mem_entriesOf hspans hbrackets hentry
  have hopen := (isEdge_of_bracketed hspans hbrackets).2.1
  have hends := isEdge_endWithComma hspans hbrackets hclosing hlist hentry
  have hisEntry : isEntry entry = true := (List.mem_filter.mp (filter_isEntry_itemsOf n ▸ hentry)).2
  have htakes : Takes (.delete (n.start + 1) (endWithComma t entry)) entry :=
    ⟨hstart, le_endWithComma t entry⟩
  have hcommas := filter_isComma_itemsOf n
  have horder := itemsOf_ordered hspans
  rcases exists_of_first hlist.turns ((filter_isEntry_itemsOf n).trans hentries) with
    ⟨hitems, -⟩ | ⟨comma, rest, hitems, hcomma, -⟩
  · -- There is nothing but the entry.
    have hnone : commasOf n = [] := by
      rw [← hcommas, hitems, List.filter_cons_of_neg (by simp [isComma_of_isEntry hisEntry])]
      rfl
    exact iff_of_true (removes_of_split [] [entry] [] hlist rfl hopen
      hends hitems (by simp) (by simpa using htakes) (by simp) (by simp [hisEntry]) (.inl hnone))
      (.inl hnone)
  · rw [hitems] at horder
    obtain ⟨hbehind, horder⟩ := List.pairwise_cons.mp horder
    have hrest := (List.pairwise_cons.mp horder).1
    have hmem : comma ∈ commasOf n := by simp [← hcommas, hitems, hcomma]
    rcases endWithComma_entry hspans hbrackets hclosing hlist hentry with
      ⟨d, hd, hblank, hend⟩ | ⟨hnot, hend⟩
    · obtain rfl := eq_first_comma hspans hlist hitems hisEntry hmem hd hblank
      refine iff_of_true (removes_of_split [] [entry, d] rest hlist
        rfl hopen hends hitems (by simp) ?_ ?_ ?_ (.inr ⟨d, ?_⟩)) (.inr ⟨d, hd, hblank⟩)
      · refine List.forall_mem_cons.mpr ⟨htakes, List.forall_mem_cons.mpr ⟨⟨?_, ?_⟩, by simp⟩⟩
        · show n.start + 1 ≤ d.start
          have hle := hbehind d (by simp)
          have hproper := hspans.proper entry
            (Node.mem_preorder_of_child (of_mem_entriesOf hspans hbrackets hentry).1)
          omega
        · exact hend.ge
      · intro c hc
        show endWithComma t entry ≤ c.start
        rw [hend]
        exact hrest c hc
      · simp [hisEntry, isEntry_of_isComma hcomma]
      · simp [hcomma, isComma_of_isEntry hisEntry]
    · -- All commas stand behind what goes.
      refine iff_of_false (fun h => ?_) (not_or.mpr ⟨List.ne_nil_of_mem hmem, hnot⟩)
      obtain ⟨d, hd, htakes⟩ := h.exists_comma hmem
      obtain ⟨hditem, hdkind⟩ := List.mem_filter.mp (hcommas ▸ hd)
      rw [hitems] at hditem
      have hle := hbehind d <| (List.mem_cons.mp hditem).resolve_left <| by
        rintro rfl
        rw [isComma_of_isEntry hisEntry] at hdkind
        cases hdkind
      have hsize := (hlist.commas d hd).1
      have hstop : d.stop ≤ endWithComma t entry := htakes.2
      omega

omit hbrackets in
/-- The first of several entries goes with the comma behind it. -/
theorem removes_toNext {next : Node} {back : List Node}
    (hentries : entriesOf n = entry :: next :: back) :
    Removes n entry (.delete entry.start next.start) := by
  have hfilter := filter_isEntry_itemsOf n
  have horder := itemsOf_ordered hspans
  have hisEntry : ∀ c ∈ entriesOf n, isEntry c = true ∧ c ∈ n.children := fun c hc =>
    ⟨(List.mem_filter.mp (hfilter ▸ hc)).2, (List.mem_filter.mp (List.mem_filter.mp hc).1).1⟩
  obtain ⟨hentry, hchild⟩ := hisEntry entry (by simp [hentries])
  obtain ⟨-, hnext⟩ := hisEntry next (by simp [hentries])
  obtain ⟨-, hnil⟩ | ⟨comma, rest, hitems, hcomma, hrest, hback⟩ :=
    exists_of_first hlist.turns (hfilter.trans hentries)
  · -- There is a next entry, so a comma stands between, and the next entry behind that.
    cases hnil
  · obtain ⟨more, rfl⟩ : ∃ more, rest = next :: more := by
      rcases exists_of_first hrest hback with ⟨rfl, -⟩ | ⟨_, _, rfl, -⟩ <;> exact ⟨_, rfl⟩
    rw [hitems] at horder
    obtain ⟨hbehind, horder⟩ := List.pairwise_cons.mp horder
    obtain ⟨hcommaNext, horder⟩ := List.pairwise_cons.mp horder
    have hmore := (List.pairwise_cons.mp horder).1
    have hproper := hspans.proper entry (Node.mem_preorder_of_child hchild)
    have hgap := hbehind comma (by simp)
    have hgap' := hcommaNext next (by simp)
    have hcommaProper := (hlist.commas comma (by simp [← filter_isComma_itemsOf, hitems, hcomma])).1
    -- The edit ends where the next entry starts, so it takes the entry and the comma.
    have hentryTakes : Takes (.delete entry.start next.start) entry := by
      refine ⟨Nat.le_refl _, ?_⟩
      show entry.stop ≤ next.start
      omega
    have hcommaTakes : Takes (.delete entry.start next.start) comma := by
      refine ⟨?_, hgap'⟩
      show entry.start ≤ comma.start
      omega
    refine removes_of_split [] [entry, comma] (next :: more) hlist rfl
      (Node.isEdge_child hspans hchild).1 (Node.isEdge_child hspans hnext).1 hitems (by simp)
      (by simpa using ⟨hentryTakes, hcommaTakes⟩)
      (List.forall_mem_cons.mpr ⟨Nat.le_refl _, fun c hc => ?_⟩)
      (by simp [hentry, isEntry_of_isComma hcomma])
      (.inr ⟨comma, by simp [hcomma, isComma_of_isEntry hentry]⟩)
    · have hle := hmore c hc
      have hnextProper := hspans.proper next (Node.mem_preorder_of_child hnext)
      show next.start ≤ c.start
      omega

omit hbrackets in
/-- An entry goes with the comma in front of it if the edit starts there, or
further in front where the entry before ends. -/
theorem removes_behind {before comma : Node} {head rest : List Node} {low : Nat}
    (hitems : itemsOf n = head ++ before :: comma :: entry :: rest)
    (hentry : isEntry entry = true) (hcomma : isComma comma = true)
    (hlow : n.IsEdge low) (hbefore : before.stop ≤ low) (hle : low ≤ comma.start) :
    Removes n entry (.delete low entry.stop) := by
  have horder := itemsOf_ordered hspans
  have hsplit : itemsOf n = (head ++ [before]) ++ [comma, entry] ++ rest := by
    rw [hitems]
    simp
  have hchild : ∀ c ∈ itemsOf n, c ∈ n.children := fun c hc => (List.mem_filter.mp hc).1
  have hentryChild := hchild entry (by simp [hitems])
  rw [hitems] at horder
  obtain ⟨-, horder, hhead⟩ := List.pairwise_append.mp horder
  obtain ⟨-, horder⟩ := List.pairwise_cons.mp horder
  obtain ⟨hcommaBefore, horder⟩ := List.pairwise_cons.mp horder
  have hrest := (List.pairwise_cons.mp horder).1
  have hgap := hcommaBefore entry (by simp)
  have hcommaProper := hspans.proper comma
    (Node.mem_preorder_of_child (hchild comma (by simp [hitems])))
  have hproper := hspans.proper entry (Node.mem_preorder_of_child hentryChild)
  have hbeforeProper := hspans.proper before
    (Node.mem_preorder_of_child (hchild before (by simp [hitems])))
  have hcommaTakes : Takes (.delete low entry.stop) comma := by
    refine ⟨hle, ?_⟩
    show comma.stop ≤ entry.stop
    omega
  have hentryTakes : Takes (.delete low entry.stop) entry := by
    refine ⟨?_, Nat.le_refl _⟩
    show low ≤ entry.start
    omega
  refine removes_of_split _ _ _ hlist rfl hlow (Node.isEdge_child hspans hentryChild).2 hsplit
    (fun c hc => ?_) (by simpa using ⟨hcommaTakes, hentryTakes⟩)
    hrest (by simp [hentry, isEntry_of_isComma hcomma])
    (.inr ⟨comma, by simp [hcomma, isComma_of_isEntry hentry]⟩)
  show c.stop ≤ low
  rcases List.mem_append.mp hc with hc | hc
  · -- All items in front end where the one before the comma does, or earlier.
    have := hhead c hc before (by simp)
    omega
  · obtain rfl := List.mem_singleton.mp hc
    exact hbefore

omit hbrackets in
/-- A later entry of an object goes with all that is behind the one before. -/
theorem removes_fromBefore {before : Node} {front back : List Node}
    (hentries : entriesOf n = front ++ before :: entry :: back) :
    Removes n entry (.delete before.stop entry.stop) := by
  have hfilter := filter_isEntry_itemsOf n
  obtain ⟨head, comma, rest, hitems, hcomma⟩ := exists_of_later hlist.turns (hfilter.trans hentries)
  have hentry : entry ∈ (itemsOf n).filter isEntry := by simp [hfilter, hentries]
  have hitem : before ∈ itemsOf n := by simp [hitems]
  have horder := itemsOf_ordered hspans
  rw [hitems] at horder
  have hgap := (List.pairwise_cons.mp (List.pairwise_append.mp horder).2.1).1 comma (by simp)
  exact removes_behind hspans hlist hitems (List.mem_filter.mp hentry).2 hcomma
    (Node.isEdge_child hspans (List.mem_filter.mp hitem).1).2 (Nat.le_refl _) hgap

include hopening in
/-- A later entry of an array goes with the comma in front of it if only
blanks stand between. -/
theorem removes_fromComma_iff {before : Node} {front back : List Node}
    (hentries : entriesOf n = front ++ before :: entry :: back) :
    Removes n entry (.delete (startWithComma t entry) entry.stop) ↔ CommaInFront t n entry := by
  have hfilter := filter_isEntry_itemsOf n
  have hcommas := filter_isComma_itemsOf n
  have hentry : entry ∈ entriesOf n := by simp [hentries]
  have hisEntry : isEntry entry = true := (List.mem_filter.mp (hfilter ▸ hentry)).2
  obtain ⟨hchild, -, -⟩ := of_mem_entriesOf hspans hbrackets hentry
  obtain ⟨head, comma, rest, hitems, hcomma⟩ := exists_of_later hlist.turns (hfilter.trans hentries)
  have hmem : comma ∈ commasOf n := by simp [← hcommas, hitems, hcomma]
  rcases startWithComma_entry hspans hbrackets hopening hlist hentry with
    ⟨d, hd, hblank, hstart⟩ | ⟨hnot, hstart⟩
  · obtain rfl := eq_comma_before hspans hbrackets hlist hitems hentry hmem hd hblank
    have horder := itemsOf_ordered hspans
    rw [hitems] at horder
    have hgap := (List.pairwise_cons.mp (List.pairwise_append.mp horder).2.1).1 d (by simp)
    rw [hstart]
    exact iff_of_true (removes_behind hspans hlist hitems hisEntry hcomma
      (Node.isEdge_child hspans (List.mem_filter.mp hd).1).1 hgap (Nat.le_refl _))
      ⟨d, hd, hblank⟩
  · refine iff_of_false (fun h => ?_) hnot
    rcases hstart with hown | ⟨c, hc, hcBefore, hcBehind⟩
    · -- No comma goes.
      obtain ⟨d, hd, htakes⟩ := h.exists_comma hmem
      have hne : d ≠ entry := by
        rintro rfl
        have hkind := (List.mem_filter.mp hd).2
        rw [isComma_of_isEntry hisEntry] at hkind
        cases hkind
      have hapart := hspans.children_apart (List.mem_filter.mp hd).1 hchild hne
      have hsize := (hlist.commas d hd).1
      have hlow : startWithComma t entry ≤ d.start := htakes.1
      have hhigh : d.stop ≤ entry.stop := htakes.2
      omega
    · -- A comment or another entry is cut.
      have hwhole := h.whole c hc
      have hle := startWithComma_le t entry
      have hproper := hspans.proper entry (Node.mem_preorder_of_child hchild)
      have hcut : (startWithComma t entry ≤ c.start ∧ c.stop ≤ entry.stop)
          ∨ c.stop ≤ startWithComma t entry ∨ entry.stop ≤ c.start := hwhole
      omega

end Brackets

/-! ### Arrays and objects -/

/-- An element goes from an array with one comma, if there are any, unless a
comment keeps it apart from the comma: from the one in front of it, or from
the one behind the only element. -/
theorem removeElement_removes_iff {array element : Node} (ht : t.WellFormed)
    (harray : array ∈ t.nodes) (hkind : array.is .array = true) (hlist : IsFullList t.source array)
    (helement : element ∈ entriesOf array) :
    ∃ e, (removeElement t array element).edits = [e] ∧ ∀ batch,
      (Removes array element (e.withLineBreak t.source batch) ↔
        (entriesOf array = [element] → commasOf array = [] ∨ CommaBehind t array element)
          ∧ ((entriesOf array).head? ≠ some element → CommaInFront t array element)) := by
  have hspans := ht.spans.below harray
  have hbrackets := ht.brackets array harray hkind
  have hchild : ∀ c ∈ entriesOf array, c ∈ array.children := fun c hc =>
    (of_mem_entriesOf hspans hbrackets hc).1
  have hid : ∀ c ∈ entriesOf array, c.id = element.id → c = element := fun c hc hid =>
    Node.eq_of_id_eq ht.ids (child_mem_nodes harray (hchild c hc))
      (child_mem_nodes harray (hchild element helement)) hid
  have hstop := (Node.isEdge_child hspans (hchild element helement)).2
  unfold removeElement
  match hentries : entriesOf array with
  | [] =>
    rw [hentries] at helement
    cases helement
  | [only] =>
    obtain rfl : element = only := List.mem_singleton.mp (hentries ▸ helement)
    refine ⟨_, by dsimp only; rw [if_pos rfl]; rfl, fun batch => ?_⟩
    have hends := isEdge_endWithComma hspans hbrackets (by decide) hlist helement
    rw [removes_withLineBreak_iff hlist hends,
      removes_first_iff hspans hbrackets (by decide) hlist hentries]
    simp
  | first :: next :: rest =>
    dsimp only
    by_cases hfirst : first.id = element.id
    · obtain rfl := hid first (by simp [hentries]) hfirst
      have hnext := (Node.isEdge_child hspans (hchild next (by simp [hentries]))).1
      refine ⟨_, by rw [if_pos rfl]; rfl, fun batch => ?_⟩
      rw [removes_withLineBreak_iff hlist hnext]
      simp [removes_toNext hspans hlist hentries]
    · have hlater : element ∈ next :: rest :=
        (List.mem_cons.mp (hentries ▸ helement)).resolve_left fun h => hfirst (h ▸ rfl)
      have hany : (next :: rest).any (·.id = element.id) = true :=
        List.any_eq_true.mpr ⟨element, hlater, by simp⟩
      have hne : first ≠ element := fun h => hfirst (h ▸ rfl)
      -- Some entry stands right before it.
      obtain ⟨front, back, hsplit⟩ := List.append_of_mem hlater
      obtain ⟨front', before, hfront⟩ : ∃ front' before, first :: front = front' ++ [before] :=
        ⟨_, _, (List.dropLast_append_getLast (List.cons_ne_nil first front)).symm⟩
      have hentries' : entriesOf array = front' ++ before :: element :: back := by
        rw [hentries, hsplit, ← List.cons_append, hfront]
        simp
      refine ⟨_, by rw [if_neg hfirst, if_pos hany]; rfl, fun batch => ?_⟩
      rw [removes_withLineBreak_iff hlist hstop,
        removes_fromComma_iff hspans hbrackets (by decide) hlist hentries']
      simp [hne]

/-- The first property with a key goes from the end of the one before, or
from the start of the object. -/
theorem removeAmong?_eq (object : Node) (before? : Option Node) {property : Node} {key : String}
    {front : List Node} (back : List Node) (hkey : hasKey t key property = true)
    (hfront : ∀ c ∈ front, hasKey t key c = false) :
    removeAmong? t object key before? (front ++ property :: back)
      = some (match front.getLast?.or before? with
        | some before => .delete before.stop property.stop
        | none => .delete (object.start + 1) (endWithComma t property)) := by
  induction front generalizing before? with
  | nil =>
      rw [List.nil_append]
      unfold removeAmong?
      rw [if_pos hkey]
      cases before? <;> rfl
  | cons c front ih =>
      obtain ⟨hc, hfront⟩ := List.forall_mem_cons.mp hfront
      rw [List.cons_append]
      unfold removeAmong?
      rw [if_neg (by simp [hc]), ih (some c) hfront, List.getLast?_cons]
      cases front.getLast? <;> rfl

/-- A property goes from an object with one comma, if there are any, unless a
comment keeps the first property apart from its comma. -/
theorem removeAmong?_removes_iff {object property : Node} {key : String} (ht : t.WellFormed)
    (hobject : object ∈ t.nodes) (hkind : object.is .object = true)
    (hlist : IsFullList t.source object) (hfound : findProperty? t object key = some property) :
    ∃ e, removeAmong? t object key none (entriesOf object) = some e ∧ ∀ batch,
      (Removes object property (e.withLineBreak t.source batch) ↔
        ((entriesOf object).head? = some property →
          commasOf object = [] ∨ CommaBehind t object property)) := by
  have hspans := ht.spans.below hobject
  have hbraces := ht.braces object hobject hkind
  obtain ⟨hkey, front, back, hentries, hfront⟩ := List.find?_eq_some_iff_append.mp hfound
  have hfront : ∀ c ∈ front, hasKey t key c = false := fun c hc => by simpa using hfront c hc
  have hproperty : property ∈ entriesOf object := by simp [hentries]
  have hremoved := removeAmong?_eq object none back hkey hfront
  rw [← hentries] at hremoved
  refine ⟨_, hremoved, fun batch => ?_⟩
  -- The property is the first one and goes with what is behind it, or there is one before it.
  rcases List.eq_nil_or_concat' front with rfl | ⟨front, before, rfl⟩
  · show Removes object property ((Edit.delete (object.start + 1)
      (endWithComma t property)).withLineBreak t.source batch) ↔ _
    have hends := isEdge_endWithComma hspans hbraces (by decide) hlist hproperty
    rw [removes_withLineBreak_iff hlist hends,
      removes_first_iff hspans hbraces (by decide) hlist hentries]
    simp [hentries]
  · have hentries' : entriesOf object = front ++ before :: property :: back := by
      rw [hentries]
      simp
    have hne : (entriesOf object).head? ≠ some property := fun hhead => by
      have hmem : property ∈ front ++ [before] := by
        rw [hentries, List.head?_append_of_ne_nil _ (by simp)] at hhead
        exact List.mem_of_head? hhead
      rw [hfront property hmem] at hkey
      cases hkey
    have hlast : (front ++ [before]).getLast?.or none = some before := by simp
    rw [hlast, removes_withLineBreak_iff hlist (Node.isEdge_child hspans
      (of_mem_entriesOf hspans hbraces hproperty).1).2]
    exact iff_of_true (removes_fromBefore hspans hlist hentries') fun hhead => absurd hhead hne

/-- When an entry leaves a clean list. An element goes from an array, and a
property from an object, with one comma if there are any, unless something
other than blanks keeps the entry apart from the comma that it is to go with:
the comma in front of a later element, and the comma behind an only element
or the first property. Then the other entries are left, in order, and still
take turns with their commas. -/
theorem removes_entry_iff_comma_beside (t : Tree) (ht : t.WellFormed) :
    (∀ array ∈ t.nodes, array.is .array = true → IsFullList t.source array →
        ∀ element ∈ entriesOf array, ∃ e, (removeElement t array element).edits = [e] ∧ ∀ batch,
          (Removes array element (e.withLineBreak t.source batch) ↔
            (entriesOf array = [element] → commasOf array = [] ∨ CommaBehind t array element)
              ∧ ((entriesOf array).head? ≠ some element → CommaInFront t array element)))
      ∧ (∀ (var? : Option String) (key : String), ∀ object ∈ objectsOf t var?,
        IsFullList t.source object → ∀ property, findProperty? t object key = some property →
        ∃ e ∈ removeProperty t var? key,
          removeAmong? t object key none (entriesOf object) = some e ∧ ∀ batch,
          (Removes object property (e.withLineBreak t.source batch) ↔
            ((entriesOf object).head? = some property →
              commasOf object = [] ∨ CommaBehind t object property)))
      ∧ ∀ n ∈ t.nodes, IsFullList t.source n → ∀ (front back : List Node) (entry : Node),
          entriesOf n = front ++ entry :: back → ∀ e, Removes n entry e →
          TakeTurns (itemsLeft n e) = true ∧ (itemsLeft n e).filter isEntry = front ++ back := by
  refine ⟨fun array harray hkind hlist element helement => ?_,
    fun var? key object hobject hlist property hfound => ?_,
    fun n hn hlist front back entry hentries e h =>
      ⟨h.takeTurns_left (ht.spans.below hn) hlist hentries,
        h.filter_isEntry_left (ht.spans.below hn) hlist hentries⟩⟩
  · exact removeElement_removes_iff ht harray hkind hlist helement
  · obtain ⟨hmem, hkind⟩ := of_mem_objectsOf hobject
    obtain ⟨e, he, hspec⟩ := removeAmong?_removes_iff ht hmem hkind hlist hfound
    exact ⟨e, List.mem_filterMap.mpr ⟨object, hobject, he⟩, he, hspec⟩

/-- An array of three names. -/
def threeElements : Tree where
  source := "let a = [x, y, z];\n"
  root := (Node.branchTo .program
    [.branch .lexicalDeclaration
      [(.token 0 "let" : Node).inRole .kind,
        .branch .variableDeclarator
          [(.leaf (.construct .identifier) 4 "a" : Node).inRole .name, .token 6 "=",
            (.branch .array
              [.token 8 "[", .leaf (.construct .identifier) 9 "x", .token 10 ",",
                .leaf (.construct .identifier) 12 "y", .token 13 ",",
                .leaf (.construct .identifier) 15 "z", .token 16 "]"] : Node).inRole .value],
        .token 17 ";"]] 19).numbered
  dialect := .plain
  path? := none

/-- The element in the middle goes with the comma in front of it. -/
theorem removes_entry_iff_comma_beside_middle :
    ∃ array ∈ findArray? threeElements "a", ∃ element ∈ (entriesOf array)[1]?,
      ∃ e, (removeElement threeElements array element).edits = [e]
        ∧ ∀ batch, Removes array element (e.withLineBreak threeElements.source batch) := by
  have hwell : threeElements.WellFormed := by decide +kernel
  obtain ⟨array, harray⟩ := Option.isSome_iff_exists.mp
    (by decide +kernel : (findArray? threeElements "a").isSome = true)
  have hspec : ∀ array ∈ findArray? threeElements "a", (entriesOf array).length = 3
      ∧ IsFullList threeElements.source array
      ∧ ∀ element ∈ (entriesOf array)[1]?, CommaInFront threeElements array element := by
    decide +kernel
  obtain ⟨hlength, hlist, hfront⟩ := hspec array harray
  obtain ⟨hmem, hkind⟩ := of_findArray? harray
  have hsecond : (entriesOf array)[1]? = some (entriesOf array)[1] :=
    List.getElem?_eq_getElem (by omega)
  obtain ⟨e, he, hremoves⟩ := (removes_entry_iff_comma_beside threeElements hwell).1 array hmem
    hkind hlist (entriesOf array)[1] (List.getElem_mem _)
  refine ⟨array, harray, _, hsecond, e, he, fun batch => (hremoves batch).mpr ⟨fun hsole => ?_,
    fun _ => hfront _ hsecond⟩⟩
  exact absurd (hlength.symm.trans (congrArg List.length hsole)) (by simp)

/-- An array and an object with comments between an entry and its comma. -/
def commentedEntries : Tree where
  source := "let a = [x, /* c */ y, z], o = \x7b x /* c */, y \x7d;\n"
  root := (Node.branchTo .program
    [.branch .lexicalDeclaration
      [(.token 0 "let" : Node).inRole .kind,
        .branch .variableDeclarator
          [(.leaf (.construct .identifier) 4 "a" : Node).inRole .name, .token 6 "=",
            (.branch .array
              [.token 8 "[", .leaf (.construct .identifier) 9 "x", .token 10 ",",
                .leaf (.construct .comment) 12 "/* c */",
                .leaf (.construct .identifier) 20 "y", .token 21 ",",
                .leaf (.construct .identifier) 23 "z", .token 24 "]"] : Node).inRole .value],
        .token 25 ",",
        .branch .variableDeclarator
          [(.leaf (.construct .identifier) 27 "o" : Node).inRole .name, .token 29 "=",
            (.branch .object
              [.token 31 "\x7b", .leaf (.construct .shorthandPropertyIdentifier) 33 "x",
                .leaf (.construct .comment) 35 "/* c */", .token 42 ",",
                .leaf (.construct .shorthandPropertyIdentifier) 44 "y", .token 46 "\x7d"]
              : Node).inRole .value],
        .token 47 ";"]] 49).numbered
  dialect := .plain
  path? := none

/-- A later element and a first property leave both their commas behind. -/
theorem removeElement_leaves_hole :
    (∃ array ∈ findArray? commentedEntries "a", IsFullList commentedEntries.source array
        ∧ (removeFromArray commentedEntries "a" "y").edits = [.delete 20 21]
        ∧ TakeTurns (itemsLeft array (.delete 20 21)) = false)
      ∧ ∃ object ∈ objectsOf commentedEntries none, IsFullList commentedEntries.source object
        ∧ removeProperty commentedEntries none "x" = [.delete 32 34]
        ∧ TakeTurns (itemsLeft object (.delete 32 34)) = false := by
  decide +kernel

end Refactoring

end ScriptRefactor
