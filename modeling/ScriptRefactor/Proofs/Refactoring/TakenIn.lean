import ScriptRefactor.Proofs.Edit.LineBreaks
import ScriptRefactor.Proofs.Refactoring.Additions

/-!
# `ScriptRefactor.Proofs.Refactoring.TakenIn`: where an import takes names in

Names come into an import at two places: a default name at the start of the
clause, and the others behind the last part, be it an entry of the list or the
default name (`ImportParts.lastPart?`). The text is cut at these two places
(`ImportParts.CutsText`). A list that takes several lines and ends with a comma
takes entries in behind the comma; since each of them brings another comma, the
same text comes out (`ImportParts.CutsText.putsIn_append?`).

If the import has room for all of the names, they are just put in there
(`ImportParts.CutsText.applyEdits_takenIn`).
-/

set_option autoImplicit false

namespace ScriptRefactor

open Syntax

namespace Refactoring

variable {t : Tree} {p : ImportParts} {w : Wanted} {n : Node}

/-! ### The parts of an import -/

/-- The parts of an import. -/
def ImportParts.parts (p : ImportParts) : List Node :=
  p.default?.toList ++ p.whole?.toList ++ p.list?.toList ++ p.specifiers

/-- What the grammar says of the parts of an import. -/
structure ImportParts.Solid (p : ImportParts) (t : Tree) : Prop where
  /-- The clause starts with its first part. -/
  first : p.default? = none → ∀ next ∈ p.whole?.or p.list?, next.start = p.clause.start
  /-- The clause starts between two characters. -/
  cut : Text.isBoundary t.source p.clause.start = true
  /-- Each part has text, and starts and stops between two characters. -/
  parts : ∀ n ∈ p.parts, n.start < n.stop ∧ Text.isBoundary t.source n.stop = true
  /-- No part starts or stops with the end of a line. -/
  lines : ∀ n ∈ p.parts, Text.hasCharAt t.source n.start '\n' = false
    ∧ Text.hasCharAt t.source (n.stop - 1) '\n' = false

instance (p : ImportParts) (t : Tree) : Decidable (p.Solid t) :=
  decidable_of_iff ((p.default? = none → ∀ next ∈ p.whole?.or p.list?,
        next.start = p.clause.start)
      ∧ Text.isBoundary t.source p.clause.start = true
      ∧ (∀ n ∈ p.parts, n.start < n.stop ∧ Text.isBoundary t.source n.stop = true)
      ∧ ∀ n ∈ p.parts, Text.hasCharAt t.source n.start '\n' = false
        ∧ Text.hasCharAt t.source (n.stop - 1) '\n' = false)
    ⟨fun ⟨h1, h2, h3, h4⟩ => ⟨h1, h2, h3, h4⟩, fun h => ⟨h.first, h.cut, h.parts, h.lines⟩⟩

/-- What stands in front of a new entry of the list. -/
def ImportParts.separator (p : ImportParts) (t : Tree) : String :=
  match p.list? with
  | some list =>
    let layout := ListLayout.of t list p.specifiers
    if layout.isMultiline then ",\n" ++ layout.indent else ", "
  | none => ", "

/-! ### Where names are taken in -/

/-- The part that names are taken in behind: the last entry of the list, or
the default name. A namespace takes none in. -/
def ImportParts.lastPart? (p : ImportParts) : Option Node :=
  p.specifiers.getLast?.or (p.default?.or p.whole?)

/-- What is put in at the start of the clause. -/
def Wanted.opening (w : Wanted) : String := (w.default?.map (· ++ ", ")).getD ""

/-- What is put in behind the last part. -/
def ImportParts.continuation (p : ImportParts) (t : Tree) (w : Wanted) : String :=
  match p.list?, w.whole? with
  | some _, _ => String.join (w.named.map (p.separator t ++ ·))
  | none, some n => ", * as " ++ n
  | none, none => if w.named.isEmpty then "" else ", " ++ braced w.named

/-- The names find a place in the import. -/
structure ImportParts.HasRoomFor (p : ImportParts) (w : Wanted) : Prop where
  /-- There is no other default name. -/
  default : w.default?.isSome = true → p.default? = none
  /-- A namespace goes with a default name, and with nothing else. -/
  whole : w.whole?.isSome = true →
    p.default?.isSome = true ∧ p.whole? = none ∧ p.list? = none ∧ w.named = []
  /-- A list goes with a default name. -/
  named : w.named ≠ [] → p.list? = none → p.default?.isSome = true ∧ p.whole? = none

/-- The text in front of a clause, up to the end of the part that names are
taken in behind, and the rest. -/
structure ImportParts.CutsText (p : ImportParts) (t : Tree) (before inside behind : List Char) :
    Prop where
  /-- These are all of the text. -/
  text : t.source.toList = before ++ inside ++ behind
  /-- The first cut is at the start of the clause. -/
  start : Text.byteSize before = p.clause.start
  /-- The second cut is behind the part. -/
  stop : p.lastPart?.map Node.stop = some (Text.byteSize (before ++ inside))
  /-- Something stands between them. -/
  ne_nil : inside ≠ []
  /-- It does not start with the end of a line. -/
  first : p.default? = none → inside.head? ≠ some '\n'
  /-- It does not stop with the end of a line. -/
  last : inside.getLast? ≠ some '\n'

/-- What comes in behind, without a list, follows a default name. -/
theorem ImportParts.HasRoomFor.exists_default (h : p.HasRoomFor w) (hlist : p.list? = none)
    (hsome : ¬(w.whole? = none ∧ w.named = [])) :
    ∃ default, p.default? = some default ∧ p.whole? = none ∧ w.default? = none := by
  have hdefault : p.default?.isSome = true ∧ p.whole? = none := by
    cases hwhole : w.whole? with
    | some n =>
        obtain ⟨hdefault, hnone, -⟩ := h.whole (by simp [hwhole])
        exact ⟨hdefault, hnone⟩
    | none => exact h.named (fun hnamed => hsome ⟨hwhole, hnamed⟩) hlist
  obtain ⟨default, hd⟩ := Option.isSome_iff_exists.mp hdefault.1
  refine ⟨default, hd, hdefault.2, ?_⟩
  by_contra hnew
  rw [h.default (Option.isSome_iff_ne_none.mpr hnew)] at hd
  cases hd

/-- The last part is one of the parts. -/
theorem ImportParts.mem_parts_of_lastPart? (h : p.lastPart? = some n) : n ∈ p.parts := by
  simp only [parts, List.mem_append, Option.mem_toList]
  rcases Option.or_eq_some_iff.mp h with h | ⟨-, h⟩
  · exact .inr (List.mem_of_getLast? h)
  · rcases Option.or_eq_some_iff.mp h with h | ⟨-, h⟩
    · exact .inl (.inl (.inl h))
    · exact .inl (.inl (.inr h))

/-- An import that binds a name has a part. -/
theorem ImportParts.isSome_lastPart? (h : p.locals t ≠ []) : p.lastPart?.isSome = true := by
  obtain ⟨s, hs⟩ := List.exists_mem_of_ne_nil _ h
  rw [lastPart?, Option.isSome_or, Option.isSome_or]
  rcases mem_locals_iff.mp hs with hs | hs | ⟨n, hn, -⟩
  · obtain ⟨n, hn, -⟩ := Option.map_eq_some_iff.mp hs
    simp [hn]
  · obtain ⟨n, hn, -⟩ := Option.map_eq_some_iff.mp hs
    obtain ⟨ns, hns, -⟩ := Option.bind_eq_some_iff.mp hn
    simp [hns]
  · simp [List.ne_nil_of_mem hn]

/-- The parts of an import stand in its clause. -/
theorem ImportParts.inside_clause {statement : Node} (ht : t.WellFormed) (hs : statement ∈ t.nodes)
    (hp : ImportParts.of? statement = some p) (hn : n ∈ p.parts) :
    p.clause.start ≤ n.start ∧ n.stop ≤ p.clause.stop := by
  obtain ⟨-, -, hdefault, hwhole, hlist, -⟩ := ImportParts.of?_eq_some hp
  have hclause := (ImportParts.mem_nodes hp hs).1
  have hspans := ht.spans.below hclause
  simp only [parts, List.mem_append, Option.mem_toList] at hn
  rcases hn with ((hn | hn) | hn) | hn
  · exact hspans.child_inside (of_childOf? (hdefault ▸ hn)).1
  · exact hspans.child_inside (of_childOf? (hwhole ▸ hn)).1
  · exact hspans.child_inside (of_childOf? (hlist ▸ hn)).1
  · -- An entry stands in the list, and the list in the clause.
    obtain ⟨list, hl, hn⟩ := exists_list hp hn
    have hl := (of_childOf? (hlist ▸ hl)).1
    have houter := hspans.child_inside hl
    have hinner := (hspans.below (Node.mem_preorder_of_child hl)).child_inside
      (Node.mem_of_mem_childrenOf hn)
    omega

/-- Without a default name the clause starts with a namespace or a list. -/
theorem ImportParts.exists_next {statement : Node} (hp : ImportParts.of? statement = some p)
    (hlast : p.lastPart?.isSome = true) (hdefault : p.default? = none) :
    ∃ next, p.whole?.or p.list? = some next := by
  obtain ⟨n, hn⟩ := Option.isSome_iff_exists.mp hlast
  rcases Option.or_eq_some_iff.mp hn with hn | ⟨-, hn⟩
  · obtain ⟨list, hlist, -⟩ := exists_list hp (List.mem_of_getLast? hn)
    cases hwhole : p.whole? with
    | none => exact ⟨list, hlist⟩
    | some next => exact ⟨next, rfl⟩
  · rw [hdefault, Option.none_or] at hn
    exact ⟨n, by rw [hn]; rfl⟩

/-- The text is cut around the clause of an import that binds something. -/
theorem ImportParts.exists_cutsText {statement : Node} (ht : t.WellFormed)
    (hs : statement ∈ t.nodes) (hp : ImportParts.of? statement = some p) (hsolid : p.Solid t)
    (hlast : p.lastPart?.isSome = true) :
    ∃ before inside behind, p.CutsText t before inside behind := by
  obtain ⟨last, hl⟩ := Option.isSome_iff_exists.mp hlast
  have hmem := mem_parts_of_lastPart? hl
  obtain ⟨hproper, hboundary⟩ := hsolid.parts last hmem
  have hinside := inside_clause ht hs hp hmem
  -- The text is cut at the start of the clause and at the end of its last part.
  obtain ⟨before, rest, htext, hbefore⟩ := Text.isBoundary_iff.mp hsolid.cut
  obtain ⟨upto, behind, htext', hupto⟩ := Text.isBoundary_iff.mp hboundary
  obtain ⟨inside, rfl, rfl⟩ := Text.exists_append_of_byteSize_le (htext.symm.trans htext')
    (by omega)
  have hne : inside ≠ [] := by
    rintro rfl
    rw [List.append_nil] at hupto
    omega
  refine ⟨before, inside, behind,
    { text := htext', start := hbefore, stop := by rw [hl, Option.map_some, hupto],
      ne_nil := hne, first := fun hdefault hfeed => ?_, last := fun hfeed => ?_ }⟩
  · -- The first part that stays would start with a line break, which no part does.
    obtain ⟨next, hnext⟩ := exists_next hp hlast hdefault
    have hpart : next ∈ p.parts := by
      simp only [parts, List.mem_append, Option.mem_toList]
      rcases Option.or_eq_some_iff.mp hnext with h | ⟨-, h⟩
      · exact .inl (.inl (.inr h))
      · exact .inl (.inr h)
    obtain ⟨more, rfl⟩ := List.head?_eq_some_iff.mp hfeed
    have hat : Text.hasCharAt t.source next.start '\n' = true := by
      rw [hsolid.first hdefault next hnext, ← hbefore]
      exact Text.hasCharAt_iff.mpr ⟨before, more ++ behind, by simp [htext], rfl⟩
    rw [(hsolid.lines next hpart).1] at hat
    cases hat
  · -- The last part would end with a line break, which no part does.
    have hline : Edit.atLineStart t.source (Text.byteSize (before ++ inside)) = true :=
      (Edit.atLineStart_iff htext').mpr (.inr (by simp [List.getLast?_append, hfeed]))
    rw [hupto, Edit.atLineStart, (hsolid.lines last hmem).2] at hline
    simp only [Bool.or_false, decide_eq_true_eq] at hline
    omega

/-! ### Adding -/

/-- Names of which none are left over find a place. -/
theorem ImportParts.hasRoomFor_missing (hlast : p.lastPart?.isSome = true)
    (hentries : p.list? = none → p.specifiers = [])
    (hleft : p.leftOver t w = Wanted.nothing) : p.HasRoomFor (p.missing t w) := by
  obtain ⟨hdefault, hwhole⟩ := p.free_of_missing t w
  unfold leftOver Wanted.nothing joinNames at hleft
  obtain ⟨-, hleftWhole, hleftNamed⟩ := Wanted.mk.inj hleft
  cases hlist : p.list? with
  | some list =>
      -- A list takes all names in, and no namespace.
      simp only [hlist] at hleftWhole
      exact ⟨hdefault, by simp [hleftWhole], fun _ h => by simp [hlist] at h⟩
  | none =>
      cases hns : p.whole? with
      | some ns =>
          simp only [hlist, hns] at hleftNamed
          have hnone : (p.missing t w).whole? = none := by
            by_contra hsome
            rw [hwhole (Option.isSome_iff_ne_none.mpr hsome)] at hns
            cases hns
          exact ⟨hdefault, by simp [hnone], fun h => absurd hleftNamed h⟩
      | none =>
          cases hd : p.default? with
          | none =>
              simp [lastPart?, hentries hlist, hd, hns] at hlast
          | some d =>
              simp only [hlist, hns, hd] at hleftNamed
              refine ⟨hdefault, fun h => ⟨by rw [hd]; rfl, hns, hlist, ?_⟩, fun _ _ =>
                ⟨by rw [hd]; rfl, hns⟩⟩
              obtain ⟨n, hn⟩ := Option.isSome_iff_exists.mp h
              rwa [hn] at hleftNamed

/-- Entries with a separator between two of them, and one in front. -/
theorem join_map_eq_append_intercalate (separator : String) {names : List String}
    (h : names ≠ []) :
    String.join (names.map (separator ++ ·)) = separator ++ separator.intercalate names := by
  induction names with
  | nil => exact absurd rfl h
  | cons n names ih =>
      cases names with
      | nil => simp
      | cons m names =>
          rw [List.map_cons, String.join_cons, ih (List.cons_ne_nil m names)]
          simp [String.append_assoc]

/-- A separator may be moved from the front of the entries to their ends. -/
theorem append_join_map (mark gap : String) (names : List String) :
    mark ++ String.join (names.map fun n => gap ++ n ++ mark)
      = String.join (names.map ((mark ++ gap) ++ ·)) ++ mark := by
  induction names with
  | nil => simp
  | cons n names ih =>
      rw [List.map_cons, String.join_cons, List.map_cons, String.join_cons, String.append_assoc,
        String.append_assoc, ih]
      simp [String.append_assoc]

/-- A comma right behind the last entry. -/
theorem ImportParts.CutsText.behind_eq {before inside behind : List Char} {list last : Node}
    (hcut : p.CutsText t before inside behind) (hlast : p.lastPart? = some last)
    (hcomma : ListLayout.commaBehind? t list last = some (last.stop + 1)) :
    ∃ rest, behind = ',' :: rest := by
  have hstop := hcut.stop
  rw [hlast, Option.map_some, Option.some.injEq] at hstop
  obtain ⟨between, hbetween, hat⟩ := Option.bind_eq_some_iff.mp hcomma
  obtain ⟨chars, hslice, rfl⟩ := Option.map_eq_some_iff.mp hbetween
  obtain ⟨front, back, htext, hfront, -⟩ := Edit.of_sliceChars? hslice
  rw [String.toList_ofList] at hat
  dsimp only at hat
  split at hat
  · rename_i hhead
    -- Nothing stands in front of the comma.
    have hblank : Text.byteSize (chars.takeWhile Text.isSpace) = 0 := by
      have := Option.some.inj hat
      omega
    have hlength := Text.length_le_byteSize (chars.takeWhile Text.isSpace)
    rw [hblank, Nat.le_zero] at hlength
    rw [hlength, List.drop_zero] at hhead
    obtain ⟨more, rfl⟩ := List.head?_eq_some_iff.mp hhead
    have hsame := hcut.text.symm.trans (htext.trans (List.append_assoc ..))
    obtain ⟨mid, hmid, hbehind⟩ := Text.exists_append_of_byteSize_le hsame (by omega)
    have hnil : mid = [] := by
      have hsize := congrArg Text.byteSize hmid
      rw [Text.byteSize_append _ mid] at hsize
      exact List.eq_nil_of_length_eq_zero
        (Nat.le_zero.mp (Nat.le_trans (Text.length_le_byteSize mid) (by omega)))
    exact ⟨more ++ back, by simp [hbehind, hnil]⟩
  · cases hat

/-- The edits put a text in behind `front`, or further on, where the same
comes out. -/
def PutsIn (front behind new : List Char) (edits : List Edit) : Prop :=
  ∃ more rest new', behind = more ++ rest ∧ Edit.Exchanges (front ++ more) [] new' edits
    ∧ more ++ new' ++ rest = new ++ behind

/-- A text is put in right there. -/
theorem putsIn_insert (front behind : List Char) (text : String) :
    PutsIn front behind text.toList [.insert (Text.byteSize front) text] :=
  ⟨[], behind, text.toList, rfl, .inl (by simp [Edit.insert]), rfl⟩

/-- No edits put nothing in. -/
theorem putsIn_nil (front behind : List Char) : PutsIn front behind [] [] :=
  ⟨[], behind, [], rfl, .inr ⟨rfl, rfl⟩, rfl⟩

/-- Behind a comma come entries with a comma behind each. -/
theorem putsIn_behindComma (front rest : List Char) (indent : String) (names : List String) :
    PutsIn front (',' :: rest) (String.join (names.map ((",\n" ++ indent) ++ ·))).toList
      [.insert (Text.byteSize front + 1)
        (String.join (names.map fun n => "\n" ++ indent ++ n ++ ","))] := by
  have hgap : "," ++ ("\n" ++ indent) = ",\n" ++ indent := by
    rw [← String.append_assoc]
    rfl
  have hmove := congrArg String.toList (append_join_map "," ("\n" ++ indent) names)
  rw [String.toList_append, String.toList_append, hgap] at hmove
  have hone : Text.byteSize (front ++ [',']) = Text.byteSize front + 1 :=
    Text.byteSize_append ..
  refine ⟨[','], rest, (String.join (names.map fun n => "\n" ++ indent ++ n ++ ",")).toList,
    rfl, .inl ?_, ?_⟩
  · rw [hone, String.ofList_toList]
    rfl
  · exact (congrArg (· ++ rest) hmove).trans (List.append_assoc ..)

/-- New entries are put in behind the last one, each behind a separator. If the
list takes several lines and ends with a comma, they are put in behind that,
and bring another one. -/
theorem ImportParts.CutsText.putsIn_append? {before inside behind : List Char} {list last : Node}
    (hcut : p.CutsText t before inside behind) (hlist : p.list? = some list)
    (hlast : p.specifiers.getLast? = some last)
    (hcomma : ListLayout.commaBehind? t list last = none
      ∨ ListLayout.commaBehind? t list last = some (last.stop + 1)) (names : List String) :
    PutsIn (before ++ inside) behind (String.join (names.map (p.separator t ++ ·))).toList
      ((ListLayout.of t list p.specifiers).append? p.specifiers names).toList := by
  have hpart : p.lastPart? = some last := by rw [lastPart?, hlast]; rfl
  have hstop := hcut.stop
  rw [hpart, Option.map_some, Option.some.injEq] at hstop
  have htrailing : (ListLayout.of t list p.specifiers).trailingComma?
      = ListLayout.commaBehind? t list last := by
    rw [ListLayout.of, hlast]
    rfl
  rw [separator, hlist]
  unfold ListLayout.append?
  rw [hlast, htrailing]
  dsimp only
  cases names with
  -- A list that takes several lines and ends with a comma gets the entries behind that.
  | nil => exact putsIn_nil _ _
  | cons name names =>
      dsimp only
      cases (ListLayout.of t list p.specifiers).isMultiline with
      | false =>
          rw [if_neg Bool.false_ne_true,
            join_map_eq_append_intercalate ", " (List.cons_ne_nil name names), hstop]
          exact putsIn_insert _ _ _
      | true =>
          rw [if_pos rfl]
          rcases hcomma with hnone | hsome
          · rw [hnone, hstop]
            exact putsIn_insert _ _ _
          · obtain ⟨rest, rfl⟩ := hcut.behind_eq hpart hsome
            rw [hsome, hstop]
            exact putsIn_behindComma _ _ _ _

/-- Names that find a place are put in behind the last part. -/
theorem ImportParts.CutsText.putsIn_joinNames {before inside behind : List Char}
    (hcut : p.CutsText t before inside behind)
    (hfull : ∀ list ∈ p.list?, p.specifiers ≠ [])
    (hcomma : ∀ list ∈ p.list?, ∀ last ∈ p.specifiers.getLast?,
      ListLayout.commaBehind? t list last = none
        ∨ ListLayout.commaBehind? t list last = some (last.stop + 1))
    (hentries : p.list? = none → p.specifiers = []) (hroom : p.HasRoomFor w) :
    PutsIn (before ++ inside) behind (p.continuation t w).toList
      (joinNames t p w.whole? w.named).edits := by
  have hstop := hcut.stop
  unfold continuation joinNames
  cases hlist : p.list? with
  | some list =>
      have hne := hfull list hlist
      have hlast := List.getLast?_eq_some_getLast hne
      dsimp only
      rw [if_neg (by simpa using hne)]
      exact hcut.putsIn_append? hlist hlast (hcomma list hlist _ hlast) w.named
  | none =>
      rw [lastPart?, hentries hlist, List.getLast?_nil, Option.none_or] at hstop
      by_cases hnothing : w.whole? = none ∧ w.named = []
      · rw [hnothing.1, hnothing.2]
        cases p.whole? <;> cases p.default? <;> exact putsIn_nil _ _
      · -- What is put in follows the default name.
        obtain ⟨d, hd, hns, -⟩ := hroom.exists_default hlist hnothing
        rw [hd, Option.some_or, Option.map_some, Option.some.injEq] at hstop
        rw [hd, hns]
        cases hwhole : w.whole? with
        | some n =>
            dsimp only
            rw [hstop]
            exact putsIn_insert _ _ _
        | none =>
            have hne : w.named.isEmpty = false := by
              simpa using fun h => hnothing ⟨hwhole, h⟩
            dsimp only
            rw [hne, if_neg Bool.false_ne_true, if_neg Bool.false_ne_true, hstop]
            exact putsIn_insert _ _ _

/-- An import takes names in that find a place: a default name comes in at the
start of the clause, and the other ones behind the last part. -/
theorem ImportParts.CutsText.applyEdits_takenIn {before inside behind : List Char}
    (hcut : p.CutsText t before inside behind)
    (hfull : ∀ list ∈ p.list?, p.specifiers ≠ [])
    (hcomma : ∀ list ∈ p.list?, ∀ last ∈ p.specifiers.getLast?,
      ListLayout.commaBehind? t list last = none
        ∨ ListLayout.commaBehind? t list last = some (last.stop + 1))
    (hentries : p.list? = none → p.specifiers = []) (hroom : p.HasRoomFor (p.missing t w)) :
    applyEdits t.source (p.takenIn t w)
      = (String.ofList (before ++ (p.missing t w).opening.toList ++ inside
          ++ (p.continuation t (p.missing t w)).toList ++ behind), []) := by
  obtain ⟨more, rest, new, rfl, hsecond, hsame⟩ :=
    hcut.putsIn_joinNames hfull hcomma hentries hroom
  have hfirst : Edit.Exchanges before [] (p.missing t w).opening.toList
      ((p.missing t w).default?.map fun d => Edit.insert p.clause.start (d ++ ", ")).toList := by
    rw [Wanted.opening, ← hcut.start]
    cases (p.missing t w).default? with
    | none => exact .inr ⟨rfl, rfl⟩
    | some d => exact .inl (by simp [Edit.insert])
  have htext : t.source.toList = before ++ [] ++ (inside ++ more) ++ [] ++ rest := by
    simp [hcut.text]
  have hlines : ∀ e ∈ p.takenIn t w, e.emptiesLine t.source = false :=
    List.forall_mem_append.mpr ⟨hfirst.keepsLines, hsecond.keepsLines⟩
  have hout := Edit.applyEdits_stretches htext (by simp [hcut.ne_nil]) hfirst
    (by simpa using hsecond) hlines
  rw [takenIn, hout]
  simp [← hsame]

end Refactoring

end ScriptRefactor
