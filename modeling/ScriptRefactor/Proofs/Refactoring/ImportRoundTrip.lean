import ScriptRefactor.Proofs.Refactoring.RemovedNames
import ScriptRefactor.Proofs.Refactoring.TakenIn

/-!
# `ScriptRefactor.Proofs.Refactoring.ImportRoundTrip`: names added to an import and removed again

Read anew, an import that has taken names in has them among its own, further
parts behind, and all parts moved on (`ImportReading.taking`). These names, and
no others, are to go (`ImportParts.HasTaken.isGone_default`,
`ImportParts.HasTaken.isGone_whole`, `ImportParts.HasTaken.exists_entries`).

They go from where they came in. The two edits take exactly what was put in:
at the start of the clause (`exchanges_default`), and behind the last part,
with its separators (`exchanges_entries`, `exchanges_behind`). No line is
emptied by that, because the parts that stay stand on the lines at both
places. So the text that was there comes out (`removeImported_addImport`).
-/

set_option autoImplicit false

namespace ScriptRefactor

open Syntax

namespace Text

/-- The size of two texts, one behind the other. -/
theorem size_append (a b : String) : Text.size (a ++ b) = Text.size a + Text.size b := by
  rw [Text.size, String.toList_append, Text.byteSize_append]
  rfl

/-- A character that stands at a cut is the first one behind it. -/
theorem head?_of_hasCharAt {text : String} {front rest : List Char} {c : Char}
    (htext : text.toList = front ++ rest)
    (hat : Text.hasCharAt text (Text.byteSize front) c = true) : rest.head? = some c := by
  rw [Text.hasCharAt, Text.cutAt?_eq_some_iff.mpr ⟨htext, rfl⟩] at hat
  simpa using hat

end Text

namespace Refactoring

variable {t t' : Tree} {p q : ImportParts} {source : String} {w : Wanted} {n : Node}

/-! ### What is read in an import -/

/-- The names of an import, and where its parts stand. -/
structure ImportReading where
  /-- The default name. -/
  default? : Option (Span × String)
  /-- The namespace with its name. -/
  whole? : Option (Span × Option String)
  /-- The list. -/
  list? : Option Span
  /-- The entries of the list with the names they bind. -/
  entries : List (Span × Option String)
deriving DecidableEq

/-- What is read in an import of a module. -/
def ImportParts.reading (p : ImportParts) (t : Tree) : ImportReading where
  default? := p.default?.map fun n => (n.span, t.text n)
  whole? := p.whole?.map fun n => (n.span, p.wholeName?.map t.text)
  list? := p.list?.map Node.span
  entries := p.specifiers.map fun n => (n.span, (localName? n).map t.text)

/-- A span further on. -/
def shifted (k : Nat) (s : Span) : Span := ⟨s.start + k, s.stop + k⟩

/-- Names that follow a position, a gap in front of each. -/
def placed (gap : Nat) : Nat → List String → List (Span × Option String)
  | _, [] => []
  | pos, n :: ns =>
    (⟨pos + gap, pos + gap + Text.size n⟩, some n) :: placed gap (pos + gap + Text.size n) ns

/-- The reading with names that have come in: a default name at the start of
the clause, a namespace or a list behind the default name, and entries behind
the last one, each behind a separator. -/
def ImportReading.taking (r : ImportReading) (start : Nat) (separator : String) (w : Wanted) :
    ImportReading :=
  let k := (w.default?.map fun d => Text.size d + 2).getD 0
  let behindDefault := (r.default?.map (·.1.stop)).getD 0 + 2
  { default? := r.default?.or (w.default?.map fun d => (⟨start, start + Text.size d⟩, d))
    whole? := (r.whole?.map fun (s, n) => (shifted k s, n)).or
      (w.whole?.map fun n => (⟨behindDefault, behindDefault + Text.size ("* as " ++ n)⟩, some n))
    list? :=
      match r.list? with
      | some s =>
        some ⟨s.start + k, s.stop + k + Text.size (String.join (w.named.map (separator ++ ·)))⟩
      | none =>
        if w.named.isEmpty then none
        else some ⟨behindDefault, behindDefault + Text.size (braced w.named)⟩
    entries :=
      match r.list? with
      | some _ =>
        (r.entries.map fun (s, n) => (shifted k s, n))
          ++ placed (Text.size separator) ((r.entries.getLast?.map (·.1.stop)).getD 0 + k) w.named
      | none => placed 2 behindDefault w.named }

/-- All imports that bind anything, with their parts. -/
def importParts (t : Tree) : List ImportParts :=
  (t.nodes.filter (Node.is · .importStatement)).filterMap ImportParts.of?

/-- The names. -/
def Wanted.names (w : Wanted) : List String := w.default?.toList ++ w.whole?.toList ++ w.named

/-- The imports of `t'` are those of `t`. They bind the same names, and one of
them has taken names in. -/
def RereadTaking (t t' : Tree) (p : ImportParts) (w : Wanted) : Prop :=
  ∃ front back front' q back', importParts t = front ++ p :: back
    ∧ importParts t' = front' ++ q :: back'
    ∧ front'.map (·.locals t') = front.map (·.locals t)
    ∧ back'.map (·.locals t') = back.map (·.locals t)
    ∧ q.reading t' = (p.reading t).taking p.clause.start (p.separator t) w

/-! ### Removing -/

/-- Names that follow a position bind these names. -/
theorem mem_placed {gap pos : Nat} {names : List String} {e : Span × Option String}
    (h : e ∈ placed gap pos names) : ∃ s ∈ names, e.2 = some s := by
  induction names generalizing pos with
  | nil => cases h
  | cons n names ih =>
      rcases List.mem_cons.mp h with rfl | h
      · exact ⟨n, List.mem_cons_self .., rfl⟩
      · obtain ⟨s, hs, he⟩ := ih h
        exact ⟨s, List.mem_cons_of_mem n hs, he⟩

/-- They reach as far as the text that puts them in. -/
theorem getLast?_placed (separator : String) (pos : Nat) {names : List String} (h : names ≠ []) :
    ((placed (Text.size separator) pos names).getLast?.map fun e => e.1.stop)
      = some (pos + Text.size (String.join (names.map (separator ++ ·)))) := by
  induction names generalizing pos with
  | nil => exact absurd rfl h
  | cons n names ih =>
      rw [List.map_cons, String.join_cons, Text.size_append, Text.size_append, placed]
      cases names with
      | nil =>
          show some (pos + Text.size separator + Text.size n) = _
          simp [Text.size, Nat.add_assoc]
      | cons m names =>
          rw [placed, List.getLast?_cons_cons, ← placed, ih _ (List.cons_ne_nil m names),
            Option.some.injEq]
          omega

/-- The import `q` of `t'` is the import `p` of `t` with names taken in that it
had room for and did not bind. -/
structure ImportParts.HasTaken (p : ImportParts) (t : Tree) (w : Wanted) (q : ImportParts)
    (t' : Tree) : Prop where
  /-- The names and positions are those of the import with these names. -/
  reread : q.reading t' = (p.reading t).taking p.clause.start (p.separator t) w
  /-- The names are new. -/
  fresh : ∀ s ∈ p.locals t, s ∉ w.names
  /-- They find a place. -/
  room : p.HasRoomFor w

namespace ImportParts.HasTaken

/-- The clause moves on by what is put in at its start. -/
theorem shift_eq (w : Wanted) :
    ((w.default?.map fun d => Text.size d + 2).getD 0) = Text.byteSize w.opening.toList := by
  rw [Wanted.opening]
  cases w.default? with
  | none => rfl
  | some d =>
      exact (Text.size_append d ", ").symm

/-- The default name was there, or has come in. -/
theorem default_eq (h : p.HasTaken t w q t') :
    (q.default?.map fun n => (n.span, t'.text n))
      = (p.default?.map fun n => (n.span, t.text n)).or (w.default?.map fun d =>
          (⟨p.clause.start, p.clause.start + Text.size d⟩, d)) :=
  congrArg ImportReading.default? h.reread

/-- The namespace was there, or has come in. -/
theorem whole_eq (h : p.HasTaken t w q t') :
    (q.whole?.map fun n => (n.span, q.wholeName?.map t'.text))
      = (p.whole?.map fun n => (shifted (Text.byteSize w.opening.toList) n.span,
          p.wholeName?.map t.text)).or (w.whole?.map fun n =>
          (⟨(p.default?.map Node.stop).getD 0 + 2,
            (p.default?.map Node.stop).getD 0 + 2 + Text.size ("* as " ++ n)⟩, some n)) := by
  have hwhole := congrArg ImportReading.whole? h.reread
  simp only [ImportReading.taking, ImportParts.reading, Option.map_map, Function.comp_def,
    shift_eq] at hwhole
  exact hwhole

/-- The list was there, and has become longer, or it has come in. -/
theorem list_eq (h : p.HasTaken t w q t') :
    q.list?.map Node.span =
      match p.list? with
      | some list => some ⟨list.start + Text.byteSize w.opening.toList,
          list.stop + Text.byteSize w.opening.toList
            + Text.size (String.join (w.named.map (p.separator t ++ ·)))⟩
      | none =>
        if w.named.isEmpty then none
        else some ⟨(p.default?.map Node.stop).getD 0 + 2,
          (p.default?.map Node.stop).getD 0 + 2 + Text.size (braced w.named)⟩ := by
  have hlist := congrArg ImportReading.list? h.reread
  simp only [ImportReading.taking, ImportParts.reading, Option.map_map, Function.comp_def,
    shift_eq] at hlist
  rw [hlist]
  cases p.list? <;> rfl

/-- The entries were there, or have come in behind them. -/
theorem entries_eq (h : p.HasTaken t w q t') :
    (q.specifiers.map fun n => (n.span, (localName? n).map t'.text)) =
      match p.list? with
      | some _ =>
        (p.specifiers.map fun n =>
            (shifted (Text.byteSize w.opening.toList) n.span, (localName? n).map t.text))
          ++ placed (Text.size (p.separator t)) ((p.specifiers.getLast?.map Node.stop).getD 0
            + Text.byteSize w.opening.toList) w.named
      | none => placed 2 ((p.default?.map Node.stop).getD 0 + 2) w.named := by
  have hentries := congrArg ImportReading.entries h.reread
  simp only [ImportReading.taking, ImportParts.reading, Option.map_map, Function.comp_def,
    shift_eq, List.map_map, List.getLast?_map] at hentries
  rw [hentries]
  cases p.list? <;> rfl

/-- The default name goes if it has come in. -/
theorem isGone_default (h : p.HasTaken t w q t') :
    isGone t' w.names q.default? = w.default?.isSome := by
  have hname := congrArg (Option.map Prod.snd) h.default_eq
  simp only [Option.map_map, Option.map_or, Function.comp_def] at hname
  cases hd : w.default? with
  | none =>
      rw [hd, Option.map_none, Option.or_none] at hname
      refine isGone_eq_false fun s hs => h.fresh s (mem_locals_iff.mpr (.inl ?_))
      exact hname ▸ hs
  | some d =>
      rw [h.room.default (by simp [hd]), hd, Option.map_none, Option.none_or] at hname
      exact isGone_eq_true hname (by simp [Wanted.names, hd])

/-- The namespace goes if it has come in. -/
theorem isGone_whole (h : p.HasTaken t w q t') :
    isGone t' w.names q.wholeName? = w.whole?.isSome := by
  have hname := congrArg (fun n? => (n?.map Prod.snd).join) h.whole_eq
  have hjoin : (q.whole?.map fun _ => q.wholeName?.map t'.text).join
      = q.wholeName?.map t'.text := by
    rw [wholeName?]
    cases q.whole? <;> rfl
  simp only [Option.map_map, Option.map_or, Function.comp_def, hjoin] at hname
  cases hn : w.whole? with
  | none =>
      rw [hn, Option.map_none, Option.or_none] at hname
      refine isGone_eq_false fun s hs => h.fresh s (mem_locals_iff.mpr (.inr (.inl ?_)))
      rw [hname, wholeName?] at hs
      rw [wholeName?]
      cases hw : p.whole? with
      | none => simp [hw] at hs
      | some ns => simpa [hw] using hs
  | some n =>
      rw [(h.room.whole (by simp [hn])).2.1, hn] at hname
      exact isGone_eq_true hname (by simp [Wanted.names, hn])

/-- A default name that has come in stands at the start of the clause. -/
theorem exists_newDefault {d : String} (h : p.HasTaken t w q t') (hd : w.default? = some d) :
    ∃ new, q.default? = some new ∧ new.start = p.clause.start := by
  have hspan := h.default_eq
  rw [h.room.default (by simp [hd]), hd] at hspan
  obtain ⟨new, hnew, hspan⟩ := Option.map_eq_some_iff.mp hspan
  exact ⟨new, hnew, by rw [Node.start, (Prod.mk.inj hspan).1]⟩

/-- The namespace or the list at the start of a clause without a default name
has moved on. -/
theorem exists_moved {next : Node} (h : p.HasTaken t w q t') (hnone : p.default? = none)
    (hnext : p.whole?.or p.list? = some next) :
    ∃ moved, q.whole?.or q.list? = some moved
      ∧ moved.start = next.start + Text.byteSize w.opening.toList := by
  have hwhole := h.whole_eq
  cases hns : p.whole? with
  | some ns =>
      rw [hns] at hnext hwhole
      obtain rfl := Option.some.inj hnext
      obtain ⟨moved, hmoved, hspan⟩ := Option.map_eq_some_iff.mp hwhole
      refine ⟨moved, by rw [hmoved]; rfl, ?_⟩
      rw [Node.start, (Prod.mk.inj hspan).1]
      rfl
  | none =>
      -- Without a default name no namespace comes in.
      have hold : w.whole? = none := by
        by_contra hsome
        have hdefault := (h.room.whole (Option.isSome_iff_ne_none.mpr hsome)).1
        rw [hnone] at hdefault
        cases hdefault
      have hlist := h.list_eq
      rw [hns, hold] at hwhole
      rw [hns, Option.none_or] at hnext
      rw [hnext] at hlist
      obtain ⟨moved, hmoved, hspan⟩ := Option.map_eq_some_iff.mp hlist
      refine ⟨moved, by rw [Option.map_eq_none_iff.mp hwhole, Option.none_or, hmoved], ?_⟩
      rw [Node.start, hspan]

/-- The edits that remove a default name that has come in. -/
theorem exchanges_default {before inside behind : List Char} (h : p.HasTaken t w q t')
    (hcut : p.CutsText t before inside behind)
    (hnext : p.default? = none → ∃ next, p.whole?.or p.list? = some next
      ∧ next.start = p.clause.start) :
    Edit.Exchanges before w.opening.toList []
      (removedDefault q (isGone t' w.names q.default?)) := by
  rw [h.isGone_default]
  cases hd : w.default? with
  | none =>
      refine .inr ⟨?_, by simp [Wanted.opening, hd]⟩
      unfold removedDefault
      cases q.default? <;> cases q.whole?.or q.list? <;> rfl
  | some d =>
      have hnone := h.room.default (by simp [hd])
      obtain ⟨next, hnext, hstart⟩ := hnext hnone
      obtain ⟨moved, hmoved, hmovedStart⟩ := h.exists_moved hnone hnext
      obtain ⟨new, hnew, hnewStart⟩ := h.exists_newDefault hd
      left
      rw [removedDefault, hnew, hmoved]
      dsimp only [Option.isSome_some]
      rw [if_pos rfl, hnewStart, hmovedStart, hstart, hcut.start]
      rfl

/-- The entries that were there stay, and those that have come in go. -/
theorem exists_entries (h : p.HasTaken t w q t') {list last : Node} (hlist : p.list? = some list)
    (hlast : p.specifiers.getLast? = some last) :
    ∃ kept added, q.specifiers = kept ++ added
      ∧ (∀ n ∈ kept, isGone t' w.names (localName? n) = false)
      ∧ (∀ n ∈ added, isGone t' w.names (localName? n) = true)
      ∧ (∃ n, kept.getLast? = some n ∧ n.stop = last.stop + Text.byteSize w.opening.toList)
      ∧ (w.named = [] → added = [])
      ∧ (w.named ≠ [] → ∃ n, added.getLast? = some n
        ∧ n.stop = last.stop + Text.byteSize w.opening.toList
          + Text.size (String.join (w.named.map (p.separator t ++ ·)))) := by
  have hentries := h.entries_eq
  rw [hlist, hlast] at hentries
  obtain ⟨kept, added, hsplit, hkept, hadded⟩ := List.map_eq_append_iff.mp hentries
  refine ⟨kept, added, hsplit, fun n hn => ?_, fun n hn => ?_, ?_, fun hnil => ?_, fun hne => ?_⟩
  · obtain ⟨m, hm, hname⟩ := List.mem_map.mp (hkept ▸ List.mem_map_of_mem hn)
    refine isGone_eq_false fun s hs => h.fresh s (mem_locals_iff.mpr (.inr (.inr ⟨m, hm, ?_⟩)))
    exact (Prod.mk.inj hname).2 ▸ hs
  · obtain ⟨s, hs, hname⟩ := mem_placed (hadded ▸ List.mem_map_of_mem hn)
    exact isGone_eq_true hname (by simp [Wanted.names, hs])
  · have hstop := congrArg List.getLast? hkept
    rw [List.getLast?_map, List.getLast?_map, hlast] at hstop
    obtain ⟨n, hn, hspan⟩ := Option.map_eq_some_iff.mp hstop
    exact ⟨n, hn, by rw [Node.stop, (Prod.mk.inj hspan).1]; rfl⟩
  · rw [hnil] at hadded
    exact List.map_eq_nil_iff.mp hadded
  · have hstop := getLast?_placed (p.separator t)
      (last.stop + Text.byteSize w.opening.toList) hne
    rw [Option.map_some, Option.getD_some] at hadded
    rw [← hadded, List.getLast?_map, Option.map_map] at hstop
    exact Option.map_eq_some_iff.mp hstop

/-- The edits that remove entries of a list. -/
theorem exchanges_entries {before inside behind : List Char} (h : p.HasTaken t w q t')
    (hcut : p.CutsText t before inside behind) {list last : Node} (hlist : p.list? = some list)
    (hlast : p.specifiers.getLast? = some last) (default? : Option Node) :
    Edit.Exchanges (before ++ w.opening.toList ++ inside) (p.continuation t w).toList []
      (removedBehind q default? (isGone t' w.names q.wholeName?)
        fun n => isGone t' w.names (localName? n)) := by
  have hstop : last.stop = Text.byteSize before + Text.byteSize inside := by
    have hstop := hcut.stop
    rw [lastPart?, hlast, Option.some_or, Option.map_some, Option.some.injEq,
      Text.byteSize_append] at hstop
    exact hstop
  -- An import with a list has no namespace, so none is gone.
  have hwhole : isGone t' w.names q.wholeName? = false := by
    rw [h.isGone_whole, Bool.eq_false_iff]
    intro hsome
    have hnone := (h.room.whole hsome).2.2.1
    rw [hlist] at hnone
    cases hnone
  obtain ⟨kept, added, hsplit, hkept, hadded, ⟨n, hn, hnstop⟩, hnil, hcons⟩ :=
    h.exists_entries hlist hlast
  -- An entry of the old list stays, so the list stays with it.
  have hall : (kept ++ added).all (fun n => isGone t' w.names (localName? n)) = false :=
    List.all_eq_false.mpr ⟨n, List.mem_append_left _ (List.mem_of_getLast? hn), by
      simp [hkept n (List.mem_of_getLast? hn)]⟩
  rw [hwhole, removedBehind_entries q default? (hsplit ▸ hall), hsplit, continuation, hlist]
  dsimp only
  -- If no entry was taken in, none is gone. Else the ones that go stand behind one that stays.
  by_cases hnamed : w.named = []
  · have hany : kept.any (fun n => isGone t' w.names (localName? n)) = false :=
      List.any_eq_false.mpr fun n hn => Bool.eq_false_iff.mp (hkept n hn)
    rw [hnil hnamed, List.append_nil, hany, hnamed]
    exact .inr ⟨rfl, rfl⟩
  · obtain ⟨m, hm, hmstop⟩ := hcons hnamed
    have hany : (kept ++ added).any (fun n => isGone t' w.names (localName? n)) = true :=
      List.any_eq_true.mpr ⟨m, List.mem_append_right _ (List.mem_of_getLast? hm),
        hadded m (List.mem_of_getLast? hm)⟩
    rw [hany, if_pos rfl, removeItems_append hkept hadded hn hm, hnstop, hmstop]
    left
    rw [Text.byteSize_append, Text.byteSize_append, Edit.delete, Text.size]
    congr 2 <;> omega

/-- A default name that was there stays. -/
theorem exists_defaultLeft (h : p.HasTaken t w q t') {default : Node}
    (hdefault : p.default? = some default) (hnew : w.default? = none) :
    ∃ left, q.default? = some left ∧ left.stop = default.stop := by
  have hspan := h.default_eq
  rw [hdefault, hnew] at hspan
  obtain ⟨left, hleft, hspan⟩ := Option.map_eq_some_iff.mp hspan
  exact ⟨left, hleft, by rw [Node.stop, (Prod.mk.inj hspan).1]; rfl⟩

/-- Without a list, all entries have come in. -/
theorem isGone_of_mem (h : p.HasTaken t w q t') (hlist : p.list? = none) (hn : n ∈ q.specifiers) :
    isGone t' w.names (localName? n) = true := by
  have hentries := h.entries_eq
  rw [hlist] at hentries
  obtain ⟨s, hs, hname⟩ := mem_placed (hentries ▸ List.mem_map_of_mem hn)
  exact isGone_eq_true hname (by simp [Wanted.names, hs])

/-- Without a list, there are entries if some have come in. -/
theorem specifiers_eq_nil_iff (h : p.HasTaken t w q t') (hlist : p.list? = none) :
    q.specifiers = [] ↔ w.named = [] := by
  have hentries := h.entries_eq
  rw [hlist] at hentries
  dsimp only at hentries
  rw [← List.map_eq_nil_iff, hentries]
  cases w.named <;> simp [placed]

/-- The edits that remove a namespace that has come in. -/
theorem removedBehind_namespace (h : p.HasTaken t w q t') {default left : Node} {name : String}
    (hdefault : p.default? = some default) (hleft : left.stop = default.stop)
    (hname : w.whole? = some name) :
    removedBehind q (some left) w.whole?.isSome (fun n => isGone t' w.names (localName? n))
      = [.delete default.stop (default.stop + Text.size (", * as " ++ name))] := by
  obtain ⟨-, hns, hlist, hnamed⟩ := h.room.whole (by simp [hname])
  have hwhole := h.whole_eq
  rw [hns, hname, hdefault] at hwhole
  obtain ⟨ns, hns, hspan⟩ := Option.map_eq_some_iff.mp hwhole
  have hstop : ns.stop = default.stop + Text.size (", * as " ++ name) := by
    have htext : ", * as " ++ name = ", " ++ ("* as " ++ name) := by
      rw [← String.append_assoc]
      rfl
    rw [Node.stop, (Prod.mk.inj hspan).1, htext, Text.size_append ", ", ← Nat.add_assoc]
    rfl
  unfold removedBehind
  rw [(h.specifiers_eq_nil_iff hlist).mpr hnamed, hns, hname, ← hstop, ← hleft]
  rfl

/-- The edits that remove a list that has come in. -/
theorem removedBehind_list (h : p.HasTaken t w q t') {default left : Node}
    (hdefault : p.default? = some default) (hleft : left.stop = default.stop)
    (hlist : p.list? = none) (hns : p.whole? = none) (hwhole : w.whole? = none)
    (hnamed : w.named ≠ []) :
    removedBehind q (some left) w.whole?.isSome (fun n => isGone t' w.names (localName? n))
      = [.delete default.stop (default.stop + Text.size (", " ++ braced w.named))] := by
  have hns' := h.whole_eq
  have hlist' := h.list_eq
  rw [hns, hwhole] at hns'
  rw [hlist, hdefault] at hlist'
  dsimp only at hlist'
  rw [if_neg (by simpa using hnamed)] at hlist'
  obtain ⟨list, hlist', hspan⟩ := Option.map_eq_some_iff.mp hlist'
  have hstop : list.stop = default.stop + Text.size (", " ++ braced w.named) := by
    rw [Node.stop, hspan, Text.size_append, ← Nat.add_assoc]
    rfl
  have hall : q.specifiers.all (fun n => isGone t' w.names (localName? n)) = true :=
    List.all_eq_true.mpr fun n hn => h.isGone_of_mem hlist hn
  have hany : q.specifiers.any (fun n => isGone t' w.names (localName? n)) = true := by
    obtain ⟨n, hmem⟩ := List.exists_mem_of_ne_nil _ (mt (h.specifiers_eq_nil_iff hlist).mp hnamed)
    exact List.any_eq_true.mpr ⟨n, hmem, h.isGone_of_mem hlist hmem⟩
  unfold removedBehind
  rw [hall, hany, Option.map_eq_none_iff.mp hns', hlist', ← hstop, ← hleft]
  rfl

/-- The edits that remove what has come in behind the default name. -/
theorem exchanges_behind {before inside behind : List Char} (h : p.HasTaken t w q t')
    (hcut : p.CutsText t before inside behind) (hlist : p.list? = none)
    (hentries : p.specifiers = []) :
    Edit.Exchanges (before ++ w.opening.toList ++ inside) (p.continuation t w).toList []
      (removedBehind q (q.default?.filter fun _ => !(isGone t' w.names q.default?))
        (isGone t' w.names q.wholeName?) fun n => isGone t' w.names (localName? n)) := by
  rw [h.isGone_default, h.isGone_whole, continuation, hlist]
  by_cases hnothing : w.whole? = none ∧ w.named = []
  · -- Nothing has come in there.
    obtain ⟨hwhole, hnamed⟩ := hnothing
    rw [hwhole, hnamed]
    refine .inr ⟨?_, rfl⟩
    unfold removedBehind
    rw [(h.specifiers_eq_nil_iff hlist).mpr hnamed]
    cases q.default?.filter fun _ => !(w.default?.isSome) <;> cases q.whole? <;> rfl
  · obtain ⟨default, hdefault, hns, hnew⟩ := h.room.exists_default hlist hnothing
    obtain ⟨left, hleft, hstop⟩ := h.exists_defaultLeft hdefault hnew
    have hfront : default.stop = Text.byteSize (before ++ w.opening.toList ++ inside) := by
      have hcutStop := hcut.stop
      rw [lastPart?, hentries, hdefault, List.getLast?_nil, Option.none_or, Option.some_or,
        Option.map_some, Option.some.injEq] at hcutStop
      simpa [Wanted.opening, hnew] using hcutStop
    have hstays : (q.default?.filter fun _ => !(w.default?.isSome)) = some left := by
      rw [hleft, hnew]
      rfl
    rw [hstays]
    left
    cases hname : w.whole? with
    | some name =>
        rw [← hname, h.removedBehind_namespace hdefault hstop hname, hname, ← hfront]
        rfl
    | none =>
        have hnamed : w.named ≠ [] := fun hnil => hnothing ⟨hname, hnil⟩
        have hne : w.named.isEmpty = false := by simpa using hnamed
        rw [← hname, h.removedBehind_list hdefault hstop hlist hns hname hnamed, hname, hne,
          ← hfront]
        rfl

/-- Some part stays, because some part was there. -/
theorem stays (h : p.HasTaken t w q t') (hlast : p.lastPart?.isSome = true)
    (hentries : p.list? = none → p.specifiers = []) :
    (q.default?.isSome = true ∧ isGone t' w.names q.default? = false)
      ∨ (q.whole?.isSome = true ∧ isGone t' w.names q.wholeName? = false)
      ∨ ∃ n ∈ q.specifiers, isGone t' w.names (localName? n) = false := by
  obtain ⟨last, hlast⟩ := Option.isSome_iff_exists.mp hlast
  rcases Option.or_eq_some_iff.mp hlast with hspecifier | ⟨-, hlast⟩
  · -- An entry.
    obtain ⟨list, hlist⟩ : ∃ list, p.list? = some list := by
      cases hlist : p.list? with
      | none => simp [hentries hlist] at hspecifier
      | some list => exact ⟨list, rfl⟩
    obtain ⟨kept, added, hsplit, hkept, -, ⟨n, hn, -⟩, -⟩ := h.exists_entries hlist hspecifier
    have hmem := List.mem_of_getLast? hn
    exact .inr (.inr ⟨n, by simp [hsplit, hmem], hkept n hmem⟩)
  · rcases Option.or_eq_some_iff.mp hlast with hdefault | ⟨-, hwhole⟩
    · -- The default name.
      have hnew : w.default? = none := by
        by_contra hnew
        rw [h.room.default (Option.isSome_iff_ne_none.mpr hnew)] at hdefault
        cases hdefault
      obtain ⟨left, hleft, -⟩ := h.exists_defaultLeft hdefault hnew
      exact .inl ⟨by simp [hleft], by simp [h.isGone_default, hnew]⟩
    · -- The namespace.
      have hnew : w.whole? = none := by
        by_contra hnew
        rw [(h.room.whole (Option.isSome_iff_ne_none.mpr hnew)).2.1] at hwhole
        cases hwhole
      have hkept := h.whole_eq
      rw [hwhole, hnew] at hkept
      obtain ⟨ns, hns, -⟩ := Option.map_eq_some_iff.mp hkept
      exact .inr (.inl ⟨by simp [hns], by simp [h.isGone_whole, hnew]⟩)

/-- Removing the default name empties no line: the clause that was there goes
on behind it. -/
theorem keepsLines_default {before inside behind after : List Char} {out : String}
    {edits : List Edit} (h : p.HasTaken t w q t') (hcut : p.CutsText t before inside behind)
    (hedits : Edit.Exchanges before w.opening.toList [] edits)
    (hout : out.toList = before ++ w.opening.toList ++ (inside ++ after)) :
    ∀ e ∈ edits, e.emptiesLine out = false := by
  refine fun e he => Bool.eq_false_iff.mpr fun hempties => ?_
  obtain ⟨-, hlt, -, hfeed⟩ := Edit.of_emptiesLine hempties
  rcases hedits with rfl | ⟨rfl, -⟩
  · obtain rfl := List.mem_singleton.mp he
    have hnone : p.default? = none := h.room.default <| by
      cases hd : w.default? with
      | none => simp [Wanted.opening, hd] at hlt
      | some d => rfl
    have hhead := Text.head?_of_hasCharAt hout (by rwa [Text.byteSize_append])
    rw [List.head?_append_of_ne_nil _ hcut.ne_nil] at hhead
    exact hcut.first hnone hhead
  · cases he

/-- Removing what stands behind the last part empties no line: it would have to
start behind the end of one. -/
theorem keepsLines_behind {before inside behind front old after : List Char} {out : String}
    {edits : List Edit} (hcut : p.CutsText t before inside behind)
    (hedits : Edit.Exchanges (front ++ inside) old [] edits)
    (hout : out.toList = front ++ inside ++ after) :
    ∀ e ∈ edits, e.emptiesLine out = false := by
  refine fun e he => Bool.eq_false_iff.mpr fun hempties => ?_
  obtain ⟨-, -, hline, -⟩ := Edit.of_emptiesLine hempties
  rcases hedits with rfl | ⟨rfl, -⟩
  · obtain rfl := List.mem_singleton.mp he
    rcases (Edit.atLineStart_iff hout).mp hline with hnil | hfeed
    · simp [hcut.ne_nil] at hnil
    · rw [List.getLast?_append_of_ne_nil _ hcut.ne_nil] at hfeed
      exact hcut.last hfeed
  · cases he

/-- The names are removed as they came in, and what was there comes out. -/
theorem applyEdits_removeFromImport {before inside behind : List Char} {out : String}
    (h : p.HasTaken t w q t') (hcut : p.CutsText t before inside behind)
    (hnext : p.default? = none → ∃ next, p.whole?.or p.list? = some next
      ∧ next.start = p.clause.start)
    (hfull : ∀ list ∈ p.list?, p.specifiers ≠ []) (hentries : p.list? = none → p.specifiers = [])
    (hout : out.toList = before ++ w.opening.toList ++ inside ++ (p.continuation t w).toList
      ++ behind) :
    applyEdits out (removeFromImport t' w.names q) = (t.source, []) := by
  have hlast : p.lastPart?.isSome = true := by
    have hstop := hcut.stop
    cases hlast : p.lastPart? with
    | none => simp [hlast] at hstop
    | some last => rfl
  have hfirst := h.exchanges_default hcut hnext
  have hsecond : Edit.Exchanges (before ++ w.opening.toList ++ inside)
      (p.continuation t w).toList []
      (removedBehind q (q.default?.filter fun _ => !(isGone t' w.names q.default?))
        (isGone t' w.names q.wholeName?) fun n => isGone t' w.names (localName? n)) := by
    cases hlist : p.list? with
    | none => exact h.exchanges_behind hcut hlist (hentries hlist)
    | some list =>
        have hspecifier := List.getLast?_eq_some_getLast (hfull list hlist)
        exact h.exchanges_entries hcut hlist hspecifier _
  have hkept := h.keepsLines_default hcut hfirst (by simpa using hout)
  have hkept' := keepsLines_behind hcut hsecond (hout.trans (List.append_assoc ..))
  rw [removeFromImport_eq (h.stays hlast hentries), removeParts_eq,
    Edit.applyEdits_stretches hout hcut.ne_nil hfirst hsecond
      (List.forall_mem_append.mpr ⟨hkept, hkept'⟩),
    List.append_nil, List.append_nil, ← hcut.text, String.ofList_toList]

end ImportParts.HasTaken

/-! ### There and back -/

/-- The first import of a source is one of the imports. -/
theorem mem_importParts (hfirst : firstImport? t source = some p) : p ∈ importParts t := by
  obtain ⟨n, hn, -, hp⟩ := of_firstImport? hfirst
  obtain ⟨hn, hkind⟩ := List.mem_filter.mp hn
  exact List.mem_filterMap.mpr
    ⟨n, List.mem_filter.mpr ⟨Node.mem_preorder_of_child hn, hkind⟩, hp⟩

/-- The names that an import does not bind yet are names that are wanted. -/
theorem ImportParts.mem_names_missing {s : String} (h : s ∈ (p.missing t w).names) :
    s ∈ w.names := by
  simp only [Wanted.names, missing, List.mem_append, Option.mem_toList, List.mem_filter] at h ⊢
  rcases h with (h | h) | h
  · exact .inl (.inl (Option.filter_eq_some_iff.mp h).1)
  · exact .inl (.inr (Option.filter_eq_some_iff.mp h).1)
  · exact .inr h.1

/-- Names are removed from the import that has taken them in, and from no
other one. -/
theorem removeImported_eq {names : List String} (hread : RereadTaking t t' p w)
    (hold : ∀ q ∈ importParts t, ∀ s ∈ q.locals t, s ∉ names) :
    ∃ q, q.reading t' = (p.reading t).taking p.clause.start (p.separator t) w
      ∧ removeImported t' names = removeFromImport t' names q := by
  obtain ⟨front, back, front', q, back', himports, himports', hfront, hback, hq⟩ := hread
  -- What stands in front and behind binds what it did.
  have hothers : ∀ {others others' : List ImportParts},
      others'.map (·.locals t') = others.map (·.locals t) → (∀ o ∈ others, o ∈ importParts t) →
      others'.flatMap (removeFromImport t' names) = [] := by
    intro others others' hsame hmem
    refine List.flatMap_eq_nil_iff.mpr fun o' ho' => removeFromImport_eq_nil fun s hs => ?_
    have hlocals : o'.locals t' ∈ others'.map (·.locals t') := List.mem_map_of_mem ho'
    rw [hsame] at hlocals
    obtain ⟨o, ho, hlocals⟩ := List.mem_map.mp hlocals
    exact hold o (hmem o ho) s (hlocals ▸ hs)
  refine ⟨q, hq, ?_⟩
  show (importParts t').flatMap (removeFromImport t' names) = _
  rw [himports', List.flatMap_append, List.flatMap_cons,
    hothers hfront fun o ho => by simp [himports, ho],
    hothers hback fun o ho => by simp [himports, ho], List.nil_append, List.append_nil]

/-- An import of one name on a line of its own, with a comma and a comment. -/
def commentedImport : Tree where
  source := "import \x7b\n  a, // one\n\x7d from './x';\n"
  root := (Node.branchTo .program
    [.branch .importStatement
      [.token 0 "import",
        .branch .importClause
          [.branch .namedImports
            [.token 7 "\x7b", namedEntry 11 "a", .token 12 ",",
              .leaf (.construct .comment) 14 "// one", .token 21 "\x7d"]],
        .token 23 "from", quotedSource 28 "./x", .token 33 ";"]] 35).numbered
  dialect := .plain
  path? := none

/-- The same with a default name and a second entry. -/
def extendedImport : Tree where
  source := "import d, \x7b\n  a,\n  b, // one\n\x7d from './x';\n"
  root := (Node.branchTo .program
    [.branch .importStatement
      [.token 0 "import",
        .branch .importClause
          [.leaf (.construct .identifier) 7 "d", .token 8 ",",
            .branch .namedImports
              [.token 10 "\x7b", namedEntry 14 "a", .token 15 ",", namedEntry 19 "b",
                .token 20 ",", .leaf (.construct .comment) 22 "// one", .token 29 "\x7d"]],
        .token 31 "from", quotedSource 36 "./x", .token 41 ";"]] 43).numbered
  dialect := .plain
  path? := none

end Refactoring

end ScriptRefactor
