import ScriptRefactor.Proofs.Syntax.Spans
import ScriptRefactor.Proofs.Text.Cut
import ScriptRefactor.Proofs.Text.Pieces
import ScriptRefactor.Refactoring.ModuleLinks

/-!
# `ScriptRefactor.Proofs.Refactoring.ListLayout`: where list edits go

* New entries and statements go to a position of the text
  (`of_append?`, `of_mem_insertStatements`).
* The comma behind an entry is found before any other character that
  is not blank (`endWithComma_le`).
* Entries are dropped from edge to edge, one run behind the other
  (`removeItems_runs`).
-/

set_option autoImplicit false

namespace ScriptRefactor

open Syntax

/-- The edit lies in the text, its ends in order. -/
def Edit.InText (text : String) (e : Edit) : Prop := e.start ≤ e.stop ∧ e.stop ≤ Text.size text

namespace Text

variable {text : String} {p : Nat} {c : Char} {cs : List Char}

/-- A cut is no longer than the text. -/
theorem le_size_of_cutAt? {before after : List Char}
    (h : cutAt? text.toList p = some (before, after)) :
    p + byteSize after = size text := by
  obtain ⟨hsplit, hsize⟩ := cutAt?_eq_some_iff.mp h
  rw [size, hsplit, byteSize_append, hsize]

/-- A character that starts at a position splits the text. -/
theorem exists_append_of_hasCharAt (h : hasCharAt text p c = true) :
    ∃ before after, text.toList = before ++ c :: after ∧ byteSize before = p := by
  unfold hasCharAt at h
  split at h
  · rename_i before rest hcut
    obtain ⟨hsplit, hsize⟩ := cutAt?_eq_some_iff.mp hcut
    cases rest with
    | nil => simp at h
    | cons d rest =>
        obtain rfl : d = c := by simpa using h
        exact ⟨before, rest, hsplit, hsize⟩
  · cases h

/-- A character that follows the characters of a sort at the start. -/
theorem exists_of_head?_drop {f : Char → Bool}
    (h : (cs.drop (cs.takeWhile f).length).head? = some c) :
    ∃ after, cs = cs.takeWhile f ++ c :: after := by
  have hdrop : cs.drop (cs.takeWhile f).length = cs.dropWhile f := by
    have hsplit := List.takeWhile_append_dropWhile (p := f) (l := cs)
    exact (congrArg (List.drop (cs.takeWhile f).length) hsplit).symm.trans List.drop_left
  rw [hdrop] at h
  obtain ⟨after, hafter⟩ := List.head?_eq_some_iff.mp h
  exact ⟨after, by rw [← hafter, List.takeWhile_append_dropWhile]⟩

/-- No more characters than bytes. -/
theorem length_le_byteSize (cs : List Char) : cs.length ≤ byteSize cs := by
  induction cs with
  | nil => exact Nat.le_refl _
  | cons c cs ih =>
      have hc := c.utf8Size_pos
      rw [List.length_cons, byteSize_cons]
      omega

/-- What stands before a text that occurs is followed by it. -/
theorem exists_of_before? {part before : List Char} (h : before? part cs = some before) :
    ∃ after, cs = before ++ part ++ after := by
  induction cs generalizing before with
  | nil =>
      rw [before?] at h
      split at h
      · rename_i hempty
        cases h
        exact ⟨[], by simpa using (List.isEmpty_iff.mp hempty).symm⟩
      · cases h
  | cons d cs ih =>
      rw [before?] at h
      split at h
      · -- It occurs right here.
        rename_i hstart
        cases h
        obtain ⟨after, hafter⟩ := Option.isSome_iff_exists.mp hstart
        exact ⟨after, afterPrefix?_eq_some_iff.mp hafter⟩
      · obtain ⟨before', hbefore, rfl⟩ := Option.map_eq_some_iff.mp h
        obtain ⟨after, hafter⟩ := ih hbefore
        exact ⟨after, by rw [hafter]; rfl⟩

/-- A slice has as many bytes as its ends say, and lies in the text. -/
theorem size_of_slice? {first last : Nat} {part : String} (h : slice? text first last = some part) :
    first ≤ last ∧ byteSize part.toList = last - first ∧ last ≤ size text := by
  unfold slice? sliceChars? at h
  split at h
  · cases h
  · rename_i hle
    obtain ⟨inside, hinside, rfl⟩ := Option.map_eq_some_iff.mp h
    obtain ⟨⟨before, rest⟩, hcut, hinside⟩ := Option.bind_eq_some_iff.mp hinside
    obtain ⟨⟨inside', after⟩, hcut', hinside⟩ := Option.bind_eq_some_iff.mp hinside
    cases hinside
    have hsize := le_size_of_cutAt? hcut
    obtain ⟨hrest, hlength⟩ := cutAt?_eq_some_iff.mp hcut'
    rw [hrest, byteSize_append] at hsize
    rw [String.toList_ofList]
    omega

end Text

namespace Refactoring

variable {t : Tree} {n container item last : Node} {e : Edit} {p : Nat} {c : Char}

/-! ### Positions of new entries -/

/-- The comma behind the last entry is in the text. -/
theorem commaBehind?_le (h : ListLayout.commaBehind? t container last = some p) :
    p ≤ Text.size t.source := by
  unfold ListLayout.commaBehind? at h
  obtain ⟨between, hslice, h⟩ := Option.bind_eq_some_iff.mp h
  obtain ⟨hle, hlength, hsize⟩ := Text.size_of_slice? hslice
  dsimp only at h
  split at h
  · rename_i hcomma
    obtain rfl := Option.some.inj h
    -- The white space and the comma are part of what stands there.
    obtain ⟨after, hafter⟩ := Text.exists_of_head?_drop hcomma
    have hsum := congrArg Text.byteSize hafter
    rw [Text.byteSize_append, Text.byteSize_cons, hlength] at hsum
    have hone : ','.utf8Size = 1 := by decide
    omega
  · cases h

/-- The position behind a line is in the text. -/
theorem nextLineStart_le (text : String) (pos : Nat) : nextLineStart text pos ≤ Text.size text := by
  unfold nextLineStart
  split
  · rename_i before rest hcut
    have hsize := Text.le_size_of_cutAt? hcut
    split
    · rename_i line hline
      obtain ⟨after, hafter⟩ := Text.exists_of_before? hline
      rw [hafter, Text.byteSize_append, Text.byteSize_append] at hsize
      have hone : Text.byteSize ['\n'] = 1 := by decide
      omega
    · exact Nat.le_refl _
  · exact Nat.le_refl _

/-- New entries are put in behind an entry, or behind the comma of the
last one. -/
theorem of_append? {items : List Node} {entries : List String}
    (hitems : ∀ i ∈ items, i.stop ≤ Text.size t.source)
    (h : (ListLayout.of t container items).append? items entries = some e) :
    e.start = e.stop ∧ e.stop ≤ Text.size t.source := by
  unfold ListLayout.append? at h
  split at h
  · cases h
  · cases h
  · rename_i last hlast _
    have hle := hitems last (List.mem_of_getLast? hlast)
    split at h
    · rename_i behind _ hbehind
      obtain rfl := Option.some.inj h
      refine ⟨rfl, ?_⟩
      have hcomma : ListLayout.commaBehind? t container last = some behind := by
        simpa [ListLayout.of, hlast] using hbehind
      exact commaBehind?_le hcomma
    · obtain rfl := Option.some.inj h
      exact ⟨rfl, hle⟩
    · obtain rfl := Option.some.inj h
      exact ⟨rfl, hle⟩

/-- A new entry is put in in front of the first one. -/
theorem of_prepend? {items : List Node} {layout : ListLayout} {entry : String}
    (hitems : ∀ i ∈ items, i.start ≤ Text.size t.source)
    (h : layout.prepend? items entry = some e) :
    e.start = e.stop ∧ e.stop ≤ Text.size t.source := by
  obtain ⟨first, hfirst, rfl⟩ := Option.map_eq_some_iff.mp h
  exact ⟨rfl, hitems first (List.mem_of_head? hfirst)⟩

/-- New statements are put in at a position of the text. -/
theorem of_mem_insertStatements {anchor? : Option Node} {lines : List String}
    (h : e ∈ insertStatements t anchor? lines) :
    e.start = e.stop ∧ e.stop ≤ Text.size t.source := by
  unfold insertStatements at h
  split at h
  · exact absurd h List.not_mem_nil
  · dsimp only at h
    split at h
    · rw [List.mem_singleton.mp h, insertLineAfter]
      split <;> exact ⟨rfl, nextLineStart_le ..⟩
    · rw [List.mem_singleton.mp h]
      exact ⟨rfl, Nat.zero_le _⟩

/-! ### Commas -/

/-- The end of an entry with its comma is no further than any other
character behind the entry that is not blank. -/
theorem endWithComma_le (hc : Text.isAsciiSpace c = false ∧ c ≠ ',')
    (hat : Text.hasCharAt t.source p c = true) (hp : item.stop ≤ p) :
    endWithComma t item ≤ p := by
  unfold endWithComma
  split
  · rename_i before rest hcut
    dsimp only
    split
    · rename_i hcomma
      obtain ⟨after, hafter⟩ := Text.exists_of_head?_drop hcomma
      obtain ⟨hsplit, hsize⟩ := Text.cutAt?_eq_some_iff.mp hcut
      obtain ⟨front, back, hfront, hfsize⟩ := Text.exists_append_of_hasCharAt hat
      obtain ⟨mid, hmid, hrest⟩ := Text.exists_append_of_byteSize_le (hsplit.symm.trans hfront)
        (by omega)
      -- Up to the comma there are only blanks, so the character stands behind it.
      have hlength : (rest.takeWhile Text.isAsciiSpace).length < mid.length := by
        have hfound : rest[mid.length]? = some c := by
          rw [hrest, List.getElem?_append_right (Nat.le_refl _), Nat.sub_self]
          rfl
        by_contra hnot
        rw [hafter] at hfound
        rcases Nat.lt_or_ge mid.length (rest.takeWhile Text.isAsciiSpace).length with hlt | hge
        · rw [List.getElem?_append_left hlt] at hfound
          have hblank := List.all_eq_true.mp List.all_takeWhile c (List.mem_of_getElem? hfound)
          rw [hc.1] at hblank
          cases hblank
        · have heq : mid.length = (rest.takeWhile Text.isAsciiSpace).length := by omega
          rw [heq, List.getElem?_append_right (Nat.le_refl _), Nat.sub_self] at hfound
          exact hc.2 (Option.some.inj hfound).symm
      have hbytes := Text.length_le_byteSize mid
      have hsum := congrArg Text.byteSize hmid
      rw [Text.byteSize_append] at hsum
      omega
    · exact hp
  · exact hp

/-- An entry with its comma stops no earlier than the entry. -/
theorem le_endWithComma (t : Tree) (item : Node) : item.stop ≤ endWithComma t item := by
  unfold endWithComma
  split
  · dsimp only
    split <;> omega
  · exact Nat.le_refl _

/-- An entry with the comma in front starts no later than the entry. -/
theorem startWithComma_le (t : Tree) (item : Node) : startWithComma t item ≤ item.start := by
  unfold startWithComma
  split
  · dsimp only
    split <;> omega
  · exact Nat.le_refl _

/-! ### Runs of entries -/

/-- Edits that go from an end of a node to an end of a node, one behind
the other from a position on. -/
structure Runs (nodes : List Node) (low : Nat) (edits : List Edit) : Prop where
  /-- No edit starts before the position. -/
  low_le : ∀ e ∈ edits, low ≤ e.start
  /-- No edit stops before it starts. -/
  proper : ∀ e ∈ edits, e.start ≤ e.stop
  /-- The edits start at ends of nodes. -/
  start_eq : ∀ e ∈ edits, ∃ n ∈ nodes, e.start = n.start ∨ e.start = n.stop
  /-- The edits stop at ends of nodes. -/
  stop_eq : ∀ e ∈ edits, ∃ n ∈ nodes, e.stop = n.start ∨ e.stop = n.stop
  /-- The edits follow one another. -/
  clear : edits.Pairwise fun a b => a.stop ≤ b.start

/-- No edits. -/
theorem Runs.nil (nodes : List Node) (low : Nat) : Runs nodes low [] := by
  constructor <;> simp

/-- One more edit in front. -/
theorem Runs.cons {nodes : List Node} {low : Nat} {edits : List Edit} (hlow : low ≤ e.start)
    (hproper : e.start ≤ e.stop) (hstart : ∃ n ∈ nodes, e.start = n.start ∨ e.start = n.stop)
    (hstop : ∃ n ∈ nodes, e.stop = n.start ∨ e.stop = n.stop) (h : Runs nodes e.stop edits) :
    Runs nodes low (e :: edits) where
  low_le := List.forall_mem_cons.mpr ⟨hlow, fun x hx => by have := h.low_le x hx; omega⟩
  proper := List.forall_mem_cons.mpr ⟨hproper, h.proper⟩
  start_eq := List.forall_mem_cons.mpr ⟨hstart, h.start_eq⟩
  stop_eq := List.forall_mem_cons.mpr ⟨hstop, h.stop_eq⟩
  clear := List.pairwise_cons.mpr ⟨h.low_le, h.clear⟩

/-- Entries in text order, from a position on. -/
def InOrder (nodes : List Node) (low : Nat) (items : List Node) : Prop :=
  items.Pairwise (fun a b => a.stop ≤ b.start)
    ∧ ∀ n ∈ items, n ∈ nodes ∧ low ≤ n.start ∧ n.start ≤ n.stop

/-- Some of the entries are in order, too. -/
theorem InOrder.sublist {nodes items items' : List Node} {low : Nat} (h : InOrder nodes low items)
    (hsub : items'.Sublist items) : InOrder nodes low items' :=
  ⟨h.1.sublist hsub, fun n hn => h.2 n (hsub.subset hn)⟩

/-- Entries in order stand behind the start of the first one. -/
theorem InOrder.behind_first {nodes items : List Node} {low : Nat}
    (h : InOrder nodes low (item :: items)) : InOrder nodes item.start (item :: items) := by
  refine ⟨h.1, fun n hn => ?_⟩
  obtain ⟨hnode, -, hproper⟩ := h.2 n hn
  refine ⟨hnode, ?_, hproper⟩
  rcases List.mem_cons.mp hn with rfl | hn
  · exact Nat.le_refl _
  · have hgap := (List.pairwise_cons.mp h.1).1 n hn
    have hitem := (h.2 item (List.mem_cons_self ..)).2.2
    omega

mutual

/-- Entries are dropped in runs. -/
theorem removeRuns_runs {nodes : List Node} (before? : Option Node) (low : Nat) :
    (l : List (Node × Bool)) → InOrder nodes low (before?.toList ++ l.map Prod.fst) →
      Runs nodes low (removeRuns before? l)
  | [], _ => Runs.nil nodes low
  | (item, false) :: rest, h =>
    removeRuns_runs (some item) low rest (h.sublist (List.sublist_append_right ..))
  | (first, true) :: rest, h => by
    have hfirst := h.sublist (List.sublist_append_right ..)
    obtain ⟨hnode, hlow, hproper⟩ := hfirst.2 first (List.mem_cons_self ..)
    refine removeRun_runs before? low first first rest
      (h.sublist ((List.Sublist.refl _).append (List.sublist_cons_self ..)))
      ⟨hnode, hnode, hlow, hproper⟩ (fun b hb => ?_) (List.pairwise_cons.mp hfirst.1).1
    exact (List.pairwise_append.mp h.1).2.2 b (Option.mem_toList.mpr hb) first
      (List.mem_cons_self ..)

/-- A run that was started at `first` and has reached `last` is dropped,
and then the others. -/
theorem removeRun_runs {nodes : List Node} (before? : Option Node) (low : Nat) (first last : Node) :
    (l : List (Node × Bool)) → InOrder nodes low (before?.toList ++ l.map Prod.fst) →
      first ∈ nodes ∧ last ∈ nodes ∧ low ≤ first.start ∧ first.start ≤ last.stop →
      (∀ b ∈ before?, b.stop ≤ first.start) → (∀ i ∈ l.map Prod.fst, last.stop ≤ i.start) →
      Runs nodes low (removeRuns.removeRun before? first last l)
  | [], h, hrun, hbefore, _ => by
    cases before? with
    | none => exact Runs.nil nodes low
    | some before =>
        -- The last run goes from the entry in front to its own end.
        obtain ⟨hnode, hlow, hproper⟩ := h.2 before (List.mem_cons_self ..)
        have hgap := hbefore before rfl
        refine Runs.cons (Nat.le_trans hlow hproper) ?_ ⟨before, hnode, .inr rfl⟩
          ⟨last, hrun.2.1, .inr rfl⟩ (Runs.nil nodes _)
        show before.stop ≤ last.stop
        omega
  | (item, true) :: rest, h, hrun, hbefore, hlast => by
    have hitem := h.sublist (List.sublist_append_right ..)
    obtain ⟨hnode, -, hproper⟩ := hitem.2 item (List.mem_cons_self ..)
    have hgap := hlast item (List.mem_cons_self ..)
    exact removeRun_runs before? low first item rest
      (h.sublist ((List.Sublist.refl _).append (List.sublist_cons_self ..)))
      ⟨hrun.1, hnode, hrun.2.2.1, by omega⟩ hbefore (List.pairwise_cons.mp hitem.1).1
  | (next, false) :: rest, h, hrun, hbefore, hlast => by
    have hnext := h.sublist (List.sublist_append_right ..)
    have hnode := (hnext.2 next (List.mem_cons_self ..)).1
    have hgap := hlast next (List.mem_cons_self ..)
    refine Runs.cons hrun.2.2.1 ?_ ⟨first, hrun.1, .inl rfl⟩ ⟨next, hnode, .inl rfl⟩
      (removeRuns_runs (some next) next.start rest hnext.behind_first)
    show first.start ≤ next.start
    omega

end

/-- The children of one kind that are dropped are dropped in runs. -/
theorem removeItems_runs (hn : n.SpansNested) (kind : Construct) (gone : Node → Bool) :
    Runs n.children 0 (removeItems (n.childrenOf kind) gone) := by
  refine removeRuns_runs none 0 _ ?_
  have hmap : ((n.childrenOf kind).map fun c => (c, gone c)).map Prod.fst = n.childrenOf kind := by
    rw [List.map_map]
    exact List.map_id _
  show InOrder n.children 0 (((n.childrenOf kind).map fun c => (c, gone c)).map Prod.fst)
  rw [hmap]
  refine ⟨(hn.apart n (Node.mem_preorder_self n)).sublist List.filter_sublist, fun c hc => ?_⟩
  have hc := Node.mem_of_mem_childrenOf hc
  exact ⟨hc, Nat.zero_le _, hn.proper c (Node.mem_preorder_of_child hc)⟩

/-- Runs of children go from edge to edge. -/
theorem Runs.isEdge {low : Nat} {edits : List Edit} (hn : n.SpansNested)
    (h : Runs n.children low edits) : ∀ e ∈ edits, n.IsEdge e.start ∧ n.IsEdge e.stop := by
  have hedge : ∀ {p : Nat}, (∃ c ∈ n.children, p = c.start ∨ p = c.stop) → n.IsEdge p := by
    rintro p ⟨c, hc, rfl | rfl⟩
    · exact (Node.isEdge_child hn hc).1
    · exact (Node.isEdge_child hn hc).2
  exact fun e he => ⟨hedge (h.start_eq e he), hedge (h.stop_eq e he)⟩

end Refactoring

end ScriptRefactor
