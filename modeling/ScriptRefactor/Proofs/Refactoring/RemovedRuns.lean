import ScriptRefactor.Proofs.Refactoring.RemovedNames

/-!
# `ScriptRefactor.Proofs.Refactoring.RemovedRuns`: what dropped entries leave of their list

`removeRuns` drops the marked entries of a list run by run. A marked list is a
list of entries that stay and of runs, each up to the next entry that stays or
to the end; `runsRec` is the induction on that, and there is one equation for
each case (`removeRuns_inner`, `removeRuns_last`).

* `removeRuns_split`: an entry that stays parts the edits, because the passes
  over both sides do not know of each other but for that entry. The edits in
  front end where it starts at the latest (`stop_le_of_mem_removeRuns`), and
  those behind start where it ends at the earliest
  (`le_start_of_mem_removeRuns`).
* `exists_covering`: a marked entry lies in an edit, unless its run reaches from
  the start of the list to the end.
* `removeRuns_leaves_gaps` puts this together: the edits are clear of each
  other and of the entries that stay, and between two of those in a row they
  leave the gap behind the first one.
-/

set_option autoImplicit false

namespace ScriptRefactor.Refactoring

open Syntax

variable {before? : Option Node} {before item next n : Node} {l : List (Node × Bool)} {e : Edit}

/-! ### Runs -/

/-- Entries that are dropped. -/
def marked (items : List Node) : List (Node × Bool) := items.map fun n => (n, true)

/-- A marked list by its entries that stay and its runs. A run ends in front
of an entry that stays, or at the end of the list. -/
theorem runsRec {P : List (Node × Bool) → Prop} (nil : P [])
    (kept : ∀ n rest, P rest → P ((n, false) :: rest))
    (inner : ∀ first gone next rest, P rest →
      P ((first, true) :: (marked gone ++ (next, false) :: rest)))
    (last : ∀ first gone, P ((first, true) :: marked gone)) (l : List (Node × Bool)) : P l := by
  -- The claim is strengthened by a run that was started in front of the list.
  have hall : P l ∧ ∀ first gone, P ((first, true) :: (marked gone ++ l)) := by
    induction l with
    | nil => exact ⟨nil, fun first gone => by rw [List.append_nil]; exact last first gone⟩
    | cons m l ih =>
        obtain ⟨hl, hrun⟩ := ih
        obtain ⟨n, mark⟩ := m
        cases mark with
        | false => exact ⟨kept n l hl, fun first gone => inner first gone n l hl⟩
        | true =>
            refine ⟨hrun n [], fun first gone => ?_⟩
            have hmore := hrun first (gone ++ [n])
            rwa [marked, List.map_append, List.append_assoc] at hmore
  exact hall.1

/-- A run goes on over marked entries. -/
theorem removeRun_marked (before? : Option Node) (first last : Node) (gone : List Node)
    (rest : List (Node × Bool)) :
    removeRuns.removeRun before? first last (marked gone ++ rest)
      = removeRuns.removeRun before? first (gone.getLast?.getD last) rest := by
  induction gone generalizing last with
  | nil => rfl
  | cons n gone ih =>
      rw [List.getLast?_cons]
      exact ih n

/-- A run in front of an entry that stays goes up to it. -/
theorem removeRuns_inner (before? : Option Node) (first next : Node) (gone : List Node)
    (rest : List (Node × Bool)) :
    removeRuns before? ((first, true) :: (marked gone ++ (next, false) :: rest))
      = .delete first.start next.start :: removeRuns (some next) rest := by
  rw [removeRuns, removeRun_marked]
  rfl

/-- A run at the end goes from the end of the entry in front of it. -/
theorem removeRuns_last (before? : Option Node) (first : Node) (gone : List Node) :
    removeRuns before? ((first, true) :: marked gone)
      = (before?.map fun before =>
        Edit.delete before.stop (gone.getLast?.getD first).stop).toList := by
  rw [removeRuns]
  exact removeRun_all before? first first gone

/-! ### What is dropped -/

/-- Nothing comes in. -/
theorem replacement_of_mem_removeRuns (he : e ∈ removeRuns before? l) : e.replacement = "" := by
  induction l using runsRec generalizing before? with
  | nil => cases he
  | kept n rest ih => exact ih he
  | inner first gone next rest ih =>
      rw [removeRuns_inner] at he
      rcases List.mem_cons.mp he with rfl | he
      · rfl
      · exact ih he
  | last first gone =>
      rw [removeRuns_last, Option.mem_toList] at he
      obtain ⟨before, -, rfl⟩ := Option.map_eq_some_iff.mp he
      rfl

/-- An entry that stays parts the edits. -/
theorem removeRuns_split (before? : Option Node) (front back : List (Node × Bool)) (item : Node) :
    removeRuns before? (front ++ (item, false) :: back)
      = removeRuns before? (front ++ [(item, false)]) ++ removeRuns (some item) back := by
  induction front using runsRec generalizing before? with
  | nil => rfl
  | kept n rest ih => exact ih (some n)
  | inner first gone next rest ih =>
      simp only [List.cons_append, List.append_assoc, removeRuns_inner, ih]
  | last first gone => simp only [List.cons_append, removeRuns_inner, removeRuns, List.nil_append]

/-- Entries in text order, none in another one. -/
structure InTextOrder (l : List (Node × Bool)) : Prop where
  /-- No entry stops before it starts. -/
  proper : ∀ m ∈ l, m.1.start ≤ m.1.stop
  /-- Each stops before those behind it start. -/
  apart : l.Pairwise fun a b => a.1.stop ≤ b.1.start

instance (l : List (Node × Bool)) : Decidable (InTextOrder l) :=
  decidable_of_iff ((∀ m ∈ l, m.1.start ≤ m.1.stop) ∧ l.Pairwise fun a b => a.1.stop ≤ b.1.start)
    ⟨fun ⟨h1, h2⟩ => ⟨h1, h2⟩, fun h => ⟨h.proper, h.apart⟩⟩

/-- The two parts of a list in order. -/
theorem InTextOrder.of_append {front back : List (Node × Bool)} (h : InTextOrder (front ++ back)) :
    InTextOrder front ∧ InTextOrder back ∧ ∀ a ∈ front, ∀ b ∈ back, a.1.stop ≤ b.1.start := by
  obtain ⟨hfront, hback, hgap⟩ := List.pairwise_append.mp h.apart
  exact ⟨⟨fun m hm => h.proper m (List.mem_append_left _ hm), hfront⟩,
    ⟨fun m hm => h.proper m (List.mem_append_right _ hm), hback⟩, hgap⟩

/-- The first entry of a list in order, and the others. -/
theorem InTextOrder.of_cons {m : Node × Bool} (h : InTextOrder (m :: l)) :
    m.1.start ≤ m.1.stop ∧ InTextOrder l ∧ ∀ b ∈ l, m.1.stop ≤ b.1.start := by
  obtain ⟨hm, hl⟩ := List.pairwise_cons.mp h.apart
  exact ⟨h.proper m (List.mem_cons_self ..),
    ⟨fun b hb => h.proper b (List.mem_cons_of_mem m hb), hl⟩, hm⟩

/-- The entries of a run lie between the start of the first and the end of
the last one. -/
theorem InTextOrder.inside_run {first : Node} {gone : List Node}
    (h : InTextOrder ((first, true) :: marked gone)) (hn : n ∈ first :: gone) :
    first.start ≤ n.start ∧ n.stop ≤ (gone.getLast?.getD first).stop := by
  obtain ⟨hfirst, hgone, hbehind⟩ := h.of_cons
  have hmark : ∀ m ∈ gone, (m, true) ∈ marked gone := fun m hm => List.mem_map_of_mem hm
  constructor
  · rcases List.mem_cons.mp hn with rfl | hn
    · exact Nat.le_refl _
    · exact Nat.le_trans hfirst (hbehind _ (hmark n hn))
  · rcases List.eq_nil_or_concat' gone with rfl | ⟨init, last, rfl⟩
    · rw [List.mem_singleton.mp hn]
      exact Nat.le_refl _
    · rw [List.getLast?_concat, Option.getD_some]
      have hlast := hgone.proper (last, true) (hmark last (by simp))
      rw [← List.cons_append] at hn
      rcases List.mem_append.mp hn with hn | hn
      · -- The last one starts behind all others.
        have hsplit : InTextOrder (marked (first :: init) ++ [(last, true)]) := by
          rwa [marked, List.map_append] at h
        exact Nat.le_trans (hsplit.of_append.2.2 (n, true) (List.mem_map_of_mem hn) (last, true)
          (List.mem_singleton_self _)) hlast
      · rw [List.mem_singleton.mp hn]

/-- Behind an entry that stays, nothing is dropped before its end. -/
theorem le_start_of_mem_removeRuns (hbefore : ∀ m ∈ l, before.stop ≤ m.1.start)
    (horder : InTextOrder l) (he : e ∈ removeRuns (some before) l) : before.stop ≤ e.start := by
  induction l using runsRec generalizing before with
  | nil => cases he
  | kept n rest ih =>
      obtain ⟨hsize, horder, hnext⟩ := horder.of_cons
      have hn := hbefore (n, false) (List.mem_cons_self ..)
      exact Nat.le_trans hn (Nat.le_trans hsize (ih hnext horder he))
  | inner first gone next rest ih =>
      rw [removeRuns_inner] at he
      rcases List.mem_cons.mp he with rfl | he
      · exact hbefore (first, true) (List.mem_cons_self ..)
      · -- The entry behind the run takes the place of the one in front of it.
        obtain ⟨hsize, horder, hnext⟩ := horder.of_cons.2.1.of_append.2.1.of_cons
        have hn := hbefore (next, false) (by simp)
        exact Nat.le_trans hn (Nat.le_trans hsize (ih hnext horder he))
  | last first gone =>
      rw [removeRuns_last] at he
      obtain rfl := List.mem_singleton.mp he
      exact Nat.le_refl _

/-- In front of an entry that stays, nothing is dropped behind its start. -/
theorem stop_le_of_mem_removeRuns {front : List (Node × Bool)}
    (hbehind : ∀ m ∈ front, m.1.stop ≤ item.start) (hproper : ∀ m ∈ front, m.1.start ≤ m.1.stop)
    (he : e ∈ removeRuns before? (front ++ [(item, false)])) : e.stop ≤ item.start := by
  induction front using runsRec generalizing before? with
  | nil => cases he
  | kept n rest ih =>
      exact ih (fun m hm => hbehind m (List.mem_cons_of_mem _ hm))
        (fun m hm => hproper m (List.mem_cons_of_mem _ hm)) he
  | inner first gone next rest ih =>
      rw [List.cons_append, List.append_assoc, List.cons_append, removeRuns_inner] at he
      rcases List.mem_cons.mp he with rfl | he
      · exact Nat.le_trans (hproper (next, false) (by simp)) (hbehind (next, false) (by simp))
      · exact ih (fun m hm => hbehind m (by simp [hm])) (fun m hm => hproper m (by simp [hm])) he
  | last first gone =>
      rw [List.cons_append, removeRuns_inner] at he
      obtain rfl := List.mem_singleton.mp he
      exact Nat.le_refl _

/-- A marked entry lies in an edit if some entry stays, in the list or in
front of it. -/
theorem exists_covering (hn : (n, true) ∈ l)
    (hstays : before?.isSome = true ∨ ∃ m ∈ l, m.2 = false)
    (hbefore : ∀ before ∈ before?, ∀ m ∈ l, before.stop ≤ m.1.start) (horder : InTextOrder l) :
    ∃ e ∈ removeRuns before? l, e.start ≤ n.start ∧ n.stop ≤ e.stop := by
  induction l using runsRec generalizing before? with
  | nil => cases hn
  | kept m rest ih =>
      obtain ⟨-, horder, hnext⟩ := horder.of_cons
      have hrest : (n, true) ∈ rest := by simpa using hn
      refine ih hrest (.inl rfl) (fun before hb => ?_) horder
      obtain rfl := Option.some.inj hb
      exact hnext
  | inner first gone next rest ih =>
      rw [removeRuns_inner]
      have hsplit : InTextOrder (marked (first :: gone) ++ (next, false) :: rest) := horder
      obtain ⟨hrun, hbehind, hgap⟩ := hsplit.of_append
      have hmem : n ∈ first :: gone ∨ (n, true) ∈ rest := by
        simpa [marked, or_assoc] using hn
      -- The entry is in the run that goes first, or in what follows the entry behind the run.
      rcases hmem with hmem | hmem
      · have hmark : (n, true) ∈ marked (first :: gone) := List.mem_map_of_mem hmem
        exact ⟨_, List.mem_cons_self .., (InTextOrder.inside_run hrun hmem).1,
          hgap (n, true) hmark (next, false) (List.mem_cons_self ..)⟩
      · obtain ⟨-, hrest, hnext⟩ := hbehind.of_cons
        have hbefore : ∀ before ∈ some next, ∀ m ∈ rest, before.stop ≤ m.1.start :=
          fun before hb => Option.some.inj hb ▸ hnext
        obtain ⟨e, he, hcovers⟩ := ih hmem (.inl rfl) hbefore hrest
        exact ⟨e, List.mem_cons_of_mem _ he, hcovers⟩
  | last first gone =>
      have hmem : n ∈ first :: gone := by simpa [marked] using hn
      have hsome : before?.isSome = true := hstays.resolve_right (by simp [marked])
      obtain ⟨before, rfl⟩ := Option.isSome_iff_exists.mp hsome
      obtain ⟨hstart, hstop⟩ := horder.inside_run hmem
      rw [removeRuns_last]
      have hfirst := hbefore before rfl (first, true) (List.mem_cons_self ..)
      exact ⟨_, List.mem_singleton_self _, Nat.le_trans hfirst hstart, hstop⟩

/-! ### What is left -/

/-- The byte at a position is dropped. -/
def Drops (edits : List Edit) (p : Nat) : Prop := ∃ e ∈ edits, e.start ≤ p ∧ p < e.stop

instance (edits : List Edit) (p : Nat) : Decidable (Drops edits p) :=
  inferInstanceAs (Decidable (∃ e ∈ edits, e.start ≤ p ∧ p < e.stop))

/-- An entry that stays is not touched. -/
theorem clear_of_kept (horder : InTextOrder l) (hn : (n, false) ∈ l)
    (he : e ∈ removeRuns none l) : e.stop ≤ n.start ∨ n.stop ≤ e.start := by
  obtain ⟨front, back, rfl⟩ := List.append_of_mem hn
  obtain ⟨hfront, hback, hgap⟩ := horder.of_append
  obtain ⟨-, hback, hnext⟩ := hback.of_cons
  rw [removeRuns_split] at he
  rcases List.mem_append.mp he with he | he
  · exact .inl (stop_le_of_mem_removeRuns
      (fun m hm => hgap m hm (n, false) (List.mem_cons_self ..)) hfront.proper he)
  · exact .inr (le_start_of_mem_removeRuns hnext hback he)

/-- Edits go from the start of the first entry to the end of the last one at
most, and follow one another. -/
theorem removeRuns_chain (horder : InTextOrder l) :
    (∀ e ∈ removeRuns none l, e.start ≤ e.stop)
      ∧ (removeRuns none l).Pairwise (fun a b => a.stop ≤ b.start)
      ∧ (∀ first ∈ l.head?, ∀ e ∈ removeRuns none l, first.1.start ≤ e.start)
      ∧ ∀ last ∈ l.getLast?, ∀ e ∈ removeRuns none l, e.stop ≤ last.1.stop := by
  have hruns : ∀ low, (∀ m ∈ l, low ≤ m.1.start) →
      Runs (l.map Prod.fst) low (removeRuns none l) := fun low hlow =>
    removeRuns_runs none low l ⟨List.pairwise_map.mpr horder.apart, fun n hn => by
      obtain ⟨m, hm, rfl⟩ := List.mem_map.mp hn
      exact ⟨hn, hlow m hm, horder.proper m hm⟩⟩
  have hall := hruns 0 fun _ _ => Nat.zero_le _
  refine ⟨hall.proper, hall.clear, fun first hfirst => ?_, fun last hlast e he => ?_⟩
  · obtain ⟨rest, rfl⟩ := List.head?_eq_some_iff.mp hfirst
    obtain ⟨hsize, -, hnext⟩ := horder.of_cons
    refine (hruns first.1.start fun m hm => ?_).low_le
    rcases List.mem_cons.mp hm with rfl | hm
    · exact Nat.le_refl _
    · exact Nat.le_trans hsize (hnext m hm)
  · -- An edit stops at an end of an entry, and none ends behind the last one.
    obtain ⟨n, hn, hstop⟩ := hall.stop_eq e he
    obtain ⟨m, hm, rfl⟩ := List.mem_map.mp hn
    obtain ⟨init, rfl⟩ := List.getLast?_eq_some_iff.mp hlast
    have hsize := horder.proper m hm
    have hlastSize := horder.proper last (by simp)
    have hle : m.1.stop ≤ last.1.stop := by
      rcases List.mem_append.mp hm with hm | hm
      · exact Nat.le_trans (horder.of_append.2.2 m hm last (List.mem_singleton_self _)) hlastSize
      · rw [List.mem_singleton.mp hm]
    omega

/-- Of the text between an entry that stays and the next one that does, the gap
behind the first one is left. -/
theorem gap_left {a b : Node} {front back : List (Node × Bool)} {gone : List Node} {p : Nat}
    (horder : InTextOrder (front ++ (a, false) :: (marked gone ++ (b, false) :: back)))
    (hlow : a.stop ≤ p) (hhigh : p < b.start) :
    Drops (removeRuns none (front ++ (a, false) :: (marked gone ++ (b, false) :: back))) p
      ↔ (gone.head?.getD b).start ≤ p := by
  obtain ⟨hfront, hback, hgap⟩ := horder.of_append
  obtain ⟨hsize, hback, -⟩ := hback.of_cons
  obtain ⟨hsize', hback, hnext⟩ := hback.of_append.2.1.of_cons
  -- The edits in front of `a` and those behind `b` do not reach the position.
  have hbefore : ∀ e ∈ removeRuns none (front ++ [(a, false)]), e.stop ≤ a.start := fun e he =>
    stop_le_of_mem_removeRuns (fun m hm => hgap m hm (a, false) (List.mem_cons_self ..))
      hfront.proper he
  have hbehind : ∀ e ∈ removeRuns (some b) back, b.stop ≤ e.start := fun e he =>
    le_start_of_mem_removeRuns hnext hback he
  have hsize : a.start ≤ a.stop := hsize
  have hsize' : b.start ≤ b.stop := hsize'
  rw [removeRuns_split]
  cases gone with
  | nil =>
      -- Nothing is dropped between them.
      have hnext : ¬ b.start ≤ p := by omega
      refine iff_of_false ?_ hnext
      rintro ⟨e, he, hstart, hstop⟩
      rcases List.mem_append.mp he with he | he
      · have := hbefore e he
        omega
      · have := hbehind e he
        omega
  | cons first gone =>
      have hrun : removeRuns (some a) (marked (first :: gone) ++ (b, false) :: back)
          = .delete first.start b.start :: removeRuns (some b) back :=
        removeRuns_inner (some a) first b gone back
      rw [hrun]
      constructor
      · rintro ⟨e, he, hstart, hstop⟩
        rcases List.mem_append.mp he with he | he
        · have := hbefore e he
          omega
        · rcases List.mem_cons.mp he with rfl | he
          · exact hstart
          · have := hbehind e he
            omega
      · intro hstart
        exact ⟨_, List.mem_append_right _ (List.mem_cons_self ..), hstart, hhigh⟩

/-- The edits that drop the marked entries of a list, if some entry stays. They
put nothing in, follow one another, and lie between the start of the first entry
and the end of the last one. A marked entry lies in one of them, and an entry
that stays is not touched by any. Of the text between an entry that stays and
the next one that does, one gap of the list is left, from the end of an entry to
the start of the one behind it. -/
theorem removeRuns_leaves_gaps (l : List (Node × Bool)) (horder : InTextOrder l)
    (hstays : ∃ m ∈ l, m.2 = false) :
    (∀ e ∈ removeRuns none l, e.replacement = "" ∧ e.start ≤ e.stop)
      ∧ (removeRuns none l).Pairwise (fun a b => a.stop ≤ b.start)
      ∧ (∀ first ∈ l.head?, ∀ last ∈ l.getLast?, ∀ e ∈ removeRuns none l,
        first.1.start ≤ e.start ∧ e.stop ≤ last.1.stop)
      ∧ (∀ n, (n, true) ∈ l → ∃ e ∈ removeRuns none l, e.start ≤ n.start ∧ n.stop ≤ e.stop)
      ∧ (∀ n, (n, false) ∈ l → ∀ e ∈ removeRuns none l, e.stop ≤ n.start ∨ n.stop ≤ e.start)
      ∧ ∀ front a gone b back, l = front ++ (a, false) :: (marked gone ++ (b, false) :: back) →
        ∃ c d, [c, d] <:+: a :: (gone ++ [b]) ∧ ∀ p, a.stop ≤ p → p < b.start →
          (¬ Drops (removeRuns none l) p ↔ c.stop ≤ p ∧ p < d.start) := by
  obtain ⟨hproper, hchain, hfirst, hlast⟩ := removeRuns_chain horder
  refine ⟨fun e he => ⟨replacement_of_mem_removeRuns he, hproper e he⟩, hchain,
    fun first hf last hl e he => ⟨hfirst first hf e he, hlast last hl e he⟩,
    fun n hn => exists_covering hn (.inr hstays) (by simp) horder,
    fun n hn e he => clear_of_kept horder hn he, ?_⟩
  rintro front a gone b back rfl
  have hneighbours : [a, gone.head?.getD b] <:+: a :: (gone ++ [b]) := by
    cases gone with
    | nil => exact List.infix_rfl
    | cons first gone => exact (List.prefix_append [a, first] (gone ++ [b])).isInfix
  refine ⟨a, gone.head?.getD b, hneighbours, fun p hlow hhigh => ?_⟩
  rw [gap_left horder hlow hhigh, Nat.not_le, and_iff_right hlow]

/-- Names in a list, three bytes from one to the next. -/
def namesFrom (pos : Nat) : List (String × Bool) → List (Node × Bool)
  | [] => []
  | (name, mark) :: rest =>
    (.leaf (.construct .identifier) pos name, mark) :: namesFrom (pos + 3) rest

/-- A list with a run at its start, one inside and one at its end. -/
def sevenNames : List (Node × Bool) :=
  namesFrom 0 [("a", true), ("b", false), ("c", true), ("d", true), ("e", false), ("f", false),
    ("g", true)]

/-- Each run goes with one separator, the one behind it or, at the end, the one
in front. -/
theorem removeRuns_leaves_gaps_three :
    removeRuns none sevenNames = [.delete 0 3, .delete 6 12, .delete 16 19]
      ∧ (∀ n, (n, false) ∈ sevenNames → ∀ e ∈ removeRuns none sevenNames,
        e.stop ≤ n.start ∨ n.stop ≤ e.start)
      ∧ (removeRuns none sevenNames).Pairwise fun a b => a.stop ≤ b.start := by
  obtain ⟨-, hchain, -, -, hclear, -⟩ :=
    removeRuns_leaves_gaps sevenNames (by decide +kernel) ⟨(.leaf (.construct .identifier) 3 "b",
      false), by simp [sevenNames, namesFrom], rfl⟩
  exact ⟨by decide +kernel, hclear, hchain⟩

end ScriptRefactor.Refactoring
