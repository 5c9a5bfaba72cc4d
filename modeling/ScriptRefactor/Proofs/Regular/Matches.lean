import Mathlib.Data.Finset.Card
import Mathlib.Logic.Relation
import ScriptRefactor.Regular.Basic

/-!
# `ScriptRefactor.Proofs.Regular.Matches`: what a regular expression matches

`Matches` gives the rules by which an expression matches a part of a row
of symbols; an anchor looks at what stands around the part. The
positions that `Regular.ends` computes are those where such a part ends
(`mem_ends_iff`), so that `Regular.found` tells whether there is one
(`found_iff`).

The induction is on the expression. A repetition is the one case with a
loop: `Regular.closure` adds what one more match reaches until nothing
is new. Nothing is missed at the end, since each round but the last
takes one more of the positions there are (`closure_closed`).
-/

set_option autoImplicit false

namespace ScriptRefactor.Regular

/-- The expression matches `part`, which stands between `before` and
`after`. -/
inductive Matches : Regular → List Nat → List Nat → List Nat → Prop where
  | nothing {before after : List Nat} : Matches .nothing before [] after
  | symbol {c : SymbolClass} {n : Nat} {before after : List Nat} (h : c.has n = true) :
      Matches (.symbol c) before [n] after
  | anchor {a : Anchor} {before after : List Nat}
      (h : holdsAt (before ++ after).toArray before.length a = true) :
      Matches (.anchor a) before [] after
  | seq {a b : Regular} {before p q after : List Nat} (ha : Matches a before p (q ++ after))
      (hb : Matches b (before ++ p) q after) : Matches (.seq a b) before (p ++ q) after
  | first {a b : Regular} {before part after : List Nat} (h : Matches a before part after) :
      Matches (.either a b) before part after
  | second {a b : Regular} {before part after : List Nat} (h : Matches b before part after) :
      Matches (.either a b) before part after
  | none {a : Regular} {before after : List Nat} : Matches (.many a) before [] after
  | more {a : Regular} {before p q after : List Nat} (ha : Matches a before p (q ++ after))
      (hmany : Matches (.many a) (before ++ p) q after) :
      Matches (.many a) before (p ++ q) after

/-- The expression matches from the position `i` up to `j`. -/
def Spans (symbols : Array Nat) (r : Regular) (i j : Nat) : Prop :=
  ∃ before part after, symbols.toList = before ++ part ++ after ∧ before.length = i ∧
    i + part.length = j ∧ r.Matches before part after

/-! ### What can be reached -/

section Closure

variable {next : List Nat → List Nat} {R : Nat → Nat → Prop} {n : Nat}

/-- What the closure finds was there before or can be reached. -/
theorem of_mem_closure
    (hnext : ∀ xs, (∀ x ∈ xs, x ≤ n) → ∀ y, y ∈ next xs ↔ ∃ x ∈ xs, R x y)
    (hbound : ∀ x y, x ≤ n → R x y → y ≤ n) (fuel : Nat) (seen fresh : List Nat)
    (hfresh : ∀ x ∈ fresh, x ≤ n) (y : Nat) (hy : y ∈ closure next fuel seen fresh) :
    y ∈ seen ∨ ∃ x ∈ fresh, Relation.ReflTransGen R x y := by
  induction fuel generalizing seen fresh with
  | zero =>
      rcases List.mem_append.mp hy with hy | hy
      · exact .inr ⟨y, hy, .refl⟩
      · exact .inl hy
  | succ fuel ih =>
      rw [closure] at hy
      split at hy
      · exact .inl hy
      · -- What is new is one match away.
        have hstep : ∀ x ∈ (next fresh).filter (!(fresh ++ seen).contains ·),
            ∃ z ∈ fresh, R z x := fun x hx => (hnext fresh hfresh x).mp (List.mem_filter.mp hx).1
        have hnew : ∀ x ∈ (next fresh).filter (!(fresh ++ seen).contains ·), x ≤ n := by
          intro x hx
          obtain ⟨z, hz, hR⟩ := hstep x hx
          exact hbound z x (hfresh z hz) hR
        rcases ih (fresh ++ seen) _ hnew hy with hy | ⟨x, hx, hreach⟩
        · rcases List.mem_append.mp hy with hy | hy
          · exact .inr ⟨y, hy, .refl⟩
          · exact .inl hy
        · obtain ⟨z, hz, hR⟩ := hstep x hx
          exact .inr ⟨z, hz, .head hR hreach⟩

/-- With nothing fresh, nothing is added. -/
theorem closure_nil (next : List Nat → List Nat) (fuel : Nat) (seen : List Nat) :
    closure next fuel seen [] = seen := by
  cases fuel <;> rfl

/-- The positions that were not reached yet. -/
def unseen (n : Nat) (seen : List Nat) : Finset Nat := Finset.range (n + 1) \ seen.toFinset

/-- A position is taken with each round. -/
theorem card_unseen_append_lt {seen fresh : List Nat} (hfresh : ∀ x ∈ fresh, x ≤ n)
    (hnew : ∀ x ∈ fresh, x ∉ seen) (hne : fresh ≠ []) :
    (unseen n (fresh ++ seen)).card < (unseen n seen).card := by
  obtain ⟨x, hx⟩ := List.exists_mem_of_ne_nil fresh hne
  refine Finset.card_lt_card (Finset.ssubset_iff_of_subset (fun y hy => ?_) |>.mpr ⟨x, ?_, ?_⟩)
  · simp only [unseen, Finset.mem_sdiff, Finset.mem_range, List.mem_toFinset, List.mem_append,
      not_or] at hy ⊢
    exact ⟨hy.1, hy.2.2⟩
  · have hle := hfresh x hx
    simp only [unseen, Finset.mem_sdiff, Finset.mem_range, List.mem_toFinset]
    exact ⟨by omega, hnew x hx⟩
  · simp [unseen, hx]

/-- The closure holds what it starts from and all that one more match
reaches. `seen` is complete but for `fresh`, and this stays so. -/
theorem closure_closed
    (hnext : ∀ xs, (∀ x ∈ xs, x ≤ n) → ∀ y, y ∈ next xs ↔ ∃ x ∈ xs, R x y)
    (hbound : ∀ x y, x ≤ n → R x y → y ≤ n) (fuel : Nat) (seen fresh : List Nat)
    (hfresh : ∀ x ∈ fresh, x ≤ n) (hnew : ∀ x ∈ fresh, x ∉ seen)
    (hseen : ∀ x ∈ seen, ∀ y, R x y → y ∈ seen ∨ y ∈ fresh)
    (hfuel : (unseen n seen).card ≤ fuel) :
    (∀ x, x ∈ seen ∨ x ∈ fresh → x ∈ closure next fuel seen fresh) ∧
      ∀ x ∈ closure next fuel seen fresh, ∀ y, R x y → y ∈ closure next fuel seen fresh := by
  induction fuel generalizing seen fresh with
  | zero =>
      obtain rfl : fresh = [] := by
        by_contra hne
        have hlt := card_unseen_append_lt hfresh hnew hne
        omega
      exact ⟨by simp [closure_nil], by simpa [closure_nil] using hseen⟩
  | succ fuel ih =>
      by_cases hnil : fresh = []
      · subst hnil
        exact ⟨by simp [closure_nil], by simpa [closure_nil] using hseen⟩
      · have hlt := card_unseen_append_lt hfresh hnew hnil
        have hrest := ih (fresh ++ seen) ((next fresh).filter (!(fresh ++ seen).contains ·))
          (fun x hx => by
            obtain ⟨z, hz, hR⟩ := (hnext fresh hfresh x).mp (List.mem_filter.mp hx).1
            exact hbound z x (hfresh z hz) hR)
          (fun x hx => by simpa using (List.mem_filter.mp hx).2)
          (fun x hx y hR => by
            by_cases hy : y ∈ fresh ++ seen
            · exact .inl hy
            · rcases List.mem_append.mp hx with hx | hx
              · -- From a fresh position, `next` finds it.
                have hstep := (hnext fresh hfresh y).mpr ⟨x, hx, hR⟩
                exact .inr (List.mem_filter.mpr ⟨hstep, by simpa using hy⟩)
              · exact absurd (List.mem_append.mpr (hseen x hx y hR).symm) hy)
          (by omega)
        rw [closure, if_neg (by simpa using hnil)]
        exact ⟨fun x hx => hrest.1 x (.inl (List.mem_append.mpr hx.symm)), hrest.2⟩

/-- The closure of some positions holds what can be reached from
them. -/
theorem mem_closure_iff
    (hnext : ∀ xs, (∀ x ∈ xs, x ≤ n) → ∀ y, y ∈ next xs ↔ ∃ x ∈ xs, R x y)
    (hbound : ∀ x y, x ≤ n → R x y → y ≤ n) {starts : List Nat} (hstarts : ∀ x ∈ starts, x ≤ n)
    (y : Nat) :
    y ∈ closure next (n + 1) [] starts ↔ ∃ x ∈ starts, Relation.ReflTransGen R x y := by
  have hfuel : (unseen n []).card ≤ n + 1 := by simp [unseen]
  obtain ⟨hstart, hclosed⟩ := closure_closed hnext hbound (n + 1) [] starts hstarts (by simp)
    (by simp) hfuel
  constructor
  · intro hy
    exact (of_mem_closure hnext hbound (n + 1) [] starts hstarts y hy).resolve_left (by simp)
  · rintro ⟨x, hx, hreach⟩
    induction hreach with
    | refl => exact hstart x (.inr hx)
    | tail _ hR ih => exact hclosed _ ih _ hR

end Closure

/-! ### Matches from position to position -/

variable {symbols : Array Nat} {r a b : Regular} {i j : Nat}

/-- A match lies within the row. -/
theorem Spans.le (h : Spans symbols r i j) : i ≤ j ∧ j ≤ symbols.size := by
  obtain ⟨before, part, after, hsymbols, hi, hj, -⟩ := h
  have hsize := congrArg List.length hsymbols
  simp only [Array.length_toList, List.length_append] at hsize
  omega

/-- Where a match begins at the end of another one, both stand in one cut of
the row. -/
theorem Spans.exists_cut {k : Nat} (ha : Spans symbols a i k) (hb : Spans symbols b k j) :
    ∃ before p q after, symbols.toList = before ++ (p ++ q) ++ after ∧ before.length = i ∧
      i + (p ++ q).length = j ∧ a.Matches before p (q ++ after) ∧
      b.Matches (before ++ p) q after := by
  obtain ⟨before, p, others, hsymbols, hi, hk, ha⟩ := ha
  obtain ⟨front, q, after, hsame, hfront, hj, hb⟩ := hb
  rw [hsymbols, List.append_assoc front] at hsame
  obtain ⟨rfl, rfl⟩ := List.append_inj hsame (by simp [hi, hk, hfront])
  refine ⟨before, p, q, after, by simp [hsymbols], hi, ?_, ha, hb⟩
  rw [List.length_append]
  omega

/-- Two matches of which the second one begins where the first one
ends. -/
theorem spans_seq_iff :
    Spans symbols (.seq a b) i j ↔ ∃ k, Spans symbols a i k ∧ Spans symbols b k j := by
  constructor
  · rintro ⟨before, part, after, hsymbols, hi, hj, hmatch⟩
    cases hmatch with
    | @seq _ _ _ p q _ ha hb =>
        rw [List.length_append] at hj
        exact ⟨i + p.length, ⟨before, p, q ++ after, by simp [hsymbols], hi, rfl, ha⟩,
          ⟨before ++ p, q, after, by simp [hsymbols], by simp [hi], by omega, hb⟩⟩
  · rintro ⟨k, ha, hb⟩
    obtain ⟨before, p, q, after, hsymbols, hi, hj, ha, hb⟩ := ha.exists_cut hb
    exact ⟨before, p ++ q, after, hsymbols, hi, hj, .seq ha hb⟩

/-- A match of either expression. -/
theorem spans_either_iff :
    Spans symbols (.either a b) i j ↔ Spans symbols a i j ∨ Spans symbols b i j := by
  constructor
  · rintro ⟨before, part, after, hsymbols, hi, hj, hmatch⟩
    cases hmatch with
    | first h => exact .inl ⟨before, part, after, hsymbols, hi, hj, h⟩
    | second h => exact .inr ⟨before, part, after, hsymbols, hi, hj, h⟩
  · rintro (⟨before, part, after, hsymbols, hi, hj, h⟩ | ⟨before, part, after, hsymbols, hi, hj, h⟩)
    · exact ⟨before, part, after, hsymbols, hi, hj, .first h⟩
    · exact ⟨before, part, after, hsymbols, hi, hj, .second h⟩

/-- An empty match, at a position of the row. -/
theorem spans_nothing_iff : Spans symbols .nothing i j ↔ i = j ∧ i ≤ symbols.size := by
  constructor
  · intro h
    have hle := h.le
    obtain ⟨before, part, after, -, -, hj, hmatch⟩ := h
    cases hmatch
    exact ⟨hj, by simp at hj; omega⟩
  · rintro ⟨rfl, hi⟩
    exact ⟨symbols.toList.take i, [], symbols.toList.drop i, by simp, by simpa using hi, rfl,
      .nothing⟩

/-- One symbol of a set. -/
theorem spans_symbol_iff {c : SymbolClass} :
    Spans symbols (.symbol c) i j ↔ ∃ n, symbols[i]? = some n ∧ c.has n = true ∧ i + 1 = j := by
  constructor
  · rintro ⟨before, part, after, hsymbols, rfl, hj, hmatch⟩
    cases hmatch with
    | @symbol _ n _ _ h =>
        refine ⟨n, ?_, h, hj⟩
        rw [← Array.getElem?_toList, hsymbols]
        simp
  · rintro ⟨n, hn, hc, rfl⟩
    rw [← Array.getElem?_toList] at hn
    obtain ⟨hi, rfl⟩ := List.getElem?_eq_some_iff.mp hn
    refine ⟨symbols.toList.take i, [symbols.toList[i]], symbols.toList.drop (i + 1), ?_, ?_, rfl,
      .symbol hc⟩
    · rw [List.append_assoc, List.singleton_append, List.cons_getElem_drop_succ,
        List.take_append_drop]
    · rw [List.length_take]
      omega

/-- An anchor, at a position of the row. -/
theorem spans_anchor_iff {x : Anchor} :
    Spans symbols (.anchor x) i j ↔ i = j ∧ i ≤ symbols.size ∧ holdsAt symbols i x = true := by
  constructor
  · intro h
    have hle := h.le
    obtain ⟨before, part, after, hsymbols, rfl, hj, hmatch⟩ := h
    cases hmatch with
    | anchor h =>
        have hrow : symbols = (before ++ after).toArray := by
          rw [← symbols.toArray_toList, hsymbols, List.append_nil]
        exact ⟨hj, by simp at hj; omega, by rw [hrow]; exact h⟩
  · rintro ⟨rfl, hi, hx⟩
    have hlength : (symbols.toList.take i).length = i := by simpa using hi
    refine ⟨symbols.toList.take i, [], symbols.toList.drop i, by simp, hlength, rfl, .anchor ?_⟩
    rw [List.take_append_drop, hlength, Array.toArray_toList]
    exact hx

/-- A repetition goes on from match to match. -/
theorem spans_many_iff :
    Spans symbols (.many a) i j ↔
      i ≤ symbols.size ∧ Relation.ReflTransGen (Spans symbols a) i j := by
  constructor
  · intro h
    have hle := h.le
    refine ⟨by omega, ?_⟩
    obtain ⟨before, part, after, hsymbols, rfl, rfl, hmatch⟩ := h
    -- The induction is on the rules, for this expression only.
    generalize hr : Regular.many a = r at hmatch
    induction hmatch with
    | none => exact .refl
    | @more a' before p q after ha hmany _ ih =>
        cases hr
        have hrow : symbols.toList = before ++ p ++ q ++ after := by simp [hsymbols]
        rw [List.length_append] at hle
        have hrest := ih hrow (by rw [List.length_append]; omega) rfl
        refine .head ⟨before, p, q ++ after, by simp [hrow], rfl, rfl, ha⟩ ?_
        simpa [Nat.add_assoc] using hrest
    | _ => cases hr
  · rintro ⟨hi, hreach⟩
    induction hreach using Relation.ReflTransGen.head_induction_on with
    | refl =>
        exact ⟨symbols.toList.take j, [], symbols.toList.drop j, by simp, by simpa using hi, rfl,
          .none⟩
    | @head i k hfirst _ ih =>
        obtain ⟨before, p, q, after, hsymbols, hi, hj, ha, hmany⟩ :=
          hfirst.exists_cut (ih hfirst.le.2)
        exact ⟨before, p ++ q, after, hsymbols, hi, hj, .more ha hmany⟩

/-! ### The positions where matches end -/

/-- The positions found are those where a match ends that begins at one
of the given positions. -/
theorem mem_ends_iff {starts : List Nat} (hstarts : ∀ i ∈ starts, i ≤ symbols.size) :
    j ∈ ends symbols r starts ↔ ∃ i ∈ starts, Spans symbols r i j := by
  induction r generalizing starts j with
  | nothing =>
      simp only [ends, spans_nothing_iff]
      exact ⟨fun hj => ⟨j, hj, rfl, hstarts j hj⟩, fun ⟨i, hi, hij, _⟩ => hij ▸ hi⟩
  | symbol c =>
      simp only [ends, List.mem_filterMap, spans_symbol_iff]
      refine exists_congr fun i => and_congr_right fun _ => ?_
      cases hn : symbols[i]? with
      | none => simp
      | some n => by_cases hc : c.has n = true <;> simp [hc]
  | anchor x =>
      simp only [ends, List.mem_filter, spans_anchor_iff]
      exact ⟨fun ⟨hj, hx⟩ => ⟨j, hj, rfl, hstarts j hj, hx⟩,
        fun ⟨i, hi, hij, _, hx⟩ => hij ▸ ⟨hi, hx⟩⟩
  | seq a b iha ihb =>
      -- What the first part ends at are positions of the text again.
      have hmiddle : ∀ k ∈ ends symbols a starts, k ≤ symbols.size := by
        intro k hk
        obtain ⟨i, -, hspan⟩ := (iha hstarts).mp hk
        exact hspan.le.2
      rw [ends, ihb hmiddle]
      simp only [iha hstarts, spans_seq_iff]
      exact ⟨fun ⟨k, ⟨i, hi, ha⟩, hb⟩ => ⟨i, hi, k, ha, hb⟩,
        fun ⟨i, hi, k, ha, hb⟩ => ⟨k, ⟨i, hi, ha⟩, hb⟩⟩
  | either a b iha ihb =>
      simp only [ends, List.mem_eraseDups, List.mem_append, iha hstarts, ihb hstarts,
        spans_either_iff]
      grind
  | many a iha =>
      -- The repetition closes the positions under one match more.
      rw [ends, List.mem_eraseDups, mem_closure_iff (R := Spans symbols a) (fun xs hxs y => iha hxs)
        (fun x y _ hspan => hspan.le.2) hstarts]
      simp only [spans_many_iff]
      exact exists_congr fun i => and_congr_right fun hi => (and_iff_right (hstarts i hi)).symm

/-- An expression is found exactly if some part of the row matches. -/
theorem found_iff : r.found symbols = true ↔
    ∃ before part after, symbols.toList = before ++ part ++ after ∧
      r.Matches before part after := by
  have hstarts : ∀ i ∈ List.range (symbols.size + 1), i ≤ symbols.size := fun i hi =>
    Nat.le_of_lt_succ (List.mem_range.mp hi)
  rw [found, Bool.not_eq_true', List.isEmpty_eq_false_iff_exists_mem]
  simp only [mem_ends_iff hstarts]
  constructor
  · rintro ⟨j, i, -, before, part, after, hsymbols, -, -, hmatch⟩
    exact ⟨before, part, after, hsymbols, hmatch⟩
  · rintro ⟨before, part, after, hsymbols, hmatch⟩
    have hspan : Spans symbols r before.length (before.length + part.length) :=
      ⟨before, part, after, hsymbols, rfl, rfl, hmatch⟩
    have hle := hspan.le
    exact ⟨_, before.length, by simp; omega, hspan⟩

/-! ### Expressions for characters -/

section Characters

variable {before after : List Nat} {cs : List Char}

/-- A sequence matches what its first expression and the others match
one after the other. -/
theorem matches_sequence_cons_iff {rs : List Regular} :
    (sequence (r :: rs)).Matches before (cs.map Char.toNat) after ↔
      ∃ ds es, cs = ds ++ es ∧ r.Matches before (ds.map Char.toNat) (es.map Char.toNat ++ after) ∧
        (sequence rs).Matches (before ++ ds.map Char.toNat) (es.map Char.toNat) after := by
  cases rs with
  | nil =>
      constructor
      · intro h
        exact ⟨cs, [], by simp, h, .nothing⟩
      · -- Nothing is left for the empty sequence, so the first expression matches all.
        rintro ⟨ds, es, rfl, hfirst, hrest⟩
        have hes : es = [] := by
          generalize hpart : es.map Char.toNat = part at hrest
          cases hrest
          simpa using hpart
        subst hes
        simpa [sequence] using hfirst
  | cons r' rs =>
      constructor
      · intro h
        generalize hpart : cs.map Char.toNat = part at h
        cases h with
        | seq hfirst hrest =>
            obtain ⟨ds, es, rfl, rfl, rfl⟩ := List.map_eq_append_iff.mp hpart
            exact ⟨ds, es, rfl, hfirst, hrest⟩
      · rintro ⟨ds, es, rfl, hfirst, hrest⟩
        rw [List.map_append]
        exact .seq hfirst hrest

/-- An empty sequence matches nothing. -/
theorem matches_sequence_nil_iff :
    (sequence []).Matches before (cs.map Char.toNat) after ↔ cs = [] := by
  constructor
  · intro h
    generalize hpart : cs.map Char.toNat = part at h
    cases h
    simpa using hpart
  · rintro rfl
    exact .nothing

/-- A set matches one character. -/
theorem matches_symbol_iff {c : SymbolClass} :
    (symbol c).Matches before (cs.map Char.toNat) after ↔ ∃ x, cs = [x] ∧ c.has x.toNat = true := by
  constructor
  · intro h
    generalize hpart : cs.map Char.toNat = part at h
    cases h with
    | symbol hc =>
        obtain ⟨x, xs, rfl, rfl, hxs⟩ := List.map_eq_cons_iff.mp hpart
        exact ⟨x, by simpa using hxs, hc⟩
  · rintro ⟨x, rfl, hc⟩
    exact .symbol hc

/-- The set of one symbol holds this one. -/
theorem has_one_iff {m n : Nat} : (SymbolClass.one n).has m = true ↔ m = n := by
  simp only [SymbolClass.has, SymbolClass.one, SymbolClass.inRanges, List.any_cons, List.any_nil,
    Bool.or_false, bne_iff_ne, ne_eq, Bool.not_eq_false, Bool.and_eq_true, decide_eq_true_eq]
  omega

/-- A text matches itself. -/
theorem matches_text_iff {s : String} :
    (text s).Matches before (cs.map Char.toNat) after ↔ cs = s.toList := by
  rw [text]
  induction s.toList generalizing before cs with
  | nil => exact matches_sequence_nil_iff
  | cons d ds ih =>
      simp only [List.map_cons, matches_sequence_cons_iff, matches_symbol_iff, has_one_iff,
        Char.toNat_inj, ih]
      constructor
      · rintro ⟨_, _, rfl, ⟨x, rfl, rfl⟩, rfl⟩
        rfl
      · rintro rfl
        exact ⟨[d], ds, rfl, ⟨d, rfl, rfl⟩, rfl⟩

/-- A repeated set matches symbols of the set. -/
theorem matches_many_symbol_iff {c : SymbolClass} :
    (many (symbol c)).Matches before (cs.map Char.toNat) after ↔
      ∀ x ∈ cs, c.has x.toNat = true := by
  rw [← List.forall_mem_map (P := fun n => c.has n = true)]
  generalize cs.map Char.toNat = part
  constructor
  · intro h
    generalize hr : many (symbol c) = r at h
    induction h with
    | none => exact fun n hn => absurd hn List.not_mem_nil
    | more ha _ _ ih =>
        cases hr
        cases ha with
        | symbol hc => exact List.forall_mem_cons.mpr ⟨hc, ih rfl⟩
    | _ => cases hr
  · intro h
    induction part generalizing before with
    | nil => exact .none
    | cons n part ih =>
        obtain ⟨hn, hpart⟩ := List.forall_mem_cons.mp h
        exact .more (p := [n]) (.symbol hn) (ih hpart)

/-- An expression is found in a text exactly if it matches a part of
it. -/
theorem found_symbolsOf_iff {s : String} : r.found (symbolsOf s) = true ↔
    ∃ front part back, s.toList = front ++ part ++ back ∧
      r.Matches (front.map Char.toNat) (part.map Char.toNat) (back.map Char.toNat) := by
  rw [found_iff, symbolsOf]
  constructor
  · rintro ⟨before, part, after, hsymbols, hmatch⟩
    obtain ⟨others, back, hs, hothers, rfl⟩ := List.map_eq_append_iff.mp hsymbols
    obtain ⟨front, part, rfl, rfl, rfl⟩ := List.map_eq_append_iff.mp hothers
    exact ⟨front, part, back, hs, hmatch⟩
  · rintro ⟨front, part, back, hs, hmatch⟩
    exact ⟨_, _, _, by simp [hs], hmatch⟩

end Characters

end ScriptRefactor.Regular
