import ScriptRefactor.Proofs.Scope.Bindings
import ScriptRefactor.Proofs.Syntax.Spans
import ScriptRefactor.Syntax.Tree

/-!
# `ScriptRefactor.Proofs.Scope.Nesting`: the scopes of a module stand inside one another

The scopes of a tree whose nodes lie within their parents, and whose
names hold their texts, are sound (`ofTree_sound`): the module is the
one outermost scope, every other scope lies within one that was opened
before it, every name lies within the scope it is looked up from, and
what is declared with `var` is declared by a function or the module.
So a search goes outward to smaller and smaller numbers, and finds what
the first scope on its way that declares the name declares
(`Nested.lookup?_eq`). What a scope declares is what the walk declares
in it, wherever in the text that is (`binding?_marked`).

* `Admits` says when the scopes admit a mark: what is opened or
  declared in a scope lies within it. A scope keeps its place, so marks
  that are all admitted at first are admitted one after the other
  (`allAdmitted_of_forall`).
* `Nested` is kept by every admitted mark (`Nested.mark`), and lets the
  search for the nearest function end in one (`Nested.exists_hoist`).
* The marks of a node are admitted in a scope that it lies within
  (`allAdmitted_marks`), and so are those of all that is walked below
  it (`allAdmitted_walkMarks`).
-/

set_option autoImplicit false

namespace ScriptRefactor

open Syntax

namespace Syntax.Span

variable {a b c : Span}

/-- One span lies within another if its ends do. -/
theorem contains_iff : a.contains b = true ↔ a.start ≤ b.start ∧ b.stop ≤ a.stop := by
  simp [contains]

/-- A span lies within itself. -/
theorem contains_self (a : Span) : a.contains a = true :=
  contains_iff.mpr ⟨Nat.le_refl _, Nat.le_refl _⟩

/-- What lies within a part lies within the whole. -/
theorem contains_trans (hab : a.contains b = true) (hbc : b.contains c = true) :
    a.contains c = true := by
  rw [contains_iff] at *
  omega

end Syntax.Span

/-- A node lies within every node above it. -/
theorem Syntax.Node.SpansNested.contains {n m : Node} (hn : n.SpansNested) (hm : m ∈ n.preorder) :
    n.span.contains m.span = true := Span.contains_iff.mpr (hn.le_of_mem_preorder hm)

/-- What is declared with `var` goes to such a scope: one of a function
or of the module. -/
def ScopeKind.Hosts (k : ScopeKind) : Prop := k = .function ∨ k = .program

/-- The declaration that a mark makes under a name in the scope of that
number. -/
def Mark.declared? (x : String) (k : Nat) : Mark → Option Binding
  | .declared b k' => if k' = k ∧ b.name = x then some b else none
  | _ => none

namespace Scopes

variable {t t' t'' : Scopes} {m : Mark} {ms ms' : List Mark} {s : Scope} {b : Binding}
  {root n : Node} {ns : List Node} {i k scope fuel : Nat} {span span' : Span} {x : String}
  {path : List Nat}

/-! ### Scopes keep their place -/

/-- Each scope has its number, its parent, its kind and its span in the
other scopes, too. -/
def Keeps (t t' : Scopes) : Prop :=
  ∀ (k : Nat) (s : Scope), t.scopes[k]? = some s →
    ∃ s' : Scope, t'.scopes[k]? = some s' ∧ s'.parent? = s.parent? ∧ s'.kind = s.kind ∧ s'.span = s.span

/-- Nothing moves by itself. -/
theorem Keeps.refl (t : Scopes) : t.Keeps t := fun _ s hs => ⟨s, hs, rfl, rfl, rfl⟩

/-- What keeps its place twice keeps it. -/
theorem Keeps.trans (h : t.Keeps t') (h' : t'.Keeps t'') : t.Keeps t'' := by
  intro k s hs
  obtain ⟨s', hs', hparent, hkind, hspan⟩ := h k s hs
  obtain ⟨s'', hs'', hparent', hkind', hspan'⟩ := h' k s' hs'
  exact ⟨s'', hs'', hparent'.trans hparent, hkind'.trans hkind, hspan'.trans hspan⟩

/-- One more declaration leaves a scope where it is. -/
theorem add_frame (s : Scope) (b : Binding) :
    (s.add b).parent? = s.parent? ∧ (s.add b).kind = s.kind ∧ (s.add b).span = s.span := by
  unfold Scope.add
  split <;> exact ⟨rfl, rfl, rfl⟩

/-- A scope behind a mark was there before, or the mark opened it. -/
theorem getElem?_mark_cases (h : (t.mark m).scopes[k]? = some s) :
    (∃ s', t.scopes[k]? = some s' ∧ s'.parent? = s.parent? ∧ s'.kind = s.kind ∧ s'.span = s.span) ∨
      (k = t.scopes.length ∧ m = .opened s.parent? s.kind s.span) := by
  cases m with
  | opened parent? kind span =>
      -- Before the end of the list, at its end, or behind it.
      have h : (t.scopes ++ [⟨parent?, kind, span, []⟩])[k]? = some s := h
      rcases Nat.lt_trichotomy k t.scopes.length with hk | hk | hk
      · rw [List.getElem?_append_left hk] at h
        exact .inl ⟨s, h, rfl, rfl, rfl⟩
      · subst hk
        rw [List.getElem?_concat_length] at h
        obtain rfl := Option.some.inj h
        exact .inr ⟨rfl, rfl⟩
      · rw [List.getElem?_eq_none (by simpa using Nat.succ_le_of_lt hk)] at h
        cases h
  | declared b k' =>
      -- A declaration changes the bindings of one scope, not how it stands among the others.
      have h : (t.scopes.modify k' (·.add b))[k]? = some s := h
      rw [List.getElem?_modify] at h
      obtain ⟨s', hs', rfl⟩ := Option.map_eq_some_iff.mp h
      refine .inl ⟨s', hs', ?_⟩
      split
      · obtain ⟨hparent, hkind, hspan⟩ := add_frame s' b
        exact ⟨hparent.symm, hkind.symm, hspan.symm⟩
      · exact ⟨rfl, rfl, rfl⟩
  | placed node scope =>
      have hsame : (t.mark (.placed node scope)).scopes = t.scopes := by
        simp only [mark, place]
        split <;> rfl
      exact .inl ⟨s, hsame ▸ h, rfl, rfl, rfl⟩

/-- A mark takes no scope away. -/
theorem length_le_mark (t : Scopes) (m : Mark) : t.scopes.length ≤ (t.mark m).scopes.length := by
  cases m with
  | opened parent? kind span => simp [mark, openScope]
  | declared b k => simp [mark]
  | placed node scope =>
      simp only [mark, place]
      split <;> exact Nat.le_refl _

/-- A scope keeps its place when a mark is made. -/
theorem keeps_mark (t : Scopes) (m : Mark) : t.Keeps (t.mark m) := by
  intro k s hs
  have hk : k < t.scopes.length := (List.getElem?_eq_some_iff.mp hs).1
  have hs' := List.getElem?_eq_getElem (Nat.lt_of_lt_of_le hk (length_le_mark t m))
  refine ⟨_, hs', ?_⟩
  rcases getElem?_mark_cases hs' with ⟨s', hs'', hparent, hkind, hspan⟩ | ⟨hk', -⟩
  · obtain rfl := Option.some.inj (hs.symm.trans hs'')
    exact ⟨hparent.symm, hkind.symm, hspan.symm⟩
  · omega

/-- A scope keeps its place when marks are made. -/
theorem keeps_marked (t : Scopes) (ms : List Mark) : t.Keeps (t.marked ms) := by
  induction ms generalizing t with
  | nil => exact .refl t
  | cons m ms ih => exact (keeps_mark t m).trans (ih _)

/-- There is a scope of that number, and the span lies within it. -/
def Holds (t : Scopes) (k : Nat) (span : Span) : Prop :=
  ∃ s, t.scopes[k]? = some s ∧ s.span.contains span = true

/-- A scope holds what it held. -/
theorem Holds.of_keeps (h : t.Holds k span) (ht : t.Keeps t') : t'.Holds k span := by
  obtain ⟨s, hs, hspan⟩ := h
  obtain ⟨s', hs', -, -, heq⟩ := ht k s hs
  exact ⟨s', hs', heq ▸ hspan⟩

/-- A scope holds the parts of what it holds. -/
theorem Holds.part (h : t.Holds k span) (hspan : span.contains span' = true) : t.Holds k span' := by
  obtain ⟨s, hs, h⟩ := h
  exact ⟨s, hs, Span.contains_trans h hspan⟩

/-! ### Marks that the scopes admit -/

/-- The scopes admit a mark: what is opened, declared or placed in a
scope lies within it, and only a function or the module declares with
`var`. What is placed is a name of the tree. -/
def Admits (root : Node) (t : Scopes) : Mark → Prop
  | .opened parent? _ span => ∃ p, parent? = some p ∧ t.Holds p span
  | .declared b k => t.Holds k b.span ∧ (b.kind = .var → ∃ s, t.scopes[k]? = some s ∧ s.kind.Hosts)
  | .placed i k => ∃ n ∈ root.preorder, n.id = i ∧ n.kind.isName = true ∧ t.Holds k n.span

/-- What is admitted stays admitted. -/
theorem Admits.of_keeps (h : t.Admits root m) (ht : t.Keeps t') : t'.Admits root m := by
  cases m with
  | opened parent? kind span =>
      obtain ⟨p, hp, hspan⟩ := h
      exact ⟨p, hp, hspan.of_keeps ht⟩
  | declared b k =>
      refine ⟨h.1.of_keeps ht, fun hvar => ?_⟩
      obtain ⟨s, hs, hhosts⟩ := h.2 hvar
      obtain ⟨s', hs', -, hkind, -⟩ := ht k s hs
      exact ⟨s', hs', hkind ▸ hhosts⟩
  | placed i k =>
      obtain ⟨n, hn, hid, hname, hspan⟩ := h
      exact ⟨n, hn, hid, hname, hspan.of_keeps ht⟩

/-- The marks are admitted one after the other. -/
def AllAdmitted (root : Node) (t : Scopes) : List Mark → Prop
  | [] => True
  | m :: ms => t.Admits root m ∧ (t.mark m).AllAdmitted root ms

/-- Some marks, and then the others. -/
theorem allAdmitted_append :
    t.AllAdmitted root (ms ++ ms') ↔
      t.AllAdmitted root ms ∧ (t.marked ms).AllAdmitted root ms' := by
  induction ms generalizing t with
  | nil => simp [AllAdmitted]
  | cons m ms ih => simp only [List.cons_append, AllAdmitted, marked_cons, ih, and_assoc]

/-- Marks that are admitted at first are admitted one after the
other. -/
theorem allAdmitted_of_forall (h : ∀ m ∈ ms, t.Admits root m) : t.AllAdmitted root ms := by
  induction ms generalizing t with
  | nil => trivial
  | cons m ms ih =>
      have hms : ∀ m' ∈ ms, (t.mark m).Admits root m' := fun m' hm' =>
        (h m' (List.mem_cons_of_mem m hm')).of_keeps (keeps_mark t m)
      exact ⟨h m (List.mem_cons_self ..), ih hms⟩

/-- Each of the marks is still admitted when all of them are made. -/
theorem AllAdmitted.admits (h : t.AllAdmitted root ms) (hm : m ∈ ms) :
    (t.marked ms).Admits root m := by
  obtain ⟨before, after, rfl⟩ := List.append_of_mem hm
  rw [marked_append]
  exact (allAdmitted_append.mp h).2.1.of_keeps (keeps_marked _ (m :: after))

/-! ### Scopes inside one another -/

/-- The first scope is the module, and each other one lies within one of
a smaller number. -/
structure Nested (t : Scopes) : Prop where
  /-- Only the first scope has no parent; it is the module. -/
  outermost : ∀ k s, t.scopes[k]? = some s → s.parent? = none → k = 0 ∧ s.kind = .program
  /-- A parent comes first, and goes as far on both sides. -/
  enclosed : ∀ k s p, t.scopes[k]? = some s → s.parent? = some p → p < k ∧ t.Holds p s.span

/-- A module before anything in it is walked. -/
theorem nested_moduleScope (root : Node) : (moduleScope root).Nested := by
  have honly : ∀ k s, (moduleScope root).scopes[k]? = some s →
      k = 0 ∧ s = ⟨none, .program, root.span, []⟩ := by
    intro k s hs
    obtain ⟨hk, rfl⟩ := List.getElem?_eq_some_iff.mp hs
    obtain rfl : k = 0 := Nat.lt_one_iff.mp hk
    exact ⟨rfl, rfl⟩
  constructor
  · intro k s hs _
    obtain ⟨rfl, rfl⟩ := honly k s hs
    exact ⟨rfl, rfl⟩
  · intro k s p hs hp
    obtain ⟨-, rfl⟩ := honly k s hs
    cases hp

/-- An admitted mark leaves the scopes inside one another. -/
theorem Nested.mark (h : t.Nested) (hm : t.Admits root m) : (t.mark m).Nested where
  outermost k s hs hparent := by
    rcases getElem?_mark_cases hs with ⟨s', hs', hparent', hkind, -⟩ | ⟨-, rfl⟩
    · rw [← hkind]
      exact h.outermost k s' hs' (hparent'.trans hparent)
    · -- Only a scope with a parent is opened.
      obtain ⟨p, hp, -⟩ := hm
      rw [hparent] at hp
      cases hp
  enclosed k s p hs hparent := by
    rcases getElem?_mark_cases hs with ⟨s', hs', hparent', -, hspan⟩ | ⟨rfl, rfl⟩
    · obtain ⟨hlt, hholds⟩ := h.enclosed k s' p hs' (hparent'.trans hparent)
      exact ⟨hlt, hspan ▸ hholds.of_keeps (keeps_mark t m)⟩
    · obtain ⟨p', hp', hholds⟩ := hm
      obtain rfl := Option.some.inj (hparent.symm.trans hp')
      obtain ⟨s', hs', -⟩ := id hholds
      exact ⟨(List.getElem?_eq_some_iff.mp hs').1, hholds.of_keeps (keeps_mark t _)⟩

/-- Admitted marks leave the scopes inside one another. -/
theorem Nested.marked (h : t.Nested) (hms : t.AllAdmitted root ms) : (t.marked ms).Nested := by
  induction ms generalizing t with
  | nil => exact h
  | cons m ms ih => exact ih (h.mark hms.1) hms.2

/-- The nearest function around a scope is a function or the module, and
goes as far as the scope on both sides. -/
theorem Nested.exists_hoist (h : t.Nested) (hk : t.Holds k span) :
    ∃ s, t.scopes[t.hoist k]? = some s ∧ s.kind.Hosts ∧ s.span.contains span = true := by
  have hfuel : ∀ fuel k, k < fuel → t.Holds k span →
      ∃ s, t.scopes[t.hoistFuel fuel k]? = some s ∧ s.kind.Hosts
        ∧ s.span.contains span = true := by
    intro fuel
    induction fuel with
    | zero => exact fun k hk => absurd hk (Nat.not_lt_zero k)
    | succ fuel ih =>
        intro k hk hholds
        obtain ⟨s, hs, hspan⟩ := hholds
        by_cases hhosts : s.kind.Hosts
        · refine ⟨s, ?_, hhosts, hspan⟩
          rw [hoistFuel, hs]
          rcases hhosts with hkind | hkind <;> simp only [hkind] <;> exact hs
        · -- Another scope has a parent, where the search goes on.
          cases hparent : s.parent? with
          | none => exact absurd (.inr (h.outermost k s hs hparent).2) hhosts
          | some p =>
              obtain ⟨hlt, hholds⟩ := h.enclosed k s p hs hparent
              have hnext : t.hoistFuel (fuel + 1) k = t.hoistFuel fuel p := by
                rw [hoistFuel, hs]
                dsimp only
                rw [hparent]
                cases hkind : s.kind <;>
                  first | rfl | exact absurd (by rw [hkind]; simp [ScopeKind.Hosts]) hhosts
              rw [hnext]
              exact ih p (by omega) (hholds.part hspan)
  have hlt : k < t.scopes.length := by
    obtain ⟨s, hs, -⟩ := hk
    exact (List.getElem?_eq_some_iff.mp hs).1
  exact hfuel _ k hlt hk

/-! ### The way of a search -/

/-- The scopes from one scope outward: the scope, its parent, and so on
up to one that has no parent. -/
inductive Outward (t : Scopes) : Nat → List Nat → Prop where
  /-- A scope without a parent is the last one. -/
  | outermost {k : Nat} {s : Scope} (hs : t.scopes[k]? = some s) (hparent : s.parent? = none) :
      Outward t k [k]
  /-- Behind any other scope comes its parent. -/
  | inward {k p : Nat} {s : Scope} {path : List Nat} (hs : t.scopes[k]? = some s)
      (hparent : s.parent? = some p) (hpath : Outward t p path) : Outward t k (k :: path)

/-- What the scope of that number declares under a name. -/
def binding? (t : Scopes) (x : String) (k : Nat) : Option Binding :=
  (t.scopes[k]?).bind (·.find? x)

/-- There is a way outward from every scope, and it passes no scope
twice. -/
theorem Nested.exists_outward (h : t.Nested) (hs : t.scopes[k]? = some s) :
    ∃ path, t.Outward k path ∧ path.length ≤ k + 1 := by
  induction k using Nat.strong_induction_on generalizing s with
  | h k ih =>
      cases hparent : s.parent? with
      | none => exact ⟨[k], .outermost hs hparent, by simp⟩
      | some p =>
          obtain ⟨hlt, s', hs', -⟩ := h.enclosed k s p hs hparent
          obtain ⟨path, hpath, hlen⟩ := ih p hlt hs'
          refine ⟨k :: path, .inward hs hparent hpath, ?_⟩
          rw [List.length_cons]
          omega

/-- A search that may go as far as the way outward finds what the first
scope on the way that declares the name declares. -/
theorem Outward.lookupFuel?_eq (h : t.Outward k path) (hfuel : path.length ≤ fuel) :
    t.lookupFuel? x fuel k = path.findSome? (t.binding? x) := by
  induction h generalizing fuel with
  | @outermost k s hs hparent =>
      obtain ⟨fuel, rfl⟩ := Nat.exists_eq_succ_of_ne_zero (Nat.pos_iff_ne_zero.mp hfuel)
      cases hb : s.find? x with
      | none =>
          rw [lookupFuel?_of_none hs hb, hparent]
          simp [binding?, hs, hb]
      | some b =>
          rw [lookupFuel?_of_some hs hb]
          simp [binding?, hs, hb]
  | @inward k p s path hs hparent hpath ih =>
      rw [List.length_cons] at hfuel
      obtain ⟨fuel, rfl⟩ := Nat.exists_eq_succ_of_ne_zero (n := fuel) (by omega)
      cases hb : s.find? x with
      | none =>
          rw [lookupFuel?_of_none hs hb, hparent, Option.bind_some, ih (by omega)]
          simp [binding?, hs, hb]
      | some b =>
          rw [lookupFuel?_of_some hs hb]
          simp [binding?, hs, hb]

/-- A search finds what the first scope on its way that declares the
name declares. -/
theorem Nested.lookup?_eq (h : t.Nested) (hs : t.scopes[k]? = some s) :
    ∃ path, t.Outward k path ∧ t.lookup? k x = path.findSome? (t.binding? x) := by
  obtain ⟨path, hpath, hlen⟩ := h.exists_outward hs
  have hlt : k < t.scopes.length := (List.getElem?_eq_some_iff.mp hs).1
  exact ⟨path, hpath, hpath.lookupFuel?_eq (by omega)⟩

/-! ### What scopes declare -/

/-- A scope with one more declaration finds it if it found none under
the name. -/
theorem find?_add (s : Scope) (b : Binding) (x : String) :
    (s.add b).find? x = (s.find? x).or (if b.name = x then some b else none) := by
  unfold Scope.add
  by_cases hb : b.name = x
  · subst hb
    cases hfind : s.find? b.name with
    | none =>
        have hnew : s.bindings.find? (·.name = b.name) = none := hfind
        simp [Scope.find?, List.find?_append, hnew]
    | some b' => simp [hfind]
  · rw [if_neg hb, Option.or_none]
    split
    · rfl
    · simp [Scope.find?, List.find?_append, hb]

/-- What a scope declares behind an admitted mark is what it declared
before, or else what the mark declares. -/
theorem binding?_mark (hm : t.Admits root m) (x : String) (k : Nat) :
    (t.mark m).binding? x k = (t.binding? x k).or (m.declared? x k) := by
  cases m with
  | opened parent? kind span =>
      show ((t.scopes ++ [_])[k]?).bind _ = Option.or _ none
      rw [Option.or_none, binding?]
      rcases Nat.lt_trichotomy k t.scopes.length with hk | rfl | hk
      · rw [List.getElem?_append_left hk]
      · -- The new scope declares nothing.
        rw [List.getElem?_concat_length, List.getElem?_eq_none (Nat.le_refl _)]
        rfl
      · rw [List.getElem?_eq_none (by simpa using Nat.succ_le_of_lt hk),
          List.getElem?_eq_none (Nat.le_of_lt hk)]
  | declared b k' =>
      obtain ⟨⟨s, hs, -⟩, -⟩ := hm
      show ((t.scopes.modify k' (·.add b))[k]?).bind _ = _
      rw [List.getElem?_modify, binding?, Mark.declared?]
      by_cases hk : k' = k
      · subst hk
        simp [hs, find?_add]
      · simp [hk]
  | placed node scope =>
      have hsame : (t.mark (.placed node scope)).scopes = t.scopes := by
        simp only [mark, place]
        split <;> rfl
      rw [binding?, binding?, hsame]
      exact (Option.or_none ..).symm

/-- What a scope declares behind admitted marks is what it declared
before, or else what the first of them declares that declares the
name. -/
theorem binding?_marked (hms : t.AllAdmitted root ms) (x : String) (k : Nat) :
    (t.marked ms).binding? x k = (t.binding? x k).or (ms.findSome? (Mark.declared? x k)) := by
  induction ms generalizing t with
  | nil => exact (Option.or_none ..).symm
  | cons m ms ih =>
      rw [marked_cons, ih hms.2, binding?_mark hms.1, Option.or_assoc, List.findSome?_cons]
      cases Mark.declared? x k m <;> rfl

/-- A node that has a place keeps one, and a node that is met has
one. -/
theorem isSome_scopeOf?_marked (h : (t.scopeOf? i).isSome ∨ .placed i k ∈ ms) :
    ((t.marked ms).scopeOf? i).isSome := by
  -- A name has a place exactly if some entry of the list tells one.
  have hplaces : ∀ t : Scopes, (t.scopeOf? i).isSome ↔ ∃ p ∈ t.places, p.1 = i := by
    intro t
    simp [scopeOf?, List.find?_isSome]
  induction ms generalizing t with
  | nil => exact h.resolve_right List.not_mem_nil
  | cons m ms ih =>
      refine ih ?_
      -- No mark takes a place away.
      have hkeep : (t.scopeOf? i).isSome → ((t.mark m).scopeOf? i).isSome := by
        rw [hplaces, hplaces]
        rintro ⟨p, hp, hi⟩
        refine ⟨p, ?_, hi⟩
        cases m with
        | opened parent? kind span => exact hp
        | declared b k => exact List.mem_cons_of_mem _ hp
        | placed node scope =>
            simp only [mark, place]
            split
            · exact hp
            · exact List.mem_cons_of_mem _ hp
      rcases h with h | h
      · exact .inl (hkeep h)
      · -- The name is met by this mark, or by one behind it.
        rcases List.mem_cons.mp h with rfl | h
        · refine .inl ?_
          simp only [mark, place]
          split
          · assumption
          · simp [scopeOf?]
        · exact .inr h

/-! ### The marks of a node -/

/-- What a node declares around itself or inside it is not declared with
`var`. -/
theorem kind_ne_var {p : BindingKind × Node} (h : p ∈ (entry n).around ++ (entry n).inside) :
    p.1 ≠ .var := by
  have hall : ∀ {kind : BindingKind} {ns : List Node}, kind ≠ .var → p ∈ allAs kind ns →
      p.1 ≠ .var := by
    rintro kind ns hkind hp
    obtain ⟨m, -, rfl⟩ := List.mem_map.mp hp
    exact hkind
  unfold entry at h
  cases hk : n.kind with
  | token text =>
      rw [hk] at h
      split at h <;> simp_all
  | construct c =>
      rw [hk] at h
      have hconst : (if (n.child? .kind).any (·.lexeme = "const") then BindingKind.const
          else .let) ≠ .var := by split <;> decide
      cases c <;> simp [Construct.isName] at h ⊢ <;> grind

/-- Only a name is placed. -/
theorem isName_of_places (h : (entry n).places = true) : n.kind.isName = true := by
  unfold entry at h
  cases hk : n.kind with
  | token text =>
      rw [hk] at h
      split at h <;> simp_all
  | construct c =>
      rw [hk] at h
      cases c <;> first | rfl | exact absurd h Bool.false_ne_true

/-- Names that a scope holds, and that are not declared with `var` unless
it is a function or the module, are admitted there. -/
theorem admits_of_mem_declaring {ps : List (BindingKind × Node)}
    (hspan : ∀ p ∈ ps, t.Holds k p.2.span)
    (hvar : ∀ p ∈ ps, p.1 = .var → ∃ s, t.scopes[k]? = some s ∧ s.kind.Hosts)
    (hm : m ∈ declaring k ps) : t.Admits root m := by
  obtain ⟨p, hp, rfl⟩ := List.mem_map.mp hm
  have hp := (List.mem_filter.mp hp).1
  exact ⟨hspan p hp, hvar p hp⟩

section Marks

variable (hroot : root.SpansNested) (hn : n ∈ root.preorder)

include hroot hn

/-- What a node declares lies within it. -/
theorem contains_of_mem_entry {p : BindingKind × Node}
    (hp : p ∈ (entry n).around ++ (entry n).inside ++ (entry n).hoisted) :
    n.span.contains p.2.span = true :=
  (hroot.below hn).contains (mem_preorder_of_mem_entry hp)

/-- What comes first among the marks of a node is admitted in a scope
that it lies within. -/
theorem allAdmitted_opening (hk : t.Holds scope n.span) :
    t.AllAdmitted root ((entry n).opening scope n) := by
  refine allAdmitted_of_forall fun m hm => ?_
  rcases List.mem_append.mp hm with hm | hm
  · have hmem : ∀ p ∈ (entry n).around, p ∈ (entry n).around ++ (entry n).inside := fun p hp =>
      List.mem_append_left _ hp
    exact admits_of_mem_declaring
      (fun p hp => hk.part (contains_of_mem_entry hroot hn (List.mem_append_left _ (hmem p hp))))
      (fun p hp hvar => absurd hvar (kind_ne_var (hmem p hp))) hm
  · obtain ⟨kind, -, rfl⟩ := List.mem_map.mp hm
    exact ⟨scope, rfl, hk⟩

omit hroot hn in
/-- The children of a node are walked in a scope that the node lies
within. -/
theorem holds_inner (hk : t.Holds scope n.span) :
    (t.marked ((entry n).opening scope n)).Holds ((entry n).inner t scope) n.span := by
  unfold Entry.inner
  cases hopens : (entry n).opens? with
  | none => exact hk.of_keeps (keeps_marked t _)
  | some kind =>
      rw [Entry.opening, hopens]
      refine ⟨⟨some scope, kind, n.span, []⟩, ?_, Span.contains_self _⟩
      show ((t.marked _).scopes)[_]? = _
      rw [marked_append, ← length_marked_declaring t scope (entry n).around]
      exact List.getElem?_concat_length

/-- The marks of a node are admitted in a scope that it lies within. -/
theorem allAdmitted_marks (ht : t.Nested) (hk : t.Holds scope n.span) :
    t.AllAdmitted root ((entry n).marks t scope n) := by
  have hopening := allAdmitted_opening hroot hn hk
  have hinner := holds_inner hk
  -- The `var`s go to the nearest function, which holds all that the scope at hand holds.
  obtain ⟨host, hhost, hhosts, hspan⟩ :=
    (ht.marked hopening).exists_hoist (hk.of_keeps (keeps_marked t _))
  unfold Entry.marks
  simp only [List.append_assoc]
  refine allAdmitted_append.mpr ⟨hopening, allAdmitted_of_forall fun m hm => ?_⟩
  rcases List.mem_append.mp hm with hm | hm
  · -- Declared inside: the opened scope holds it, and it is no `var`.
    have hmem : ∀ p ∈ (entry n).inside, p ∈ (entry n).around ++ (entry n).inside := fun p hp =>
      List.mem_append_right _ hp
    exact admits_of_mem_declaring
      (fun p hp => hinner.part
        (contains_of_mem_entry hroot hn (List.mem_append_left _ (hmem p hp))))
      (fun p hp hvar => absurd hvar (kind_ne_var (hmem p hp))) hm
  rcases List.mem_append.mp hm with hm | hm
  · -- Declared around or hoisted: the function around the node holds it.
    exact admits_of_mem_declaring
      (fun p hp => ⟨host, hhost, Span.contains_trans hspan
        (contains_of_mem_entry hroot hn (List.mem_append_right _ hp))⟩)
      (fun _ _ _ => ⟨host, hhost, hhosts⟩) hm
  · -- The name itself is placed, where it is one.
    split at hm
    · rename_i hplaces
      rw [List.mem_singleton.mp hm]
      exact ⟨n, hn, rfl, isName_of_places hplaces, hk.of_keeps (keeps_marked t _)⟩
    · exact absurd hm List.not_mem_nil

end Marks

/-! ### The marks of a walk -/

/-- The marks of some nodes in a scope that they lie within are admitted
if those of each node are. -/
theorem allAdmitted_walkAllMarks
    (h : ∀ n ∈ ns, ∀ t : Scopes, t.Nested → t.Holds scope n.span →
      t.AllAdmitted root (t.walkMarks scope n))
    (ht : t.Nested) (hk : ∀ n ∈ ns, t.Holds scope n.span) :
    t.AllAdmitted root (t.walkAllMarks scope ns) := by
  induction ns generalizing t with
  | nil => trivial
  | cons n ns ih =>
      have hfirst := h n (List.mem_cons_self ..) t ht (hk n (List.mem_cons_self ..))
      rw [walkAllMarks]
      refine allAdmitted_append.mpr ⟨hfirst, ?_⟩
      exact ih (fun m hm => h m (List.mem_cons_of_mem n hm)) (ht.marked hfirst)
        fun m hm => (hk m (List.mem_cons_of_mem n hm)).of_keeps (keeps_marked t _)

/-- The marks of a node and of what is walked below it are admitted in a
scope that the node lies within. -/
theorem allAdmitted_walkMarks (hroot : root.SpansNested) (hn : n ∈ root.preorder) (ht : t.Nested)
    (hk : t.Holds scope n.span) : t.AllAdmitted root (t.walkMarks scope n) := by
  induction n using Node.childrenRec generalizing t scope with
  | h l cs ih =>
      have hmarks := allAdmitted_marks hroot hn ht hk
      have hafter := ht.marked hmarks
      -- The scope that the children are walked in holds each of them.
      have hinner : ∀ c ∈ cs, (t.marked ((entry (.mk l cs)).marks t scope (.mk l cs))).Holds
          ((entry (.mk l cs)).inner t scope) c.span := by
        intro c hc
        have hchild := (hroot.below hn).contains (Node.mem_preorder_of_child hc)
        refine Holds.of_keeps (t := t.marked ((entry (.mk l cs)).opening scope (.mk l cs)))
          ((holds_inner hk).part hchild) ?_
        unfold Entry.marks
        rw [List.append_assoc, List.append_assoc, marked_append]
        exact keeps_marked _ _
      have hwalk : ∀ c ∈ cs, ∀ {t : Scopes} {scope : Nat}, t.Nested → t.Holds scope c.span →
          t.AllAdmitted root (t.walkMarks scope c) := fun c hc =>
        ih c hc (Node.mem_preorder_trans hn (Node.mem_preorder_of_child hc))
      rw [walkMarks_eq]
      refine allAdmitted_append.mpr ⟨hmarks, ?_⟩
      cases (entry (.mk l cs)).walked with
      | nothing => trivial
      | all => exact allAdmitted_walkAllMarks (fun c hc t ht hk => hwalk c hc ht hk) hafter hinner
      | only role =>
          rcases walkOnlyMarks_cases (t.marked ((entry (.mk l cs)).marks t scope (.mk l cs)))
            ((entry (.mk l cs)).inner t scope) role cs with h | ⟨c, hc, h⟩
          · show AllAdmitted root _ (walkOnlyMarks _ _ role cs)
            rw [h]
            trivial
          · show AllAdmitted root _ (walkOnlyMarks _ _ role cs)
            rw [h]
            exact hwalk c hc hafter (hinner c hc)

/-- The marks of a module are admitted. -/
theorem allAdmitted_treeMarks (hroot : root.SpansNested) :
    (moduleScope root).AllAdmitted root (treeMarks root) := by
  have hmodule : ∀ c ∈ root.children, (moduleScope root).Holds 0 c.span := fun c hc =>
    ⟨_, rfl, hroot.contains (Node.mem_preorder_of_child hc)⟩
  refine allAdmitted_walkAllMarks (fun c hc t ht hk => ?_) (nested_moduleScope root) hmodule
  exact allAdmitted_walkMarks hroot (Node.mem_preorder_of_child hc) ht hk

/-- The scopes of a module stand inside one another. -/
theorem nested_ofTree (hroot : root.SpansNested) : (ofTree root).Nested := by
  rw [ofTree_eq_marked]
  exact (nested_moduleScope root).marked (allAdmitted_treeMarks hroot)

/-- The scopes of a module admit every mark of its walk. -/
theorem admits_ofTree (hroot : root.SpansNested) (hm : m ∈ treeMarks root) :
    (ofTree root).Admits root m := by
  rw [ofTree_eq_marked]
  exact (allAdmitted_treeMarks hroot).admits hm

/-! ### Sound scopes -/

/-- What the scopes of a module promise to those who look names up in
them. -/
structure Sound (t : Scopes) (tree : Tree) : Prop where
  /-- The first scope is the module, and has no parent. -/
  module : ∃ s, t.scopes[0]? = some s ∧ s.parent? = none ∧ s.kind = .program
  /-- Every other scope has a parent that comes before it, and lies
  within it. -/
  enclosed : ∀ (k : Nat) (s : Scope), t.scopes[k]? = some s → k ≠ 0 →
    ∃ p outer, s.parent? = some p ∧ p < k ∧ t.scopes[p]? = some outer
      ∧ outer.span.contains s.span = true
  /-- A name with a place lies within the scope that it is looked up
  from. -/
  placed : ∀ i k, (i, k) ∈ t.places →
    ∃ n ∈ tree.nodes, n.id = i ∧ n.kind.isName = true
      ∧ ∃ s, t.scopes[k]? = some s ∧ s.span.contains n.span = true
  /-- What is declared with `var` is declared by a function or the
  module. -/
  hoisted : ∀ (k : Nat) (s : Scope), t.scopes[k]? = some s → ∀ b ∈ s.bindings, b.kind = .var → s.kind.Hosts
  /-- A declaration is found under its name, which is the text of a name
  of the tree that is looked up from the declaring scope. -/
  declared : ∀ (k : Nat) (s : Scope), t.scopes[k]? = some s → ∀ b ∈ s.bindings,
    s.find? b.name = some b ∧
      ∃ n ∈ tree.nodes, n.kind.isName = true ∧ b.node = n.id ∧ b.span = n.span
        ∧ b.name = tree.text n ∧ t.scopeOf? n.id = some k
  /-- A scope declares what the walk declares in it, each name as it is
  declared first, wherever that is. -/
  bound : ∀ x k, t.binding? x k = (treeMarks tree.root).findSome? (Mark.declared? x k)
  /-- Every name that the walk meets has a place. -/
  met : ∀ i k, .placed i k ∈ treeMarks tree.root → (t.scopeOf? i).isSome
  /-- The nearest function around a scope is a function or the
  module. -/
  nearest : ∀ k, k < t.scopes.length →
    ∃ s, t.scopes[t.hoist k]? = some s ∧ s.kind.Hosts
  /-- A node refers to what the first scope that declares its text
  declares, on the way outward from the scope that it is looked up
  from. -/
  resolved : ∀ n ∈ tree.nodes, ∀ k, t.scopeOf? n.id = some k →
    ∃ path, t.Outward k path ∧ t.resolve? n = path.findSome? (t.binding? (tree.text n))

/-- A place of a module is one of a name of its tree, which lies within
the scope. -/
theorem exists_name_of_mem_places (hroot : root.SpansNested) (h : (i, k) ∈ (ofTree root).places) :
    ∃ n ∈ root.preorder, n.id = i ∧ n.kind.isName = true ∧ (ofTree root).Holds k n.span := by
  rw [ofTree_eq_marked] at h
  rcases mem_places_marked h with hmem | ⟨b, hb, rfl⟩ | hplaced
  · exact absurd hmem List.not_mem_nil
  · obtain ⟨n, hn, hname, kind, rfl⟩ := declared_of_mem_treeMarks hb
    exact ⟨n, hn, rfl, hname, (admits_ofTree hroot hb).1⟩
  · exact admits_ofTree hroot hplaced

/-- The scopes of a module are sound if its nodes lie within their
parents and have different numbers, and its names hold the texts that
they stand for. -/
theorem ofTree_sound (tree : Tree) (hspans : tree.root.SpansNested) (hids : tree.root.ids.Nodup)
    (htext : ∀ n ∈ tree.nodes, n.kind.isName = true → tree.text n = n.lexeme) :
    (ofTree tree.root).Sound tree := by
  have hnested := nested_ofTree hspans
  have hmodule : ∃ s, (ofTree tree.root).scopes[0]? = some s := by
    obtain ⟨s, hs, -⟩ := keeps_marked (moduleScope tree.root) (treeMarks tree.root) 0 _ rfl
    exact ⟨s, ofTree_eq_marked tree.root ▸ hs⟩
  constructor
  case module =>
    obtain ⟨s, hs⟩ := hmodule
    cases hparent : s.parent? with
    | none => exact ⟨s, hs, hparent, (hnested.outermost 0 s hs hparent).2⟩
    | some p => exact absurd (hnested.enclosed 0 s p hs hparent).1 (Nat.not_lt_zero p)
  case enclosed =>
    intro k s hs hk
    cases hparent : s.parent? with
    | none => exact absurd (hnested.outermost k s hs hparent).1 hk
    | some p =>
        obtain ⟨hlt, outer, houter, hspan⟩ := hnested.enclosed k s p hs hparent
        exact ⟨p, outer, rfl, hlt, houter, hspan⟩
  case placed => exact fun i k h => exists_name_of_mem_places hspans h
  case hoisted =>
    intro k s hs b hb hvar
    obtain ⟨s', hs', hhosts⟩ := (admits_ofTree hspans (declared_of_mem_bindings hs hb)).2 hvar
    obtain rfl := Option.some.inj (hs.symm.trans hs')
    exact hhosts
  case declared =>
    intro k s hs b hb
    have hdeclared := declared_of_mem_bindings hs hb
    have hplace : (ofTree tree.root).scopeOf? b.node = some k := by
      rw [ofTree_eq_marked]
      exact scopeOf?_marked_of_declared hdeclared (oneScope_treeMarks hids)
    obtain ⟨n, hn, hname, kind, rfl⟩ := declared_of_mem_treeMarks hdeclared
    exact ⟨find?_of_mem_bindings (namesDiffer_ofTree _ s (List.mem_of_getElem? hs)) hb,
      n, hn, hname, rfl, rfl, (htext n hn hname).symm, hplace⟩
  case bound =>
    intro x k
    rw [ofTree_eq_marked, binding?_marked (allAdmitted_treeMarks hspans)]
    have hnone : (moduleScope tree.root).binding? x k = none := by
      cases k <;> rfl
    rw [hnone, Option.none_or]
  case met =>
    intro i k h
    rw [ofTree_eq_marked]
    exact isSome_scopeOf?_marked (.inr h)
  case nearest =>
    intro k hk
    have hs := List.getElem?_eq_getElem hk
    obtain ⟨s, hs, hhosts, -⟩ := hnested.exists_hoist ⟨_, hs, Span.contains_self _⟩
    exact ⟨s, hs, hhosts⟩
  case resolved =>
    intro n hn k hk
    -- A node with a place is a name, and holds its text.
    obtain ⟨⟨i, k'⟩, hmem, heq⟩ := Option.map_eq_some_iff.mp hk
    obtain rfl : k' = k := heq
    obtain rfl : i = n.id := by simpa using List.find?_some hmem
    obtain ⟨m, hm, hid, hname, s, hs, -⟩ :=
      exists_name_of_mem_places hspans (List.mem_of_find?_eq_some hmem)
    obtain rfl := Node.eq_of_id_eq hids hm hn hid
    obtain ⟨path, hpath, hlookup⟩ := hnested.lookup?_eq (x := m.lexeme) hs
    refine ⟨path, hpath, ?_⟩
    rw [resolve?, hk, Option.bind_some, hlookup, htext m hm hname]

/-- A variable that is used in front of its declaration in a block, and
beside a variable of the block. -/
def hoistedUse : Tree where
  source := "b; \x7b a; let a; var b; \x7d a;"
  root := (Node.branch .program
    [.branch .expressionStatement [.leaf (.construct .identifier) 0 "b", .token 1 ";"],
      .branch .statementBlock
        [.token 3 "\x7b",
          .branch .expressionStatement [.leaf (.construct .identifier) 5 "a", .token 6 ";"],
          .branch .lexicalDeclaration
            [(.token 8 "let" : Node).inRole .kind,
              .branch .variableDeclarator
                [(.leaf (.construct .identifier) 12 "a" : Node).inRole .name],
              .token 13 ";"],
          .branch .variableDeclaration
            [.token 15 "var",
              .branch .variableDeclarator
                [(.leaf (.construct .identifier) 19 "b" : Node).inRole .name],
              .token 20 ";"],
          .token 22 "\x7d"],
      .branch .expressionStatement [.leaf (.construct .identifier) 24 "a", .token 25 ";"]]).numbered
  dialect := .plain
  path? := none

/-- The first `b` refers to the variable of the module, the `a` of the
block to the one declared behind it, and the last `a` to nothing. -/
theorem ofTree_sound_hoisted :
    hoistedUse.nodes.filterMap (fun n =>
        ((ofTree hoistedUse.root).resolve? n).map fun b => (n.start, b.span.start))
      = [(0, 19), (5, 12), (12, 12), (19, 19)]
      ∧ (ofTree hoistedUse.root).Sound hoistedUse := by
  have hspans : hoistedUse.root.SpansNested := by decide +kernel
  exact ⟨by decide +kernel, ofTree_sound hoistedUse hspans (by decide +kernel) (by decide +kernel)⟩

end Scopes

end ScriptRefactor
