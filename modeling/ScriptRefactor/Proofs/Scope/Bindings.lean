import ScriptRefactor.Proofs.Scope.Declared

/-!
# `ScriptRefactor.Proofs.Scope.Bindings`: what marks leave behind

* A scope binds what was declared in it, each name once
  (`declared_of_mem_bindings`, `NamesDiffer.marked`), and a declared
  node is looked up from the scope it was declared in
  (`scopeOf?_marked_of_declared`).
* Which function is nearest is a matter of the *shape* of the scopes,
  that is of what opened them inside which others (`hoist_congr`).
* When the declared names are changed and the names of one scope that
  were different stay different, and the others stay the same, then the
  marks leave the same scopes behind, with the names changed
  (`marked_map`).
-/

set_option autoImplicit false

namespace ScriptRefactor

open Syntax

/-- The scope with its declarations changed. -/
def Scope.map (f : Binding → Binding) (s : Scope) : Scope :=
  { s with bindings := s.bindings.map f }

/-- The mark with its declaration changed. -/
def Mark.map (f : Binding → Binding) : Mark → Mark
  | .declared b scope => .declared (f b) scope
  | .opened parent? kind span => .opened parent? kind span
  | .placed node scope => .placed node scope

namespace Scopes

variable {t t' : Scopes} {m : Mark} {ms : List Mark} {s : Scope} {b b' : Binding}
  {i k fuel : Nat} {x : String} {f : Binding → Binding}

/-- The scopes with their declarations changed. -/
def map (f : Binding → Binding) (t : Scopes) : Scopes :=
  { t with scopes := t.scopes.map (·.map f) }

/-! ### Declarations of a scope -/

/-- A declaration of a scope with one more is that one, or was there. -/
theorem mem_bindings_add (h : b ∈ (s.add b').bindings) : b ∈ s.bindings ∨ b = b' := by
  unfold Scope.add at h
  split at h
  · exact .inl h
  · exact (List.mem_append.mp h).imp_right List.mem_singleton.mp

/-- The scope of some number binds the declaration. -/
def Binds (t : Scopes) (b : Binding) (k : Nat) : Prop :=
  ∃ s, t.scopes[k]? = some s ∧ b ∈ s.bindings

/-- What is bound behind a mark was bound before, or the mark declares
it. -/
theorem binds_mark (h : (t.mark m).Binds b k) : t.Binds b k ∨ m = .declared b k := by
  obtain ⟨s, hs, hb⟩ := h
  cases m with
  | opened parent? kind span =>
      rcases Nat.lt_or_ge k t.scopes.length with hk | hk
      · exact .inl ⟨s, (List.getElem?_append_left hk).symm.trans hs, hb⟩
      · -- The new scope binds nothing.
        have hnew : s.bindings = [] := by
          have hs : ([⟨parent?, kind, span, []⟩] : List Scope)[k - t.scopes.length]? = some s :=
            (List.getElem?_append_right hk).symm.trans hs
          rw [List.mem_singleton.mp (List.mem_of_getElem? hs)]
        rw [hnew] at hb
        exact absurd hb List.not_mem_nil
  | declared b' k' =>
      have hs : (t.scopes.modify k' (·.add b'))[k]? = some s := hs
      rw [List.getElem?_modify] at hs
      obtain ⟨s', hs', rfl⟩ := Option.map_eq_some_iff.mp hs
      by_cases hk : k' = k
      · rw [if_pos hk] at hb
        rcases mem_bindings_add hb with hb | rfl
        · exact .inl ⟨s', hs', hb⟩
        · exact .inr (by rw [hk])
      · rw [if_neg hk] at hb
        exact .inl ⟨s', hs', hb⟩
  | placed node scope =>
      have hsame : (t.mark (.placed node scope)).scopes = t.scopes := by
        simp only [mark, place]
        split <;> rfl
      exact .inl ⟨s, hsame ▸ hs, hb⟩

/-- What is bound behind some marks was bound before, or one of them
declares it. -/
theorem binds_marked (h : (t.marked ms).Binds b k) : t.Binds b k ∨ .declared b k ∈ ms := by
  induction ms generalizing t with
  | nil => exact .inl h
  | cons m ms ih =>
      rcases ih h with h | h
      · rcases binds_mark h with h | rfl
        · exact .inl h
        · exact .inr (List.mem_cons_self ..)
      · exact .inr (List.mem_cons_of_mem m h)

/-- No scope binds a name twice. -/
def NamesDiffer (t : Scopes) : Prop := ∀ s ∈ t.scopes, (s.bindings.map Binding.name).Nodup

/-- A scope with one more declaration binds no name twice. -/
theorem nodup_names_add (h : (s.bindings.map Binding.name).Nodup) :
    ((s.add b).bindings.map Binding.name).Nodup := by
  unfold Scope.add
  split
  · exact h
  · rename_i hnone
    have hnew : b.name ∉ s.bindings.map Binding.name := by
      intro hmem
      obtain ⟨b', hb', hname⟩ := List.mem_map.mp hmem
      refine hnone ?_
      rw [Scope.find?, List.find?_isSome]
      exact ⟨b', hb', by simp [hname]⟩
    rw [List.map_append]
    refine List.nodup_append.mpr ⟨h, List.nodup_singleton _, ?_⟩
    rintro x hx y hy rfl
    rw [List.map_singleton, List.mem_singleton] at hy
    exact hnew (hy ▸ hx)

/-- Marks bind no name twice. -/
theorem NamesDiffer.marked (h : t.NamesDiffer) : (t.marked ms).NamesDiffer := by
  induction ms generalizing t with
  | nil => exact h
  | cons m ms ih =>
      refine ih ?_
      intro s hs
      cases m with
      | opened parent? kind span =>
          -- The new scope is the last one, and it binds nothing yet.
          rcases List.mem_append.mp hs with hs | hs
          · exact h s hs
          · rw [List.mem_singleton.mp hs]
            exact List.nodup_nil
      | declared b k =>
          obtain ⟨k', hk'⟩ := List.mem_iff_getElem?.mp hs
          have hs : (t.scopes.modify k (·.add b))[k']? = some s := hk'
          rw [List.getElem?_modify] at hs
          obtain ⟨s', hs', rfl⟩ := Option.map_eq_some_iff.mp hs
          have hs' := h s' (List.mem_of_getElem? hs')
          -- Only the scope declared in changes, and a name that it binds is not added again.
          split
          · exact nodup_names_add hs'
          · exact hs'
      | placed node scope =>
          -- A name that is met changes the places and no scope.
          refine h s ?_
          simp only [mark, place] at hs
          split at hs <;> exact hs

/-- A scope that binds no name twice finds each of its declarations by
name. -/
theorem find?_of_mem_bindings (hs : (s.bindings.map Binding.name).Nodup) (hb : b ∈ s.bindings) :
    s.find? b.name = some b := by
  obtain ⟨b', hb'⟩ : ∃ b', s.find? b.name = some b' :=
    Option.isSome_iff_exists.mp (List.find?_isSome.mpr ⟨b, hb, by simp⟩)
  have hname : b'.name = b.name := by simpa using List.find?_some hb'
  rw [hb', List.inj_on_of_nodup_map hs (List.mem_of_find?_eq_some hb') hb hname]

/-! ### Looking names up -/

/-- A scope that binds the name ends the search. -/
theorem lookupFuel?_of_some (hs : t.scopes[k]? = some s) (hb : s.find? x = some b) :
    t.lookupFuel? x (fuel + 1) k = some b := by
  rw [lookupFuel?, hs]
  dsimp only
  rw [hb]

/-- A scope that does not bind the name hands the search on. -/
theorem lookupFuel?_of_none (hs : t.scopes[k]? = some s) (hb : s.find? x = none) :
    t.lookupFuel? x (fuel + 1) k = s.parent?.bind (t.lookupFuel? x fuel) := by
  rw [lookupFuel?, hs]
  dsimp only
  rw [hb]
  cases s.parent? <;> rfl

/-- What a search finds is bound in a scope, under the name that is
searched for. -/
theorem mem_of_lookupFuel? (h : t.lookupFuel? x fuel k = some b) :
    b.name = x ∧ ∃ s ∈ t.scopes, b ∈ s.bindings := by
  induction fuel generalizing k with
  | zero => cases h
  | succ fuel ih =>
      cases hs : t.scopes[k]? with
      | none =>
          rw [lookupFuel?, hs] at h
          cases h
      | some s =>
          cases hb : s.find? x with
          | some b' =>
              rw [lookupFuel?_of_some hs hb] at h
              obtain rfl := Option.some.inj h
              exact ⟨by simpa using List.find?_some hb, s, List.mem_of_getElem? hs,
                List.mem_of_find?_eq_some hb⟩
          | none =>
              rw [lookupFuel?_of_none hs hb] at h
              obtain ⟨parent, -, h⟩ := Option.bind_eq_some_iff.mp h
              exact ih h

/-- What a scope binds is found from there. -/
theorem lookup?_of_mem_bindings (ht : t.NamesDiffer) (hs : t.scopes[k]? = some s)
    (hb : b ∈ s.bindings) : t.lookup? k b.name = some b := by
  have hpos : 0 < t.scopes.length := List.length_pos_of_mem (List.mem_of_getElem? hs)
  obtain ⟨fuel, hfuel⟩ := Nat.exists_eq_succ_of_ne_zero (Nat.pos_iff_ne_zero.mp hpos)
  rw [lookup?, hfuel]
  exact lookupFuel?_of_some hs (find?_of_mem_bindings (ht s (List.mem_of_getElem? hs)) hb)

/-! ### The scopes of a module -/

/-- What a scope binds was declared there. -/
theorem declared_of_mem_bindings {root : Node} (hs : (ofTree root).scopes[k]? = some s)
    (hb : b ∈ s.bindings) : .declared b k ∈ treeMarks root := by
  rw [ofTree_eq_marked] at hs
  rcases binds_marked ⟨s, hs, hb⟩ with ⟨s', hs', hb⟩ | h
  · rw [List.mem_singleton.mp (List.mem_of_getElem? hs')] at hb
    exact absurd hb List.not_mem_nil
  · exact h

/-- No scope of a module binds a name twice. -/
theorem namesDiffer_ofTree (root : Node) : (ofTree root).NamesDiffer := by
  rw [ofTree_eq_marked]
  refine NamesDiffer.marked fun s hs => ?_
  rw [List.mem_singleton.mp hs]
  exact List.nodup_nil

/-! ### Places -/

/-- A node keeps its place unless it is declared elsewhere. -/
theorem scopeOf?_marked (h : t.scopeOf? i = some k)
    (hms : ∀ b k', .declared b k' ∈ ms → b.node = i → k' = k) :
    (t.marked ms).scopeOf? i = some k := by
  induction ms generalizing t with
  | nil => exact h
  | cons m ms ih =>
      refine ih ?_ fun b k' hb => hms b k' (List.mem_cons_of_mem m hb)
      cases m with
      | opened parent? kind span => exact h
      | declared b k' =>
          by_cases hi : b.node = i
          · rw [hms b k' (List.mem_cons_self ..) hi]
            simp [mark, scopeOf?, hi]
          · rw [← h]
            simp [mark, scopeOf?, hi]
      | placed node scope =>
          simp only [mark, place]
          split
          · exact h
          · rename_i hnone
            have hne : node ≠ i := by
              rintro rfl
              exact hnone (by rw [h]; rfl)
            rw [← h]
            simp [scopeOf?, hne]

/-- A declared node is looked up from the scope it is declared in. -/
theorem scopeOf?_marked_of_declared (h : .declared b k ∈ ms) (hms : OneScope ms) :
    (t.marked ms).scopeOf? b.node = some k := by
  obtain ⟨before, after, rfl⟩ := List.append_of_mem h
  rw [marked_append, marked_cons]
  refine scopeOf?_marked ?_ fun b' k' hb' heq =>
    hms b' k' b k (List.mem_append_right _ (List.mem_cons_of_mem _ hb')) h heq
  simp [mark, scopeOf?]

/-- Only what is declared or placed has a place. -/
theorem mem_places_marked (h : (i, k) ∈ (t.marked ms).places) :
    (i, k) ∈ t.places ∨ (∃ b, .declared b k ∈ ms ∧ b.node = i) ∨ .placed i k ∈ ms := by
  induction ms generalizing t with
  | nil => exact .inl h
  | cons m ms ih =>
      -- One mark first. What came before it is the state of the induction.
      have hmark : (i, k) ∈ (t.mark m).places →
          (i, k) ∈ t.places ∨ (∃ b, m = .declared b k ∧ b.node = i) ∨ m = .placed i k := by
        cases m with
        | opened parent? kind span => exact .inl
        | declared b k' =>
            intro h
            rcases List.mem_cons.mp h with h | h
            · cases h
              exact .inr (.inl ⟨b, rfl, rfl⟩)
            · exact .inl h
        | placed node scope =>
            intro h
            simp only [mark, place] at h
            -- A name that has a place already keeps it.
            split at h
            · exact .inl h
            · rcases List.mem_cons.mp h with h | h
              · cases h
                exact .inr (.inr rfl)
              · exact .inl h
      rcases ih h with h | ⟨b, hb, hi⟩ | h
      · rcases hmark h with h | ⟨b, rfl, hi⟩ | rfl
        · exact .inl h
        · exact .inr (.inl ⟨b, List.mem_cons_self .., hi⟩)
        · exact .inr (.inr (List.mem_cons_self ..))
      · exact .inr (.inl ⟨b, List.mem_cons_of_mem m hb, hi⟩)
      · exact .inr (.inr (List.mem_cons_of_mem m h))

/-! ### The shape of scopes -/

/-- What opened the scopes, and in which scope each one stands. -/
def shape (t : Scopes) : List (Option Nat × ScopeKind) := t.scopes.map fun s => (s.parent?, s.kind)

/-- As many scopes have the shape. -/
theorem length_shape : t.shape.length = t.scopes.length := List.length_map _

/-- The nearest function depends on the shape. -/
theorem hoist_congr (h : t.shape = t'.shape) (scope : Nat) : t.hoist scope = t'.hoist scope := by
  -- Both climb with the same fuel: the shape has as many entries as there are scopes.
  have hfuel : ∀ fuel scope, t.hoistFuel fuel scope = t'.hoistFuel fuel scope := by
    intro fuel
    induction fuel with
    | zero => exact fun _ => rfl
    | succ fuel ih =>
        intro scope
        have hscope : (t.scopes[scope]?).map (fun s => (s.parent?, s.kind))
            = (t'.scopes[scope]?).map fun s => (s.parent?, s.kind) := by
          rw [← List.getElem?_map, ← List.getElem?_map]
          exact congrArg (·[scope]?) h
        rw [hoistFuel, hoistFuel]
        cases hs : t.scopes[scope]? with
        | none =>
            rw [hs] at hscope
            rw [Option.map_eq_none_iff.mp hscope.symm]
        | some s =>
            rw [hs] at hscope
            obtain ⟨s', hs', heq⟩ := Option.map_eq_some_iff.mp hscope.symm
            obtain ⟨hparent, hkind⟩ := Prod.mk.inj heq
            rw [hs']
            dsimp only
            rw [hparent, hkind]
            -- Only the kind and the parent decide whether the climb goes on.
            cases s.kind <;> cases s.parent? <;> first | rfl | exact ih _
  rw [hoist, hoist, ← length_shape, ← length_shape, h]
  exact hfuel _ _

/-- Changed declarations leave the shape as it is. -/
theorem shape_marked_map (f : Binding → Binding) (h : t.shape = t'.shape) (ms : List Mark) :
    (t.marked ms).shape = (t'.marked (ms.map (Mark.map f))).shape := by
  induction ms generalizing t t' with
  | nil => exact h
  | cons m ms ih =>
      refine ih ?_
      -- Whatever is done to one scope, its parent and its kind stay.
      have hmodify : ∀ (t : Scopes) (g : Scope → Scope) k,
          (∀ s, (g s).parent? = s.parent? ∧ (g s).kind = s.kind) →
          (t.scopes.modify k g).map (fun s => (s.parent?, s.kind)) = t.shape := by
        intro t g k hg
        refine List.ext_getElem? fun j => ?_
        rw [List.getElem?_map, List.getElem?_modify, Option.map_eq_map, shape, List.getElem?_map,
          Option.map_map]
        congr 1
        funext s
        simp only [Function.comp_def]
        split <;> simp [hg]
      have hadd : ∀ b (s : Scope), (s.add b).parent? = s.parent? ∧ (s.add b).kind = s.kind := by
        intro b s
        unfold Scope.add
        split <;> exact ⟨rfl, rfl⟩
      cases m with
      | opened parent? kind span =>
          simp only [shape] at h
          simp [Mark.map, mark, openScope, shape, h]
      | declared b k =>
          -- The declarations differ, but neither of the two changes the shape.
          exact ((hmodify t _ k (hadd b)).trans h).trans (hmodify t' _ k (hadd (f b))).symm
      | placed node scope =>
          simp only [Mark.map, mark, place]
          split <;> split <;> exact h

/-! ### Changed names -/

/-- A scope with one more declaration, all of them changed. -/
theorem map_add (h : ∀ b' ∈ s.bindings, (f b').name = (f b).name ↔ b'.name = b.name) :
    (s.add b).map f = (s.map f).add (f b) := by
  have hfind : ((s.map f).find? (f b).name).isSome = (s.find? b.name).isSome := by
    rw [Bool.eq_iff_iff, Scope.find?, Scope.find?, List.find?_isSome, List.find?_isSome, Scope.map]
    constructor
    · rintro ⟨_, hmem, hname⟩
      obtain ⟨b', hb', rfl⟩ := List.mem_map.mp hmem
      exact ⟨b', hb', by simpa [h b' hb'] using hname⟩
    · rintro ⟨b', hb', hname⟩
      exact ⟨f b', List.mem_map_of_mem hb', by simpa [h b' hb'] using hname⟩
  unfold Scope.add
  rw [hfind]
  split
  · rfl
  · simp [Scope.map]

/-- Marks with changed declarations leave the same scopes behind, with
the declarations changed, if the names of one scope agree as they did
before. -/
theorem marked_map (hnode : ∀ b, (f b).node = b.node)
    (hname : ∀ b b' k, (t.Binds b k ∨ .declared b k ∈ ms) → (t.Binds b' k ∨ .declared b' k ∈ ms) →
      ((f b).name = (f b').name ↔ b.name = b'.name)) :
    (t.map f).marked (ms.map (Mark.map f)) = (t.marked ms).map f := by
  induction ms generalizing t with
  | nil => rfl
  | cons m ms ih =>
      -- One mark commutes with the change. Only a declaration needs that names agree as before.
      have hmark : (t.map f).mark (m.map f) = (t.mark m).map f := by
        cases m with
        | opened parent? kind span => simp [Mark.map, mark, openScope, map, Scope.map]
        | declared b k =>
            simp only [Mark.map, mark, map, hnode, mk.injEq, and_true]
            refine List.ext_getElem? fun j => ?_
            rw [List.getElem?_modify, List.getElem?_map, List.getElem?_map, List.getElem?_modify,
              Option.map_eq_map, Option.map_eq_map, Option.map_map, Option.map_map]
            cases hs : t.scopes[j]? with
            | none => rfl
            | some s =>
                simp only [Option.map_some, Function.comp_def, Option.some.injEq]
                by_cases hk : k = j
                · -- The new binding meets the old ones here, so `hname` compares the two.
                  rw [if_pos hk, if_pos hk]
                  refine (map_add fun b' hb' => ?_).symm
                  exact hname b' b k (.inl ⟨s, hk ▸ hs, hb'⟩) (.inr (List.mem_cons_self ..))
                · rw [if_neg hk, if_neg hk]
        | placed node scope =>
            have hplace : (t.map f).scopeOf? node = t.scopeOf? node := rfl
            simp only [Mark.map, mark, place, hplace]
            split <;> rfl
      -- What one mark binds was among the declarations that `hname` speaks of.
      have hknown : ∀ b k, ((t.mark m).Binds b k ∨ .declared b k ∈ ms) →
          t.Binds b k ∨ .declared b k ∈ m :: ms := by
        rintro b k (h | h)
        · rcases binds_mark h with h | rfl
          · exact .inl h
          · exact .inr (List.mem_cons_self ..)
        · exact .inr (List.mem_cons_of_mem m h)
      rw [List.map_cons, marked_cons, hmark, marked_cons]
      exact ih fun b b' k hb hb' => hname b b' k (hknown b k hb) (hknown b' k hb')

end Scopes

end ScriptRefactor
