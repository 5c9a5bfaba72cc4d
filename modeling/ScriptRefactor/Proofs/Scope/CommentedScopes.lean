import ScriptRefactor.Proofs.Scope.CommentedWalk
import ScriptRefactor.Proofs.Scope.Nesting

/-!
# `ScriptRefactor.Proofs.Scope.CommentedScopes`: the scopes of trees that differ in comments

A tree opens the scopes that it opens without its comments
(`frames_ofTree`), and looks up all nodes but the lost names from the
same ones (`scopeOf?_ofTree`). So trees that differ in comments only have
the same scopes if they lose the same names (`ofTree_eq_of_loses`).
Nothing refers to a name that is lost (`node_ne_of_resolve?`).

What a node refers to depends on its scope, on which scopes stand around
that, and on what each of them declares under the name
(`lookup?_congr`). So if the scopes still bind the same, then all names
that neither tree loses refer to the same (`agree_of_bindings`).
-/

set_option autoImplicit false

namespace ScriptRefactor

open Syntax

namespace Scopes

variable {s s' : Scopes} {root root' n m x : Node} {ms : List Mark} {i k : Nat} {name : String}
  {b : Binding}

/-! ### Looking names up -/

/-- Scopes that stand inside one another alike and bind the same names alike
are searched alike. -/
theorem lookup?_congr (hframes : s'.frames = s.frames)
    (hbindings : ∀ name k, s'.binding? name k = s.binding? name k) (k : Nat) (name : String) :
    s'.lookup? k name = s.lookup? k name := by
  -- Equally many scopes, so equal fuel, and then one step of the search at a time.
  have hfuel : ∀ fuel k, s'.lookupFuel? name fuel k = s.lookupFuel? name fuel k := by
    intro fuel
    induction fuel with
    | zero => exact fun _ => rfl
    | succ fuel ih =>
        intro k
        have hframe : (s'.scopes[k]?).map (fun c => (c.parent?, c.kind, c.span))
            = (s.scopes[k]?).map fun c => (c.parent?, c.kind, c.span) := by
          rw [← List.getElem?_map, ← List.getElem?_map]
          exact congrArg (·[k]?) hframes
        have hbinding := hbindings name k
        cases hs : s.scopes[k]? with
        | none =>
            rw [hs] at hframe
            rw [lookupFuel?, lookupFuel?, hs, Option.map_eq_none_iff.mp hframe]
        | some c =>
            rw [hs] at hframe
            obtain ⟨c', hs', heq⟩ := Option.map_eq_some_iff.mp hframe
            rw [binding?, binding?, hs, hs', Option.bind_some, Option.bind_some] at hbinding
            have hparent : c'.parent? = c.parent? := (Prod.mk.inj heq).1
            -- The search stops where the name is bound, in both at the same scope.
            cases hfind : c.find? name with
            | some b =>
                rw [lookupFuel?_of_some hs hfind, lookupFuel?_of_some hs' (hbinding.trans hfind)]
            | none =>
                rw [lookupFuel?_of_none hs hfind, lookupFuel?_of_none hs' (hbinding.trans hfind),
                  hparent]
                -- Else both climb to the same parent.
                cases c.parent? with
                | none => rfl
                | some parent => exact ih parent
  rw [lookup?, lookup?, length_of_frames hframes]
  exact hfuel _ _

/-! ### Places -/

/-- The place of a node behind a mark. -/
theorem scopeOf?_mark (s : Scopes) (m : Mark) (i : Nat) :
    (s.mark m).scopeOf? i = match m with
      | .opened _ _ _ => s.scopeOf? i
      | .declared b k => if b.node = i then some k else s.scopeOf? i
      | .placed node k => if node = i then (s.scopeOf? i).or (some k) else s.scopeOf? i := by
  cases m with
  | opened parent? kind span => rfl
  | declared b k =>
      by_cases h : b.node = i <;> simp [mark, scopeOf?, h]
  | placed node k =>
      by_cases h : node = i
      · subst h
        simp only [mark, place]
        cases hplace : s.scopeOf? node with
        | some k' => simp [hplace]
        | none => simp [scopeOf?]
      · simp only [mark, place, if_neg h]
        split
        · rfl
        · simp [scopeOf?, h]

/-- A node that is not lost is looked up from the same scope when the lost
names are not declared. -/
theorem scopeOf?_marked_filter (hi : loses root i = false) (h : s'.scopeOf? i = s.scopeOf? i)
    (ms : List Mark) :
    (s'.marked (ms.filter (Mark.kept root))).scopeOf? i = (s.marked ms).scopeOf? i := by
  induction ms generalizing s s' with
  | nil => exact h
  | cons m ms ih =>
      rw [List.filter_cons, marked_cons]
      cases hkept : Mark.kept root m with
      | true =>
          rw [if_pos rfl, marked_cons]
          refine ih ?_
          rw [scopeOf?_mark, scopeOf?_mark, h]
      | false =>
          -- Only the declaration of a lost name is left out.
          rw [if_neg Bool.false_ne_true]
          refine ih (h.trans ?_)
          rw [scopeOf?_mark]
          cases m with
          | opened parent? kind span => cases hkept
          | placed node k => cases hkept
          | declared b k =>
              have hne : b.node ≠ i := by
                rintro rfl
                rw [Mark.kept, hi] at hkept
                cases hkept
              exact (if_neg hne).symm

/-! ### Scopes with and without the comments -/

/-- A module starts with the same scope without its comments. -/
theorem moduleScope_withoutComments (n : Node) : moduleScope n.withoutComments = moduleScope n := by
  rw [moduleScope, Node.span_withoutComments, moduleScope]

/-- A module opens the scopes that it opens without the comments. -/
theorem frames_ofTree (hn : n.ids.Nodup) :
    (ofTree n).frames = (ofTree n.withoutComments).frames := by
  rw [ofTree_eq_marked, ofTree_eq_marked, treeMarks_withoutComments hn, moduleScope_withoutComments]
  exact frames_marked_filter rfl n (treeMarks n.withoutComments)

/-- A node that is not lost is looked up from the scope that it is looked up
from without the comments. -/
theorem scopeOf?_ofTree (hn : n.ids.Nodup) (hi : loses n i = false) :
    (ofTree n).scopeOf? i = (ofTree n.withoutComments).scopeOf? i := by
  rw [ofTree_eq_marked, ofTree_eq_marked, treeMarks_withoutComments hn, moduleScope_withoutComments]
  exact scopeOf?_marked_filter hi rfl (treeMarks n.withoutComments)

/-- Trees that differ in comments and lose the same names have the same
scopes. -/
theorem ofTree_eq_of_loses (hsame : root'.withoutComments = root.withoutComments)
    (hids : root.ids.Nodup) (hids' : root'.ids.Nodup) (hloses : loses root' = loses root) :
    ofTree root' = ofTree root := by
  have hkept : Mark.kept root' = Mark.kept root := by
    funext m
    cases m with
    | declared b k => rw [Mark.kept, hloses, Mark.kept]
    | opened parent? kind span => rfl
    | placed node scope => rfl
  rw [ofTree_eq_marked, ofTree_eq_marked, treeMarks_withoutComments hids',
    treeMarks_withoutComments hids, hkept, ← moduleScope_withoutComments root', hsame,
    moduleScope_withoutComments]

/-- The scopes of one tree and those of another come to the same for some
nodes. -/
structure Agree (s' s : Scopes) (nodes : List Node) : Prop where
  /-- The same scopes stand inside one another, in the same places. -/
  frames : s'.frames = s.frames
  /-- They bind the same names by the same nodes. -/
  bindings : ∀ name k, s'.binding? name k = s.binding? name k
  /-- The nodes refer to the same declarations. -/
  references : ∀ n ∈ nodes, s'.resolve? n = s.resolve? n

/-- If the scopes of trees that differ in comments bind the same, all nodes that
neither tree loses refer to the same. -/
theorem agree_of_bindings (hsame : root'.withoutComments = root.withoutComments)
    (hids : root.ids.Nodup) (hids' : root'.ids.Nodup)
    (hbindings : ∀ name k, (ofTree root').binding? name k = (ofTree root).binding? name k) :
    (ofTree root').Agree (ofTree root)
      (root'.preorder.filter fun n => !loses root' n.id && !loses root n.id) := by
  have hframes : (ofTree root').frames = (ofTree root).frames := by
    rw [frames_ofTree hids', hsame, frames_ofTree hids]
  refine ⟨hframes, hbindings, fun n hn => ?_⟩
  have hkept : loses root' n.id = false ∧ loses root n.id = false := by
    simpa using (List.mem_filter.mp hn).2
  rw [resolve?, resolve?, scopeOf?_ofTree hids' hkept.1, hsame, scopeOf?_ofTree hids hkept.2]
  cases (ofTree root.withoutComments).scopeOf? n.id with
  | none => rfl
  | some k => exact lookup?_congr hframes hbindings k n.lexeme

/-! ### Lost names -/

/-- What a module declares is not lost. -/
theorem loses_of_declared (hn : n.ids.Nodup) (h : .declared b k ∈ treeMarks n) :
    loses n b.node = false := by
  rw [treeMarks_withoutComments hn] at h
  have hkept : (!loses n b.node) = true := (List.mem_filter.mp h).2
  simpa using hkept

/-- A lost name is lost by its number. -/
theorem loses_of_mem_lostNames (hx : x ∈ lostNames n) : loses n x.id = true :=
  List.any_eq_true.mpr ⟨x, hx, decide_eq_true rfl⟩

/-- Nothing refers to a lost name. -/
theorem node_ne_of_resolve? (hn : n.ids.Nodup) (h : (ofTree n).resolve? m = some b)
    (hx : x ∈ lostNames n) : b.node ≠ x.id := by
  intro hnode
  obtain ⟨k, -, hlookup⟩ := Option.bind_eq_some_iff.mp h
  obtain ⟨-, c, hc, hb⟩ := mem_of_lookupFuel? hlookup
  obtain ⟨k', hk'⟩ := List.mem_iff_getElem?.mp hc
  have hkept := loses_of_declared hn (declared_of_mem_bindings hk' hb)
  rw [hnode, loses_of_mem_lostNames hx] at hkept
  cases hkept

/-- A lost name is in the tree without the comments. -/
theorem mem_preorder_of_mem_lostNames (hx : x ∈ lostNames n) :
    x ∈ n.withoutComments.preorder := by
  induction n using Node.childrenRec with
  | h l cs ih =>
      rw [lostNames_eq] at hx
      rcases List.mem_append.mp hx with hx | hx
      · split at hx
        · obtain ⟨c, hc, hx⟩ := namesBehind_cases ‹_› hx
          refine Node.mem_preorder.mpr (.inr ⟨c, hc, ?_⟩)
          rcases hx with hx | rfl
          · exact (name_of_mem_patternNames hx).1
          · exact Node.mem_preorder_self x
        · exact absurd hx List.not_mem_nil
      · obtain ⟨c, hc, hx⟩ := List.mem_flatMap.mp hx
        have hcomment : c.isComment = false := by
          refine Bool.eq_false_iff.mpr fun hcomment => ?_
          -- Nothing below a comment is lost.
          obtain ⟨d, hd, -⟩ := exists_child_of_loses (loses_of_mem_lostNames hx)
          rw [Node.children_of_isComment hcomment] at hd
          exact absurd hd List.not_mem_nil
        exact Node.mem_preorder.mpr
          (.inr ⟨c.withoutComments, Node.withoutComments_mem_children hc hcomment, ih c hc hx⟩)

/-- A scope of a module binds a name as the walk declares it there first. -/
theorem binding?_ofTree (hspans : root.SpansNested) (name : String) (k : Nat) :
    (ofTree root).binding? name k = (treeMarks root).findSome? (Mark.declared? name k) := by
  rw [ofTree_eq_marked, binding?_marked (allAdmitted_treeMarks hspans)]
  have hnone : (moduleScope root).binding? name k = none := by
    cases k <;> rfl
  rw [hnone, Option.none_or]

/-- A mark that declares under a name. -/
theorem eq_of_declared? {m : Mark} (h : Mark.declared? name k m = some b) :
    m = .declared b k ∧ b.name = name := by
  cases m with
  | opened parent? kind span => cases h
  | placed node scope => cases h
  | declared b' k' =>
      rw [Mark.declared?] at h
      split at h
      · obtain ⟨rfl, hname⟩ := ‹_ ∧ _›
        obtain rfl := Option.some.inj h
        exact ⟨rfl, hname⟩
      · cases h

/-- If of the marks that are kept for one tree, and of those that are kept for
another, the first one under a name is kept for both, it is the same. -/
theorem findSome?_filter_kept
    (h : ∀ b, (ms.filter (Mark.kept root)).findSome? (Mark.declared? name k) = some b →
      loses root' b.node = false)
    (h' : ∀ b, (ms.filter (Mark.kept root')).findSome? (Mark.declared? name k) = some b →
      loses root b.node = false) :
    (ms.filter (Mark.kept root')).findSome? (Mark.declared? name k)
      = (ms.filter (Mark.kept root)).findSome? (Mark.declared? name k) := by
  induction ms with
  | nil => rfl
  | cons m ms ih =>
      rw [List.filter_cons] at h h'
      rw [List.filter_cons, List.filter_cons]
      cases hm : Mark.declared? name k m with
      | none =>
          have hskip : ∀ n, (if Mark.kept n m = true then m :: ms.filter (Mark.kept n)
              else ms.filter (Mark.kept n)).findSome? (Mark.declared? name k)
              = (ms.filter (Mark.kept n)).findSome? (Mark.declared? name k) := by
            intro n
            split
            · rw [List.findSome?_cons, hm]
            · rfl
          rw [hskip] at h h' ⊢
          rw [hskip]
          exact ih h h'
      | some b =>
          obtain ⟨rfl, -⟩ := eq_of_declared? hm
          have hkept : ∀ n, Mark.kept n (.declared b k) = !loses n b.node := fun n => rfl
          have hfirst : ∀ ms : List Mark,
              (.declared b k :: ms).findSome? (Mark.declared? name k) = some b := by
            intro ms
            rw [List.findSome?_cons, hm]
          rw [hkept] at h h' ⊢
          rw [hkept]
          -- A first declaration that one tree loses cannot be kept for the other one.
          cases hl : loses root b.node <;> cases hl' : loses root' b.node <;>
            rw [hl] at h <;> rw [hl'] at h'
          · exact (hfirst _).trans (hfirst _).symm
          · exact absurd (hl'.symm.trans (h b (hfirst _))) (by decide)
          · exact absurd (hl.symm.trans (h' b (hfirst _))) (by decide)
          · exact ih h h'

end Scopes

end ScriptRefactor
