import ScriptRefactor.Proofs.Refactoring.RenamedTree

/-!
# `ScriptRefactor.Proofs.Refactoring.Rename`: renaming captures no name

`renameIdentifier` changes how a declaration is called, and nothing
else (`resolve?_renamed`): the scopes of the renamed tree are those of
the tree with the new name in the one declaration, and each name refers
to the declaration that it referred to before.

The new name must be none that the tree uses. Three facts make this
enough.

* An occurrence is replaced exactly if it is looked up to the
  declaration (`hits_iff`).
* A declared node is looked up from the scope it is declared in, so in
  one scope either all declarations of the old name are replaced or
  none is (`name_binding_iff`).
* A search for the new name in the renamed scopes stops where the search
  for the old one stopped (`lookupFuel?_renamed`).
-/

set_option autoImplicit false

namespace ScriptRefactor

open Syntax

/-- What holds of the names in a parsed module. -/
structure Syntax.Tree.WellNamed (t : Tree) : Prop where
  /-- The root is a module. -/
  program : t.root.kind = .construct .program
  /-- Different nodes have different numbers. -/
  ids : t.root.ids.Nodup
  /-- Names are leaves. -/
  leaf : ∀ n ∈ t.nodes, n.kind.isName = true → n.children = []
  /-- Names hold the text that they stand for. -/
  text : ∀ n ∈ t.nodes, n.kind.isName = true → t.text n = n.lexeme
  /-- Different names stand at different places. -/
  span : ∀ n ∈ t.nodes, ∀ m ∈ t.nodes, n.kind.isName = true → m.kind.isName = true →
    n.span = m.span → n.id = m.id
  /-- Names in short form stand in objects, and words are no names. -/
  spelled : Refactoring.Renaming.Spelled t.root

instance (t : Tree) : Decidable t.WellNamed :=
  decidable_of_iff (t.root.kind = .construct .program ∧ t.root.ids.Nodup
      ∧ (∀ n ∈ t.nodes, n.kind.isName = true → n.children = [])
      ∧ (∀ n ∈ t.nodes, n.kind.isName = true → t.text n = n.lexeme)
      ∧ (∀ n ∈ t.nodes, ∀ m ∈ t.nodes, n.kind.isName = true → m.kind.isName = true →
        n.span = m.span → n.id = m.id)
      ∧ Refactoring.Renaming.Spelled t.root)
    ⟨fun ⟨h1, h2, h3, h4, h5, h6⟩ => ⟨h1, h2, h3, h4, h5, h6⟩, fun h =>
      ⟨h.program, h.ids, h.leaf, h.text, h.span, h.spelled⟩⟩

/-- A parsed module has different numbers for its nodes. -/
theorem Syntax.Tree.nodup_ids_of_parse {d : Dialect} {path? : Option String} {text : String}
    {t : Tree} (h : Tree.parse d path? text = .ok t) : t.root.ids.Nodup := by
  unfold Tree.parse Grammar.parse Grammar.parseWith at h
  cases hrun : Grammar.Parser.statements.runAt ⟨d, true, true, true⟩ ⟨text.toList, 0, []⟩ with
  | error pos =>
      rw [hrun] at h
      cases h
  | ok found =>
      rw [hrun] at h
      cases h
      exact Node.nodup_ids_numbered _

/-- The declaration under a new name, if it is the one of that node. -/
def Binding.renamed (decl : Nat) (new : String) (b : Binding) : Binding :=
  if b.node = decl then { b with name := new } else b

namespace Scopes

variable {t : Scopes} {s : Scope} {b : Binding} {decl k fuel : Nat} {old new x : String}

/-! ### Looking up in renamed scopes -/

/-- The renamed declaration is called `old`, and nothing is called
`new`. -/
def Renames (t : Scopes) (decl : Nat) (old new : String) : Prop :=
  ∀ s ∈ t.scopes, ∀ b ∈ s.bindings, b.name ≠ new ∧ (b.node = decl → b.name = old)

/-- In a renamed scope, the declaration of `x` is found under the new
name if it is renamed, and under `x` otherwise. -/
theorem find?_renamed_of_some (hs : (s.bindings.map Binding.name).Nodup)
    (hnames : ∀ b ∈ s.bindings, b.name ≠ new ∧ (b.node = decl → b.name = old)) (hx : x ≠ new)
    (hb : s.find? x = some b) :
    (s.map (Binding.renamed decl new)).find? (if b.node = decl then new else x)
      = some (b.renamed decl new) := by
  have hmem := List.mem_of_find?_eq_some hb
  have hbx : b.name = x := by simpa using List.find?_some hb
  -- Of the declarations of the scope, only `b` is called `x`.
  have honly : ∀ b' ∈ s.bindings, b'.name = x → b' = b := fun b' hb' hname =>
    List.inj_on_of_nodup_map hs hb' hmem (hname.trans hbx.symm)
  have hiff : ∀ b' ∈ s.bindings,
      ((b'.renamed decl new).name = if b.node = decl then new else x) ↔ b'.name = x := by
    intro b' hb'
    obtain ⟨hnew', hold'⟩ := hnames b' hb'
    by_cases hdecl : b.node = decl
    · have hold : x = old := hbx.symm.trans ((hnames b hmem).2 hdecl)
      rw [if_pos hdecl]
      constructor
      · intro h
        by_cases hdecl' : b'.node = decl
        · exact (hold' hdecl').trans hold.symm
        · rw [Binding.renamed, if_neg hdecl'] at h
          exact absurd h hnew'
      · intro h
        rw [honly b' hb' h, Binding.renamed, if_pos hdecl]
    · rw [if_neg hdecl]
      constructor
      · intro h
        by_cases hdecl' : b'.node = decl
        · rw [Binding.renamed, if_pos hdecl'] at h
          exact absurd h.symm hx
        · rwa [Binding.renamed, if_neg hdecl'] at h
      · intro h
        rw [honly b' hb' h, Binding.renamed, if_neg hdecl]
        exact hbx
  have hsome : ((s.map (Binding.renamed decl new)).find?
      (if b.node = decl then new else x)).isSome = true := by
    rw [Scope.find?, List.find?_isSome]
    exact ⟨b.renamed decl new, List.mem_map_of_mem hmem, by simpa using (hiff b hmem).mpr hbx⟩
  obtain ⟨found, hfound⟩ := Option.isSome_iff_exists.mp hsome
  obtain ⟨b', hb', rfl⟩ := List.mem_map.mp (List.mem_of_find?_eq_some hfound)
  have hname := of_decide_eq_true (List.find?_some
    (p := fun c : Binding => decide (c.name = if b.node = decl then new else x)) hfound)
  rw [hfound, honly b' hb' ((hiff b' hb').mp hname)]

/-- In a renamed scope that did not declare `x`, neither the new name is
found, if the search is for the renamed declaration, nor `x`, if it is
not. -/
theorem find?_renamed_of_none (hnames : ∀ b ∈ s.bindings, b.name ≠ new ∧ (b.node = decl → b.name = old))
    (hx : x ≠ new) (hs : s.find? x = none) :
    (s.map (Binding.renamed decl new)).find? x = none
      ∧ (x = old → (s.map (Binding.renamed decl new)).find? new = none) := by
  have hne : ∀ b ∈ s.bindings, b.name ≠ x := by
    simpa [Scope.find?, List.find?_eq_none] using hs
  have hnone : ∀ y, (∀ b ∈ s.bindings, (b.renamed decl new).name ≠ y) →
      (s.map (Binding.renamed decl new)).find? y = none := by
    intro y hy
    simpa [Scope.find?, Scope.map, List.find?_eq_none] using hy
  constructor
  · refine hnone x fun b hb => ?_
    unfold Binding.renamed
    split
    · exact hx.symm
    · exact hne b hb
  · rintro rfl
    refine hnone new fun b hb => ?_
    unfold Binding.renamed
    split
    · rename_i hdecl
      exact absurd ((hnames b hb).2 hdecl) (hne b hb)
    · exact (hnames b hb).1

/-- A search in the renamed scopes finds what the search for `x` found:
under the new name if that is the renamed declaration, and under `x`
otherwise. -/
theorem lookupFuel?_renamed (ht : t.NamesDiffer) (hnames : t.Renames decl old new) (hx : x ≠ new)
    (fuel k : Nat) :
    (t.map (Binding.renamed decl new)).lookupFuel?
        (if (t.lookupFuel? x fuel k).any (·.node = decl) then new else x) fuel k
      = (t.lookupFuel? x fuel k).map (Binding.renamed decl new) := by
  induction fuel generalizing k with
  | zero => rfl
  | succ fuel ih =>
      have hget : (t.map (Binding.renamed decl new)).scopes[k]?
          = (t.scopes[k]?).map (Scope.map (Binding.renamed decl new)) := List.getElem?_map
      cases hs : t.scopes[k]? with
      | none =>
          rw [hs] at hget
          rw [lookupFuel?, hget, lookupFuel?, hs]
          rfl
      | some s =>
          rw [hs] at hget
          have hmem := List.mem_of_getElem? hs
          cases hb : s.find? x with
          | some b =>
              rw [lookupFuel?_of_some hs hb]
              refine lookupFuel?_of_some hget ?_
              have hfind := find?_renamed_of_some (ht s hmem) (hnames s hmem) hx hb
              simpa using hfind
          | none =>
              rw [lookupFuel?_of_none hs hb]
              obtain ⟨hold, hnew⟩ := find?_renamed_of_none (hnames s hmem) hx hb
              have hnone : (s.map (Binding.renamed decl new)).find?
                  (if (s.parent?.bind (t.lookupFuel? x fuel)).any (·.node = decl) then new else x)
                    = none := by
                split
                · rename_i hany
                  -- The renamed declaration is found under its old name only.
                  refine hnew ?_
                  cases hfound : s.parent?.bind (t.lookupFuel? x fuel) with
                  | none =>
                      rw [hfound] at hany
                      cases hany
                  | some b =>
                      rw [hfound] at hany
                      obtain ⟨parent, -, hfound⟩ := Option.bind_eq_some_iff.mp hfound
                      obtain ⟨hbx, s', hs', hbs⟩ := mem_of_lookupFuel? hfound
                      exact hbx.symm.trans ((hnames s' hs' b hbs).2 (of_decide_eq_true hany))
                · exact hold
              rw [lookupFuel?_of_none hget hnone]
              show s.parent?.bind _ = _
              cases s.parent? with
              | none => rfl
              | some parent => exact ih parent

end Scopes

namespace Refactoring

open Scopes (declared_of_mem_bindings namesDiffer_ofTree)

/-! ### What the edits replace -/

/-- The renaming of a declaration, with the numbers for the nodes that
it adds. -/
def renamingOf (t : Tree) (old new : String) (decl : Node) (added : Nat → Nat) : Renaming :=
  ⟨renameIdentifier t old new decl, old, new, added⟩

section Hits

variable {t : Tree} {old new : String} {decl n : Node} {added : Nat → Nat} {e : Edit}

/-- An edit replaces an occurrence of the old name that is looked up to
the declaration. -/
theorem mem_renameIdentifier (hne : old ≠ new) :
    e ∈ renameIdentifier t old new decl ↔
      ∃ n parent, (n, parent) ∈ t.root.withParents ∧ n.kind.isName = true ∧ t.text n = old
        ∧ ((Scopes.ofTree t.root).resolve? n).any (·.node = decl.id) = true
        ∧ e = Edit.replaceNode n (renamedText old new parent n) := by
  rw [renameIdentifier, if_neg hne]
  simp only [List.mem_filterMap, Prod.exists, Option.ite_none_right_eq_some, Bool.and_eq_true,
    decide_eq_true_eq, Option.some.injEq]
  constructor
  · rintro ⟨n, parent, hmem, ⟨⟨hname, htext⟩, hres⟩, rfl⟩
    exact ⟨n, parent, hmem, hname, htext, hres, rfl⟩
  · rintro ⟨n, parent, hmem, hname, htext, hres, rfl⟩
    exact ⟨n, parent, hmem, ⟨⟨hname, htext⟩, hres⟩, rfl⟩

/-- Every node but the root has a parent. -/
theorem exists_parent (hn : n ∈ t.nodes) (hroot : n ≠ t.root) :
    ∃ parent, (n, parent) ∈ t.root.withParents := by
  rcases Node.mem_preorder.mp hn with h | ⟨c, hc, hn⟩
  · exact absurd h hroot
  · have hmem : n ∈ t.root.withParents.map Prod.fst := by
      rw [Node.map_fst_withParents]
      exact List.mem_flatMap.mpr ⟨c, hc, hn⟩
    obtain ⟨⟨n', parent⟩, hparent, rfl⟩ := List.mem_map.mp hmem
    exact ⟨parent, hparent⟩

/-- A node with a parent is one of the nodes. -/
theorem mem_nodes_of_mem_withParents {parent : Node} (h : (n, parent) ∈ t.root.withParents) :
    n ∈ t.nodes := by
  have hmem : n ∈ t.root.withParents.map Prod.fst := List.mem_map_of_mem h
  rw [Node.map_fst_withParents, List.mem_flatMap] at hmem
  exact Node.mem_preorder.mpr (.inr hmem)

/-- A name is replaced exactly if it is an occurrence of the old name
that is looked up to the declaration. -/
theorem hits_iff (ht : t.WellNamed) (hne : old ≠ new) (hn : n ∈ t.nodes)
    (hname : n.kind.isName = true) :
    (renamingOf t old new decl added).hits n = true ↔
      n.lexeme = old ∧ ((Scopes.ofTree t.root).resolve? n).any (·.node = decl.id) = true := by
  have hhits : (renamingOf t old new decl added).hits n = true ↔
      ∃ e ∈ renameIdentifier t old new decl, e.span = n.span := by
    simp [Renaming.hits, Renaming.replaces, renamingOf, hname]
  rw [hhits]
  constructor
  · rintro ⟨e, he, hspan⟩
    obtain ⟨m, parent, hmem, hm, htext, hres, rfl⟩ := (mem_renameIdentifier hne).mp he
    have hmn := mem_nodes_of_mem_withParents hmem
    -- The edit stands at the place of `m`, so `m` is the name.
    have heq : m = n := Node.eq_of_id_eq ht.ids hmn hn (ht.span m hmn n hn hm hname hspan)
    rw [← heq, ← ht.text m hmn hm]
    exact ⟨htext, hres⟩
  · rintro ⟨htext, hres⟩
    have hroot : n ≠ t.root := by
      rintro rfl
      rw [ht.program] at hname
      cases hname
    obtain ⟨parent, hmem⟩ := exists_parent hn hroot
    exact ⟨_, (mem_renameIdentifier hne).mpr
      ⟨n, parent, hmem, hname, (ht.text n hn hname).trans htext, hres, rfl⟩, rfl⟩

end Hits

/-! ### The scopes of the renamed tree -/

section Scopes

variable {t : Tree} {old new : String} {decl n : Node} {added : Nat → Nat} {b b' : Binding}
  {s : Scope} {k : Nat}

/-- The old name was declared by the renamed node. -/
def Declares (t : Tree) (old : String) (decl : Node) : Prop :=
  ∃ s ∈ (Scopes.ofTree t.root).scopes, ∃ b ∈ s.bindings, b.name = old ∧ b.node = decl.id

/-- No name of the tree is `new`. -/
def Unused (t : Tree) (new : String) : Prop :=
  ∀ n ∈ t.nodes, n.kind.isName = true → t.text n ≠ new

/-- A declared name is none that the tree does not use. -/
theorem name_ne_of_declared (ht : t.WellNamed) (hnew : Unused t new)
    (hb : .declared b k ∈ Scopes.treeMarks t.root) : b.name ≠ new := by
  obtain ⟨m, hm, hname, kind, rfl⟩ := Scopes.declared_of_mem_treeMarks hb
  have h := hnew m hm hname
  rwa [ht.text m hm hname] at h

/-- A declaring name is replaced exactly if the old name is looked up
from its scope to the declaration. -/
theorem replaces_iff (ht : t.WellNamed) (hne : old ≠ new)
    (hb : .declared b k ∈ Scopes.treeMarks t.root) :
    (renamingOf t old new decl added).replaces b.span = true ↔
      b.name = old ∧
        ((Scopes.ofTree t.root).lookup? k old).any (·.node = decl.id) = true := by
  have hplace : (Scopes.ofTree t.root).scopeOf? b.node = some k := by
    rw [Scopes.ofTree_eq_marked]
    exact Scopes.scopeOf?_marked_of_declared hb (Scopes.oneScope_treeMarks ht.ids)
  obtain ⟨m, hm, hname, kind, rfl⟩ := Scopes.declared_of_mem_treeMarks hb
  have hplace : (Scopes.ofTree t.root).scopeOf? m.id = some k := hplace
  have hhits : (renamingOf t old new decl added).hits m
      = (renamingOf t old new decl added).replaces m.span := by
    rw [Renaming.hits, hname, Bool.true_and]
  show (renamingOf t old new decl added).replaces m.span = true ↔ m.lexeme = old ∧ _
  rw [← hhits, hits_iff ht hne hm hname, Scopes.resolve?, hplace, Option.bind_some]
  refine and_congr_right fun htext => ?_
  rw [htext]

/-- In one scope, the new names are the same exactly if the old ones
were. -/
theorem name_binding_iff (ht : t.WellNamed) (hne : old ≠ new) (hnew : Unused t new)
    (hb : .declared b k ∈ Scopes.treeMarks t.root)
    (hb' : .declared b' k ∈ Scopes.treeMarks t.root) :
    ((renamingOf t old new decl added).binding b).name
      = ((renamingOf t old new decl added).binding b').name ↔ b.name = b'.name := by
  have hb1 := name_ne_of_declared ht hnew hb
  have hb2 := name_ne_of_declared ht hnew hb'
  have h1 : (renamingOf t old new decl added).replaces b.span = true ↔ _ := replaces_iff ht hne hb
  have h2 : (renamingOf t old new decl added).replaces b'.span = true ↔ _ := replaces_iff ht hne hb'
  unfold Renaming.binding
  -- Both are replaced, one of them, or none.
  split <;> rename_i hr <;> split <;> rename_i hr'
  · exact iff_of_true rfl ((h1.mp hr).1.trans (h2.mp hr').1.symm)
  · refine iff_of_false hb2.symm fun hname => hr' ?_
    exact h2.mpr ⟨hname.symm.trans (h1.mp hr).1, (h1.mp hr).2⟩
  · refine iff_of_false hb1 fun hname => hr ?_
    exact h1.mpr ⟨hname.trans (h2.mp hr').1, (h2.mp hr').2⟩
  · exact Iff.rfl

/-- The scopes of the renamed tree are those of the tree, with the new
name in the declarations that are replaced. -/
theorem ofTree_node (ht : t.WellNamed) (hne : old ≠ new) (hnew : Unused t new) :
    Scopes.ofTree ((renamingOf t old new decl added).node t.root)
      = (Scopes.ofTree t.root).map (renamingOf t old new decl added).binding := by
  have hroot : (renamingOf t old new decl added).hits t.root = false :=
    Renaming.hits_eq_false (by rw [ht.program]; rfl)
  have hexport : t.root.is .exportSpecifier = false := by rw [Node.is, ht.program]; rfl
  have hmodule : Scopes.moduleScope ((renamingOf t old new decl added).node t.root)
      = (Scopes.moduleScope t.root).map (renamingOf t old new decl added).binding := by
    rw [Renaming.node_of_not_hits hroot]
    rfl
  have hmarks : Scopes.treeMarks ((renamingOf t old new decl added).node t.root)
      = (Scopes.treeMarks t.root).map (Mark.map (renamingOf t old new decl added).binding) := by
    rw [Scopes.treeMarks, Renaming.children_node hroot hexport, hmodule]
    refine Renaming.walkAllMarks_map ?_ rfl 0
    intro c hc t t' scope hshape
    exact Renaming.walkMarks_node (ht.spelled.child hc) hshape scope
  rw [Scopes.ofTree_eq_marked, hmodule, hmarks, Scopes.ofTree_eq_marked]
  refine Scopes.marked_map (fun b => ?_) fun b b' k hb hb' => ?_
  · unfold Renaming.binding
    split <;> rfl
  · -- Nothing is bound before the walk.
    have hdeclared : ∀ b, ((Scopes.moduleScope t.root).Binds b k
        ∨ .declared b k ∈ Scopes.treeMarks t.root) → .declared b k ∈ Scopes.treeMarks t.root := by
      rintro b (⟨s, hs, hb⟩ | hb)
      · rw [List.mem_singleton.mp (List.mem_of_getElem? hs)] at hb
        exact absurd hb List.not_mem_nil
      · exact hb
    exact name_binding_iff ht hne hnew (hdeclared b hb) (hdeclared b' hb')

/-- The renamed declaration is the only one of its node, and nothing is
called by the new name. -/
theorem renames_ofTree (ht : t.WellNamed) (hnew : Unused t new) (hdecl : Declares t old decl) :
    (Scopes.ofTree t.root).Renames decl.id old new := by
  intro s hs b hb
  obtain ⟨k, hk⟩ := List.mem_iff_getElem?.mp hs
  have hdeclared := declared_of_mem_bindings hk hb
  refine ⟨name_ne_of_declared ht hnew hdeclared, fun hnode => ?_⟩
  obtain ⟨s', hs', b', hb', hname', hnode'⟩ := hdecl
  obtain ⟨k', hk'⟩ := List.mem_iff_getElem?.mp hs'
  obtain ⟨m, hm, -, kind, rfl⟩ := Scopes.declared_of_mem_treeMarks hdeclared
  obtain ⟨m', hm', -, kind', rfl⟩ :=
    Scopes.declared_of_mem_treeMarks (declared_of_mem_bindings hk' hb')
  -- Both declarations are made by the one node of that number.
  have heq : m = m' := Node.eq_of_id_eq ht.ids hm hm' (hnode.trans hnode'.symm)
  rw [heq]
  exact hname'

/-- Of what the scopes bind, only the declaration of the node is
replaced. -/
theorem map_binding_eq_map_renamed (ht : t.WellNamed) (hne : old ≠ new) (hnew : Unused t new)
    (hdecl : Declares t old decl) :
    (Scopes.ofTree t.root).map (renamingOf t old new decl added).binding
      = (Scopes.ofTree t.root).map (Binding.renamed decl.id new) := by
  rw [Scopes.map, Scopes.map]
  congr 1
  refine List.map_congr_left fun s hs => ?_
  rw [Scope.map, Scope.map]
  congr 1
  refine List.map_congr_left fun b hb => ?_
  obtain ⟨k, hk⟩ := List.mem_iff_getElem?.mp hs
  have hfind : (Scopes.ofTree t.root).lookup? k b.name = some b :=
    Scopes.lookup?_of_mem_bindings (namesDiffer_ofTree t.root) hk hb
  have hiff : (renamingOf t old new decl added).replaces b.span = true ↔ b.node = decl.id := by
    rw [replaces_iff ht hne (declared_of_mem_bindings hk hb)]
    constructor
    · rintro ⟨hname, hany⟩
      rw [← hname, hfind] at hany
      exact of_decide_eq_true hany
    · intro hnode
      have hname := (renames_ofTree ht hnew hdecl s hs b hb).2 hnode
      refine ⟨hname, ?_⟩
      rw [← hname, hfind]
      exact decide_eq_true hnode
  unfold Renaming.binding Binding.renamed
  by_cases hnode : b.node = decl.id
  · rw [if_pos (hiff.mpr hnode), if_pos hnode]
    rfl
  · rw [if_neg (mt hiff.mp hnode), if_neg hnode]

/-- What corresponds to a name has its number, and the new name if it is
replaced. -/
theorem id_lexeme_name (hname : n.kind.isName = true) (r : Renaming) :
    (r.name n).id = n.id ∧ (r.name n).lexeme = if r.hits n then r.new else n.lexeme := by
  have h := Renaming.binding_name (r := r) hname .type
  have hhits : r.hits n = r.replaces n.span := by rw [Renaming.hits, hname, Bool.true_and]
  have hbinding : r.binding (n.binding .type)
      = ⟨if r.hits n then r.new else n.lexeme, n.id, n.span, .type⟩ := by
    rw [Renaming.binding, hhits]
    show (if r.replaces n.span = true then _ else _) = _
    split <;> rfl
  rw [hbinding] at h
  exact ⟨congrArg Binding.node h, congrArg Binding.name h⟩

/-- Each name refers to the declaration that it referred to before. -/
theorem resolve?_name (ht : t.WellNamed) (hne : old ≠ new) (hnew : Unused t new)
    (hdecl : Declares t old decl) (hn : n ∈ t.nodes) (hname : n.kind.isName = true) :
    (Scopes.ofTree ((renamingOf t old new decl added).node t.root)).resolve?
        ((renamingOf t old new decl added).name n)
      = ((Scopes.ofTree t.root).resolve? n).map (Binding.renamed decl.id new) := by
  have hrenames := renames_ofTree ht hnew hdecl
  have hlexeme : n.lexeme ≠ new := ht.text n hn hname ▸ hnew n hn hname
  obtain ⟨hid, htext⟩ := id_lexeme_name hname (renamingOf t old new decl added)
  rw [ofTree_node ht hne hnew, map_binding_eq_map_renamed ht hne hnew hdecl, Scopes.resolve?, hid]
  have hplace : ((Scopes.ofTree t.root).map (Binding.renamed decl.id new)).scopeOf? n.id
      = (Scopes.ofTree t.root).scopeOf? n.id := rfl
  rw [hplace, Scopes.resolve?]
  cases hscope : (Scopes.ofTree t.root).scopeOf? n.id with
  | none => rfl
  | some k =>
      have hhits : (renamingOf t old new decl added).hits n = true ↔ n.lexeme = old
          ∧ ((Scopes.ofTree t.root).resolve? n).any (·.node = decl.id) = true :=
        hits_iff ht hne hn hname
      rw [Scopes.resolve?, hscope, Option.bind_some] at hhits
      -- What is looked up to the declaration is called by the old name.
      have hany : ((Scopes.ofTree t.root).lookup? k n.lexeme).any (·.node = decl.id) = true →
          n.lexeme = old := by
        intro hany
        cases hfound : (Scopes.ofTree t.root).lookup? k n.lexeme with
        | none =>
            rw [hfound] at hany
            cases hany
        | some b =>
            rw [hfound] at hany
            obtain ⟨hbname, s, hs, hb⟩ := Scopes.mem_of_lookupFuel? hfound
            exact hbname.symm.trans ((hrenames s hs b hb).2 (of_decide_eq_true hany))
      have hwritten : ((renamingOf t old new decl added).name n).lexeme
          = if ((Scopes.ofTree t.root).lookup? k n.lexeme).any (·.node = decl.id) then new
            else n.lexeme := by
        rw [htext]
        by_cases h : ((Scopes.ofTree t.root).lookup? k n.lexeme).any (·.node = decl.id) = true
        · rw [if_pos (hhits.mpr ⟨hany h, h⟩), if_pos h]
          rfl
        · rw [if_neg fun hit => h (hhits.mp hit).2, if_neg h]
      have hlength : ((Scopes.ofTree t.root).map (Binding.renamed decl.id new)).scopes.length
          = (Scopes.ofTree t.root).scopes.length := List.length_map _
      rw [Option.bind_some, Option.bind_some, hwritten, Scopes.lookup?, hlength]
      exact Scopes.lookupFuel?_renamed (namesDiffer_ofTree t.root) hrenames hlexeme _ k

/-- A name that is added refers to nothing. -/
theorem resolve?_added (ht : t.WellNamed) (hne : old ≠ new) (hnew : Unused t new)
    (hadded : ∀ i, added i ∉ t.root.ids) {m : Node} (hm : ∃ i, m.id = added i) :
    (Scopes.ofTree ((renamingOf t old new decl added).node t.root)).resolve? m = none := by
  have hplace : (Scopes.ofTree ((renamingOf t old new decl added).node t.root)).scopeOf? m.id
      = (Scopes.ofTree t.root).scopeOf? m.id := by
    rw [ofTree_node ht hne hnew]
    rfl
  have hnone : (Scopes.ofTree t.root).scopeOf? m.id = none := by
    rw [Scopes.scopeOf?, Option.map_eq_none_iff, List.find?_eq_none]
    rintro ⟨i, k⟩ hik hi
    obtain rfl : i = m.id := of_decide_eq_true hi
    rw [Scopes.ofTree_eq_marked] at hik
    obtain ⟨j, hj⟩ := hm
    refine hadded j (hj ▸ ?_)
    rcases Scopes.mem_places_marked hik with h | h
    · exact absurd h List.not_mem_nil
    · exact Scopes.mem_ids_of_mem_treeMarks h
  rw [Scopes.resolve?, hplace, hnone, Option.bind_none]

end Scopes

/-! ### What the edits write -/

/-- Blanks aside, the text consists of the words and marks below some
nodes. -/
def Spells (text : String) (ns : List Node) : Prop :=
  text.toList.filter (· ≠ ' ')
    = (ns.flatMap Node.preorder).flatMap fun n => n.lexeme.toList.filter (· ≠ ' ')

/-- What stands in the renamed tree in place of a name: what the name
becomes, and the name it is still exported under. -/
def Renaming.inPlace (r : Renaming) (parent n : Node) : List Node :=
  r.node n :: if isLocalExport parent n && !n.isShort then r.exportedAs parent else []

/-- An edit writes what stands in the renamed tree in place of the name
that it replaces. -/
theorem spells_renamedText {t : Tree} {old new : String} {decl n parent : Node} {added : Nat → Nat}
    (ht : t.WellNamed) (hmem : (n, parent) ∈ t.root.withParents)
    (hhits : (renamingOf t old new decl added).hits n = true) :
    Spells (renamedText old new parent n)
      ((renamingOf t old new decl added).inPlace parent n) := by
  have hn := mem_nodes_of_mem_withParents hmem
  have hleaf : n.children = [] := ht.leaf n hn (Bool.and_eq_true_iff.mp hhits).1
  have hpair : ∀ k, Spells (old ++ ": " ++ new)
      [(renamingOf t old new decl added).pair k n.label (n.children.map
        (renamingOf t old new decl added).node)] := by
    intro k
    rw [hleaf]
    simp [Spells, Renaming.pair, Renaming.leafAt, Renaming.value, Node.preorder, Node.forest,
      Node.lexeme, Node.label, renamingOf]
  unfold Renaming.inPlace renamedText
  rcases Renaming.node_of_hits hhits with ⟨hk, h⟩ | ⟨hk, h⟩ | ⟨hfull, h⟩
  · have hshort : n.isShort = true := by simp [Node.isShort, Node.is, hk]
    have hkind : (n.is .shorthandPropertyIdentifier || n.is .shorthandPropertyIdentifierPattern)
        = true := hshort
    rw [h, hshort, if_pos hkind, Bool.not_true, Bool.and_false]
    exact hpair _
  · have hshort : n.isShort = true := by simp [Node.isShort, Node.is, hk]
    have hkind : (n.is .shorthandPropertyIdentifier || n.is .shorthandPropertyIdentifierPattern)
        = true := hshort
    rw [h, hshort, if_pos hkind, Bool.not_true, Bool.and_false]
    exact hpair _
  · have hkind : (n.is .shorthandPropertyIdentifier || n.is .shorthandPropertyIdentifierPattern)
        = false := hfull
    rw [h, hfull, hkind, hleaf]
    cases hexport : isLocalExport parent n with
    | false => simp [Spells, Node.preorder, Node.forest, Node.lexeme, Node.label, renamingOf]
    | true =>
        simp only [isLocalExport, Bool.and_eq_true] at hexport
        obtain ⟨⟨hspecifier, halias⟩, hown⟩ := hexport
        -- The name of the specifier is the one that is replaced.
        have hany : (parent.child? .name).any (fun own =>
            (renamingOf t old new decl added).hits own && !own.isShort) = true := by
          cases hc : parent.child? .name with
          | none =>
              rw [hc] at hown
              cases hown
          | some own =>
              rw [hc] at hown
              have hparent := (Node.mem_withParents hmem).1
              have hmemOwn : own ∈ t.nodes := Node.mem_preorder_trans hparent
                (Node.mem_preorder_of_child (Node.mem_of_child? hc))
              have heq : own = n := Node.eq_of_id_eq ht.ids hmemOwn hn (of_decide_eq_true hown)
              rw [heq, Option.any_some, hhits, hfull]
              rfl
        have hexported : (renamingOf t old new decl added).exportedAs parent = _ :=
          if_pos (by rw [hspecifier, halias, hany]; rfl)
        rw [hexported]
        simp [Spells, Renaming.leafAt, Node.preorder, Node.forest, Node.lexeme, Node.label,
          renamingOf]

/-- Renaming a declaration to an unused name captures nothing. The edits
write the renamed tree; its scopes are those of the tree, with the one
declaration under its new name; every name of the tree is in it, and
refers to the declaration that it referred to before, if to any; and
the names that are added refer to nothing. -/
theorem renameIdentifier_keeps_bindings (t : Tree) (ht : t.WellNamed) (old new : String)
    (decl : Node) (hdecl : Declares t old decl) (hnew : Unused t new) (added : Nat → Nat)
    (hadded : ∀ i, added i ∉ t.root.ids) :
    let r := renamingOf t old new decl added
    (∀ e ∈ renameIdentifier t old new decl, ∃ n parent, (n, parent) ∈ t.root.withParents
        ∧ r.hits n = true ∧ e.span = n.span ∧ Spells e.replacement (r.inPlace parent n))
      ∧ Scopes.ofTree (r.node t.root)
          = (Scopes.ofTree t.root).map (Binding.renamed decl.id new)
      ∧ (∀ n ∈ t.nodes, n.kind.isName = true → r.name n ∈ (r.node t.root).preorder
          ∧ (Scopes.ofTree (r.node t.root)).resolve? (r.name n)
            = ((Scopes.ofTree t.root).resolve? n).map (Binding.renamed decl.id new))
      ∧ (∀ m ∈ (r.node t.root).preorder, m.kind.isName = true →
          (∃ n ∈ t.nodes, n.kind.isName = true ∧ m = r.name n)
            ∨ (Scopes.ofTree (r.node t.root)).resolve? m = none) := by
  have hne : old ≠ new := by
    obtain ⟨s, hs, b, hb, hname, -⟩ := hdecl
    obtain ⟨k, hk⟩ := List.mem_iff_getElem?.mp hs
    exact hname ▸ name_ne_of_declared ht hnew (declared_of_mem_bindings hk hb)
  refine ⟨fun e he => ?_, ?_, fun n hn hname => ?_, fun m hm hname => ?_⟩
  · obtain ⟨n, parent, hmem, hname, htext, hres, rfl⟩ := (mem_renameIdentifier hne).mp he
    have hn := mem_nodes_of_mem_withParents hmem
    have hhits : (renamingOf t old new decl added).hits n = true :=
      (hits_iff ht hne hn hname).mpr ⟨(ht.text n hn hname).symm.trans htext, hres⟩
    exact ⟨n, parent, hmem, hhits, rfl, spells_renamedText ht hmem hhits⟩
  · rw [ofTree_node ht hne hnew, map_binding_eq_map_renamed ht hne hnew hdecl]
  · exact ⟨Renaming.name_mem_preorder hn, resolve?_name ht hne hnew hdecl hn hname⟩
  · refine (Renaming.exists_name_of_mem_preorder hm hname).imp_right fun hid => ?_
    exact resolve?_added ht hne hnew hadded hid

/-- A variable that is the value of a property in short form, and is
exported. -/
def sharedName : Tree where
  source := "let a; (\x7b a \x7d); export \x7b a \x7d;"
  root := (Node.branch .program
    [.branch .lexicalDeclaration
      [(.token 0 "let" : Node).inRole .kind,
        .branch .variableDeclarator [(.leaf (.construct .identifier) 4 "a" : Node).inRole .name],
        .token 5 ";"],
    .branch .expressionStatement
      [.branch .parenthesizedExpression
        [.token 7 "(",
          .branch .object
            [.token 8 "\x7b", .leaf (.construct .shorthandPropertyIdentifier) 10 "a",
              .token 12 "\x7d"],
          .token 13 ")"],
        .token 14 ";"],
    .branch .exportStatement
      [.token 16 "export",
        .branch .exportClause
          [.token 23 "\x7b",
            .branch .exportSpecifier [(.leaf (.construct .identifier) 25 "a" : Node).inRole .name],
            .token 27 "\x7d"],
        .token 28 ";"]]).numbered
  dialect := .plain
  path? := none

/-- The declaration, the property and the export of one variable under a
new name: three edits, and each name still refers to the variable. -/
theorem renameIdentifier_keeps_bindings_shared :
    let decl := sharedName.nodes.getD 4 sharedName.root
    let r := renamingOf sharedName "a" "b" decl (100 + ·)
    renameIdentifier sharedName "a" "b" decl
        = [⟨4, 5, "b"⟩, ⟨10, 11, "a: b"⟩, ⟨25, 26, "b as a"⟩]
      ∧ Scopes.ofTree (r.node sharedName.root)
        = (Scopes.ofTree sharedName.root).map (Binding.renamed decl.id "b")
      ∧ ∀ n ∈ sharedName.nodes, n.kind.isName = true →
        (Scopes.ofTree (r.node sharedName.root)).resolve? (r.name n)
          = ((Scopes.ofTree sharedName.root).resolve? n).map (Binding.renamed decl.id "b") := by
  intro decl r
  have hwell : sharedName.WellNamed := by decide +kernel
  have hadded : ∀ i, 100 + i ∉ sharedName.root.ids := by
    have hsmall : ∀ j ∈ sharedName.root.ids, j < 100 := by decide +kernel
    intro i hi
    have := hsmall _ hi
    omega
  have hdeclares : Declares sharedName "a" decl := by
    unfold Declares
    decide +kernel
  have hunused : Unused sharedName "b" := by
    unfold Unused
    decide +kernel
  have h := renameIdentifier_keeps_bindings sharedName hwell "a" "b" decl hdeclares hunused
    (100 + ·) hadded
  exact ⟨by decide +kernel, h.2.1, fun n hn hname => (h.2.2.1 n hn hname).2⟩

end Refactoring

end ScriptRefactor
