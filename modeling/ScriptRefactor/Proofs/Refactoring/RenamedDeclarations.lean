import ScriptRefactor.Proofs.Refactoring.Rename
import ScriptRefactor.Proofs.Scope.Nesting

/-!
# `ScriptRefactor.Proofs.Refactoring.RenamedDeclarations`: renaming the first class or function

A class or a function is found by a search of the tree, and its name is renamed
with all that refers to it. What refers to it is told by the number that the
scope keeps for the name, and of several declarations of one name in a scope
that is the number of the first one.

* A name is looked up to itself exactly if it is the first in its scope to
  declare its text (`resolves_to_itself_iff`): a scope declares what the walk
  declares in it first (`Scopes.Sound.bound`).
* So all that refers to what the found name refers to is renamed, and nothing
  else, exactly if the found name declares first; if not, nothing is renamed
  (`renameFirst_reaches_iff`).
* `renameFirst_misses` is a function behind a variable of its name, and a class
  behind an interface. Both are found, and none is renamed.
-/

set_option autoImplicit false

namespace ScriptRefactor

open Syntax

namespace Scopes

variable {t : Tree} {n m own : Node} {b b' : Binding}

/-! ### What a name refers to -/

/-- Of the declarations of its text in some scope, the walk meets the one by
the node first. -/
def DeclaresFirst (root own : Node) : Prop :=
  ∃ scope kind, (treeMarks root).findSome? (Mark.declared? own.lexeme scope)
    = some (own.binding kind)

/-- What a name refers to is bound by a scope, under the text of the name. -/
theorem exists_scope_of_resolve? {s : Scopes} (h : s.resolve? n = some b) :
    b.name = n.lexeme ∧ ∃ (k : Nat) (scope : Scope), s.scopes[k]? = some scope
      ∧ b ∈ scope.bindings := by
  obtain ⟨k, -, hlookup⟩ := Option.bind_eq_some_iff.mp h
  obtain ⟨hname, scope, hscope, hb⟩ := mem_of_lookupFuel? hlookup
  obtain ⟨k', hk'⟩ := List.mem_iff_getElem?.mp hscope
  exact ⟨hname, k', scope, hk', hb⟩

/-- The declaration that a name of the tree makes has its number, and no other
one does. -/
theorem exists_binding_of_node {k : Nat} (hids : t.root.ids.Nodup) (hown : own ∈ t.nodes)
    (hb : .declared b k ∈ treeMarks t.root) (hnode : b.node = own.id) :
    ∃ kind, b = own.binding kind := by
  obtain ⟨m, hm, -, kind, rfl⟩ := declared_of_mem_treeMarks hb
  obtain rfl := Node.eq_of_id_eq hids hm hown hnode
  exact ⟨kind, rfl⟩

/-- Two names that refer to declarations by the same node refer to the same
one. -/
theorem Sound.eq_of_node_eq (h : (ofTree t.root).Sound t) (hids : t.root.ids.Nodup)
    (hn : (ofTree t.root).resolve? n = some b) (hm : (ofTree t.root).resolve? m = some b')
    (hnode : b.node = b'.node) : b = b' := by
  obtain ⟨-, k, s, hs, hb⟩ := exists_scope_of_resolve? hn
  obtain ⟨-, k', s', hs', hb'⟩ := exists_scope_of_resolve? hm
  obtain ⟨hfind, d, hd, -, hid, -, hname, hplace⟩ := h.declared k s hs b hb
  obtain ⟨hfind', d', hd', -, hid', -, hname', hplace'⟩ := h.declared k' s' hs' b' hb'
  -- One node declares both, so they stand in one scope under one name.
  obtain rfl := Node.eq_of_id_eq hids hd hd' (hid.symm.trans (hnode.trans hid'))
  obtain rfl := Option.some.inj (hplace.symm.trans hplace')
  obtain rfl := Option.some.inj (hs.symm.trans hs')
  rw [hname] at hfind
  rw [hname'] at hfind'
  exact Option.some.inj (hfind.symm.trans hfind')

/-- What is looked up to a name is declared by it first. -/
theorem Sound.declaresFirst_of_resolve? (h : (ofTree t.root).Sound t) (hids : t.root.ids.Nodup)
    (hown : own ∈ t.nodes) (hn : (ofTree t.root).resolve? n = some b) (hnode : b.node = own.id) :
    DeclaresFirst t.root own := by
  obtain ⟨hname, k, s, hs, hmem⟩ := exists_scope_of_resolve? hn
  obtain ⟨kind, rfl⟩ :=
    exists_binding_of_node hids hown (declared_of_mem_bindings hs hmem) hnode
  refine ⟨k, kind, ?_⟩
  rw [← h.bound, binding?, hs, Option.bind_some]
  exact (h.declared k s hs _ hmem).1

/-- A name is looked up to itself exactly if it is the first in its scope to
declare its text. -/
theorem Sound.resolves_to_itself_iff (h : (ofTree t.root).Sound t) (hids : t.root.ids.Nodup)
    (hown : own ∈ t.nodes) :
    ((ofTree t.root).resolve? own).any (·.node = own.id) = true ↔ DeclaresFirst t.root own := by
  rw [Option.any_eq_true]
  constructor
  · rintro ⟨b, hb, hnode⟩
    exact h.declaresFirst_of_resolve? hids hown hb (of_decide_eq_true hnode)
  · rintro ⟨k, kind, hfirst⟩
    rw [← h.bound] at hfirst
    obtain ⟨s, hs, hfind⟩ := Option.bind_eq_some_iff.mp hfirst
    have hmem := List.mem_of_find?_eq_some hfind
    obtain ⟨-, d, hd, -, hid, -, -, hplace⟩ := h.declared k s hs _ hmem
    have hplace : (ofTree t.root).scopeOf? own.id = some k := by
      rw [show own.id = d.id from hid]
      exact hplace
    refine ⟨own.binding kind, ?_, decide_eq_true rfl⟩
    rw [resolve?, hplace, Option.bind_some]
    exact lookup?_of_mem_bindings (namesDiffer_ofTree t.root) hs hmem

end Scopes

namespace Refactoring

variable {t : Tree} {n own : Node} {old new : String} {kinds : List Construct}

/-! ### What is renamed with a declaration -/

/-- A node refers to something, and a name refers to the same. -/
def shares (t : Tree) (own n : Node) : Bool :=
  ((Scopes.ofTree t.root).resolve? n).any fun b => (Scopes.ofTree t.root).resolve? own = some b

/-- The nodes that refer to what a name refers to. -/
def sharing (t : Tree) (own : Node) : List Node := t.nodes.filter (shares t own)

/-- The edits replace a name and all that refers to the same declaration, and
nothing else. -/
structure Reaches (t : Tree) (own : Node) (edits : List Edit) : Prop where
  /-- The name refers to a declaration. -/
  found : own ∈ sharing t own
  /-- There is an edit for each name that refers to that. -/
  spans : edits.map Edit.span = (sharing t own).map Node.span

/-- A name that is found is the child of a declaration, and reads as it is
asked for. -/
theorem of_findDeclaration? (h : findDeclaration? t kinds old = some own) :
    own ∈ t.nodes ∧ t.text own = old := by
  obtain ⟨d, hd, h⟩ := List.exists_of_findSome?_eq_some h
  obtain ⟨hchild, htext⟩ := Option.filter_eq_some_iff.mp h
  exact ⟨Node.mem_preorder_trans (List.mem_filter.mp hd).1
    (Node.mem_preorder_of_child (Node.mem_of_child? hchild)), of_decide_eq_true htext⟩

/-- The node is an occurrence of the old name, and is looked up to the
declaration. -/
def isHit (t : Tree) (old : String) (own n : Node) : Bool :=
  n.kind.isName && t.text n = old
    && ((Scopes.ofTree t.root).resolve? n).any (·.node = own.id)

/-- The nodes below the root are replaced that are such occurrences. -/
theorem map_span_renameIdentifier (hne : old ≠ new) :
    (renameIdentifier t old new own).map Edit.span
      = ((t.root.children.flatMap Node.preorder).filter (isHit t old own)).map Node.span := by
  rw [renameIdentifier, if_neg hne, ← Node.map_fst_withParents]
  induction t.root.withParents with
  | nil => rfl
  | cons p ps ih =>
      obtain ⟨n, parent⟩ := p
      have hcond : (n.kind.isName && t.text n = old
          && ((Scopes.ofTree t.root).resolve? n).any (·.node = own.id)) = isHit t old own n := rfl
      rw [List.map_cons, List.filterMap_cons, List.filter_cons]
      dsimp only
      rw [hcond]
      cases isHit t old own n with
      | false => exact ih
      | true => exact congrArg (n.span :: ·) ih

section Module

variable (hspans : t.root.SpansNested) (hids : t.root.ids.Nodup)
  (htext : ∀ n ∈ t.nodes, n.kind.isName = true → t.text n = n.lexeme)

include hspans hids

/-- A node that refers to something is a name. -/
theorem isName_of_resolve? {b : Binding} (hn : n ∈ t.nodes)
    (h : (Scopes.ofTree t.root).resolve? n = some b) : n.kind.isName = true := by
  obtain ⟨k, hplace, -⟩ := Option.bind_eq_some_iff.mp h
  obtain ⟨p, hmem, -⟩ := Option.map_eq_some_iff.mp hplace
  obtain ⟨m, hm, hid, hname, -⟩ :=
    Scopes.exists_name_of_mem_places hspans (List.mem_of_find?_eq_some hmem)
  have hplaced : p.1 = n.id := by simpa using List.find?_some hmem
  obtain rfl := Node.eq_of_id_eq hids hm hn (hid.trans hplaced)
  exact hname

include htext

/-- If the declaration that is found declares first, the occurrences of its
name that are looked up to it are all that refers to what it refers to. -/
theorem isHit_eq_true_iff (hown : own ∈ t.nodes) (hold : t.text own = old)
    (hfirst : Scopes.DeclaresFirst t.root own) (hn : n ∈ t.nodes) :
    isHit t old own n = true ↔ shares t own n = true := by
  have hsound := Scopes.ofTree_sound t hspans hids htext
  have hself := (hsound.resolves_to_itself_iff hids hown).mpr hfirst
  obtain ⟨b, hb, hnode⟩ := (Option.any_eq_true _ _).mp hself
  rw [isHit, shares, Bool.and_eq_true, Bool.and_eq_true, decide_eq_true_eq, hb]
  constructor
  · rintro ⟨-, hany⟩
    obtain ⟨b', hb', hnode'⟩ := (Option.any_eq_true _ _).mp hany
    have hsame : b.node = b'.node := (of_decide_eq_true hnode).trans (of_decide_eq_true hnode').symm
    obtain rfl := hsound.eq_of_node_eq hids hb hb' hsame
    exact (Option.any_eq_true _ _).mpr ⟨b, hb', decide_eq_true rfl⟩
  · intro hany
    obtain ⟨b', hb', hsame⟩ := (Option.any_eq_true _ _).mp hany
    obtain rfl := Option.some.inj (of_decide_eq_true hsame)
    have hname := isName_of_resolve? hspans hids hn hb'
    have hownName := isName_of_resolve? hspans hids hown hb
    -- Both names read as the declaration is called.
    have hread : t.text n = old := by
      rw [htext n hn hname, ← (Scopes.exists_scope_of_resolve? hb').1,
        (Scopes.exists_scope_of_resolve? hb).1, ← htext own hown hownName, hold]
    exact ⟨⟨hname, hread⟩, (Option.any_eq_true _ _).mpr ⟨b, hb', hnode⟩⟩

/-- If the declaration that is found does not declare first, nothing is looked
up to it. -/
theorem isHit_eq_false (hown : own ∈ t.nodes) (hfirst : ¬ Scopes.DeclaresFirst t.root own) :
    isHit t old own n = false := by
  have hsound := Scopes.ofTree_sound t hspans hids htext
  refine Bool.eq_false_iff.mpr fun hhit => hfirst ?_
  rw [isHit, Bool.and_eq_true] at hhit
  obtain ⟨b, hb, hnode⟩ := (Option.any_eq_true _ _).mp hhit.2
  exact hsound.declaresFirst_of_resolve? hids hown hb (of_decide_eq_true hnode)

/-- The edits of the declaration that is found reach all that refers to what
its name refers to exactly if it declares first, and there are none if not. -/
theorem renameIdentifier_reaches_iff (hroot : t.root.kind.isName = false) (hne : old ≠ new)
    (hown : own ∈ t.nodes) (hold : t.text own = old) :
    (Reaches t own (renameIdentifier t old new own) ↔ Scopes.DeclaresFirst t.root own)
      ∧ (¬ Scopes.DeclaresFirst t.root own → renameIdentifier t old new own = []) := by
  have hbelow : ∀ n ∈ t.root.children.flatMap Node.preorder, n ∈ t.nodes := fun n hn => by
    rw [Tree.nodes, Node.preorder_eq]
    exact List.mem_cons_of_mem _ hn
  have hnone : ¬ Scopes.DeclaresFirst t.root own → renameIdentifier t old new own = [] := by
    intro hfirst
    rw [← List.map_eq_nil_iff (f := Edit.span), map_span_renameIdentifier hne,
      List.map_eq_nil_iff, List.filter_eq_nil_iff]
    exact fun n _ => Bool.eq_false_iff.mp (isHit_eq_false hspans hids htext hown hfirst)
  refine ⟨⟨fun hreach => ?_, fun hfirst => ?_⟩, hnone⟩
  · -- Without edits not even the declaration itself is reached.
    by_contra hfirst
    have hspansEq := hreach.spans
    rw [hnone hfirst, List.map_nil] at hspansEq
    have hfound := hreach.found
    rw [List.map_eq_nil_iff.mp hspansEq.symm] at hfound
    exact absurd hfound List.not_mem_nil
  · have hsharing : sharing t own
        = (t.root.children.flatMap Node.preorder).filter (isHit t old own) := by
      -- The edits are looked for below the root, and the root is no name.
      have hrootHit : ¬ shares t own t.root = true := by
        intro hany
        obtain ⟨b, hb, -⟩ := (Option.any_eq_true _ _).mp hany
        have hname := isName_of_resolve? hspans hids (Node.mem_preorder_self t.root) hb
        rw [hroot] at hname
        cases hname
      rw [sharing, Tree.nodes, Node.preorder_eq, List.filter_cons_of_neg hrootHit]
      refine List.filter_congr fun n hn => ?_
      exact Bool.eq_iff_iff.mpr
        (isHit_eq_true_iff hspans hids htext hown hold hfirst (hbelow n hn)).symm
    refine ⟨?_, by rw [map_span_renameIdentifier hne, hsharing]⟩
    obtain ⟨b, hb, -⟩ := (Option.any_eq_true _ _).mp
      (((Scopes.ofTree_sound t hspans hids htext).resolves_to_itself_iff hids hown).mpr hfirst)
    exact List.mem_filter.mpr ⟨hown, (Option.any_eq_true _ _).mpr ⟨b, hb, decide_eq_true hb⟩⟩

end Module

/-- The first class and the first function of a name are renamed with all that
refers to what their names refer to, and nothing else is, exactly if the walk of
their scope meets no other declaration of the name before. If it meets one,
nothing is renamed at all, although the name was found. -/
theorem renameFirst_reaches_iff (t : Tree) (hroot : t.root.kind.isName = false)
    (hspans : t.root.SpansNested) (hids : t.root.ids.Nodup)
    (htext : ∀ n ∈ t.nodes, n.kind.isName = true → t.text n = n.lexeme) (old new : String)
    (hne : old ≠ new) :
    (∀ own ∈ findDeclaration? t [.classDeclaration, .abstractClassDeclaration] old,
        (Reaches t own (renameClass t old new) ↔ Scopes.DeclaresFirst t.root own)
          ∧ (¬ Scopes.DeclaresFirst t.root own → renameClass t old new = []))
      ∧ ∀ own ∈ findDeclaration? t [.functionDeclaration, .generatorFunctionDeclaration] old,
        (Reaches t own (renameFunction t old new) ↔ Scopes.DeclaresFirst t.root own)
          ∧ (¬ Scopes.DeclaresFirst t.root own → renameFunction t old new = []) := by
  have hdeclared : ∀ (kinds : List Construct) (own : Node), findDeclaration? t kinds old = some own →
      (Reaches t own (renameDeclared t kinds old new) ↔ Scopes.DeclaresFirst t.root own)
        ∧ (¬ Scopes.DeclaresFirst t.root own → renameDeclared t kinds old new = []) := by
    intro kinds own hfound
    obtain ⟨hown, hold⟩ := of_findDeclaration? hfound
    rw [renameDeclared, hfound]
    exact renameIdentifier_reaches_iff hspans hids htext hroot hne hown hold
  exact ⟨hdeclared _, hdeclared _⟩

/-- A function that comes in front of a variable of its name is renamed with
the variable and the use of both. -/
theorem renameFirst_reaches_function :
    ∃ t ∈ (Tree.parse .plain none "function f() { }
var f;
f();
").toOption,
      ∃ own ∈ findDeclaration? t [.functionDeclaration, .generatorFunctionDeclaration] "f",
        Reaches t own (renameFunction t "f" "g")
          ∧ (renameFunction t "f" "g").map Edit.span = [⟨9, 10⟩, ⟨21, 22⟩, ⟨24, 25⟩] := by
  obtain ⟨t, ht⟩ := Option.isSome_iff_exists.mp (by decide +kernel :
    (Tree.parse .plain none "function f() { }
var f;
f();
").toOption.isSome = true)
  have hfacts : ∀ t ∈ (Tree.parse .plain none "function f() { }
var f;
f();
").toOption,
      t.root.kind.isName = false ∧ t.root.SpansNested ∧ t.root.ids.Nodup
        ∧ (∀ n ∈ t.nodes, n.kind.isName = true → t.text n = n.lexeme)
        ∧ (findDeclaration? t [.functionDeclaration, .generatorFunctionDeclaration] "f").isSome
          = true
        ∧ (∀ own ∈ findDeclaration? t [.functionDeclaration, .generatorFunctionDeclaration] "f",
          (Scopes.treeMarks t.root).findSome? (Mark.declared? own.lexeme 0)
            = some (own.binding .function))
        ∧ (renameFunction t "f" "g").map Edit.span = [⟨9, 10⟩, ⟨21, 22⟩, ⟨24, 25⟩] := by
    decide +kernel
  obtain ⟨hroot, hspans, hids, htext, hsome, hfirst, hedits⟩ := hfacts t ht
  obtain ⟨own, hown⟩ := Option.isSome_iff_exists.mp hsome
  have hreach := (renameFirst_reaches_iff t hroot hspans hids htext "f" "g" (by decide)).2 own hown
  exact ⟨t, ht, own, hown, hreach.1.mpr ⟨0, .function, hfirst own hown⟩, hedits⟩

/-- A function behind a variable of its name, and a class behind an interface.
The names that are found refer to declarations, and others refer to the same,
but nothing is renamed. -/
theorem renameFirst_misses :
    (∃ t ∈ (Tree.parse .plain none "var f; function f() \x7b \x7d\nf();\n").toOption,
      ∃ own ∈ findDeclaration? t [.functionDeclaration, .generatorFunctionDeclaration] "f",
        (sharing t own).map Node.span = [⟨4, 5⟩, ⟨16, 17⟩, ⟨24, 25⟩] ∧ own.span = ⟨16, 17⟩
          ∧ renameFunction t "f" "g" = [])
      ∧ ∃ t ∈ (Tree.parse .typed none "interface A \x7b \x7d class A \x7b \x7d\n").toOption,
        ∃ own ∈ findDeclaration? t [.classDeclaration, .abstractClassDeclaration] "A",
          (sharing t own).map Node.span = [⟨10, 11⟩, ⟨22, 23⟩] ∧ own.span = ⟨22, 23⟩
            ∧ renameClass t "A" "B" = [] := by
  decide +kernel

end Refactoring

end ScriptRefactor
