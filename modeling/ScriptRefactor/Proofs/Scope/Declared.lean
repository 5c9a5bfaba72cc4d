import ScriptRefactor.Proofs.Scope.Marks

/-!
# `ScriptRefactor.Proofs.Scope.Declared`: the names that a walk declares

Every declaration of a walk is made by a name of the tree
(`declared_of_mem_walkMarks`). When the numbers of the tree are all
different, no name is declared in two scopes (`oneScope_treeMarks`).

For the second, the names that a node declares are told from those
declared when its children are walked. A name in a pattern is declared
by what stands above the pattern, and the walk of the pattern leaves it
alone (`leaves_patternNames`).
-/

set_option autoImplicit false

namespace ScriptRefactor

open Syntax

namespace Scopes

variable {t : Scopes} {n m c : Node} {ns cs : List Node} {scope k k' : Nat} {b b' : Binding}
  {role : Role} {kind : BindingKind} {ps qs : List (BindingKind × Node)}
  {p q : BindingKind × Node} {ms ms' : List Mark}

/-! ### Names in patterns -/

/-- What the chosen ones of some nodes bind is bound by one of them. -/
theorem exists_of_mem_partNames {part : Part} (h : m ∈ partNames part ns) :
    ∃ n ∈ ns, m ∈ patternNames n := by
  induction ns with
  | nil =>
      unfold partNames at h
      exact absurd h List.not_mem_nil
  | cons n ns ih =>
      have later : m ∈ partNames part ns → ∃ n' ∈ n :: ns, m ∈ patternNames n' := by
        intro h
        obtain ⟨n', hn', hm⟩ := ih h
        exact ⟨n', List.mem_cons_of_mem n hn', hm⟩
      have here : m ∈ patternNames n → ∃ n' ∈ n :: ns, m ∈ patternNames n' :=
        fun h => ⟨n, List.mem_cons_self .., h⟩
      unfold partNames at h
      cases part with
      -- The part says where reading goes on: behind each node, or behind those not chosen.
      | all =>
          rcases List.mem_append.mp h with h | h
          · split at h
            · exact here h
            · exact absurd h List.not_mem_nil
          · exact later h
      | first =>
          dsimp only at h
          split at h
          · exact here h
          · exact later h
      | inRole role =>
          dsimp only at h
          split at h
          · exact here h
          · exact later h

/-- A pattern is a name, or what it binds is bound by a part of it; then
it declares nothing itself. -/
theorem patternNames_cases (h : m ∈ patternNames n) :
    (m = n ∧ n.kind.isName = true) ∨
      ((∃ c ∈ n.children, m ∈ patternNames c) ∧ entry n = {}) := by
  obtain ⟨l, cs⟩ := n
  rw [patternNames] at h
  cases hk : l.kind with
  | token text =>
      rw [hk] at h
      exact absurd h List.not_mem_nil
  | construct c =>
      rw [hk] at h
      have part : ∀ part, m ∈ partNames part cs → ∃ c ∈ (Node.mk l cs).children, m ∈ patternNames c :=
        fun _ => exists_of_mem_partNames
      cases c <;> first
        | exact absurd h List.not_mem_nil
        | exact .inl ⟨List.mem_singleton.mp h, by rw [Node.kind, Node.label, hk]; rfl⟩
        | exact .inr ⟨part _ h, by rw [entry, Node.kind, Node.label, hk]; rfl⟩

/-- The names in a pattern are names below it. -/
theorem name_of_mem_patternNames (h : m ∈ patternNames n) :
    m ∈ n.preorder ∧ m.kind.isName = true := by
  induction n using Node.childrenRec with
  | h l cs ih =>
      rcases patternNames_cases h with ⟨rfl, hname⟩ | ⟨⟨c, hc, hm⟩, -⟩
      · exact ⟨Node.mem_preorder_self _, hname⟩
      · have hsub := ih c hc hm
        exact ⟨Node.mem_preorder.mpr (.inr ⟨c, hc, hsub.1⟩), hsub.2⟩

/-! ### What a node declares itself -/

/-- A node declares names of an import, which it does not walk, its own
name, the names of a pattern below it, or the variables of its
declarators. -/
theorem entry_names_cases (h : p ∈ (entry n).around ++ (entry n).inside ++ (entry n).hoisted) :
    ((entry n).walked = .nothing ∧ p.2 ∈ importedNames n) ∨ p.2 ∈ ownName n
      ∨ (∃ role, p.2 ∈ namesIn n role) ∨ p.2 ∈ variableNames n := by
  have hall : ∀ {kind ns}, p ∈ allAs kind ns → p.2 ∈ ns := by
    rintro kind ns hp
    obtain ⟨m, hm, rfl⟩ := List.mem_map.mp hp
    exact hm
  have hloop : p ∈ loopNames n → p.2 ∈ namesIn n .left := by
    intro hp
    obtain ⟨word, -, hp⟩ := List.mem_flatMap.mp hp
    exact hall hp
  have hparam : p.2 ∈ parameterNames n → ∃ role, p.2 ∈ namesIn n role := fun hp =>
    (List.mem_append.mp hp).elim (fun hp => ⟨_, hp⟩) fun hp => ⟨_, hp⟩
  unfold entry at h ⊢
  cases hk : n.kind with
  | token text =>
      rw [hk] at h
      split at h <;> simp_all
  | construct c =>
      rw [hk] at h
      cases c <;> simp [Construct.isName] at h ⊢ <;> grind

/-- Only a function is declared around itself and declares something
inside, too: its name around, its parameters inside. -/
theorem around_inside (hp : p ∈ (entry n).around) (hq : q ∈ (entry n).inside) :
    p.2 ∈ ownName n ∧ q.2 ∈ parameterNames n := by
  unfold entry at hp hq
  cases hk : n.kind with
  | token text =>
      rw [hk] at hp
      split at hp <;> simp_all
  | construct c =>
      rw [hk] at hp hq
      cases c <;> simp [Construct.isName, allAs] at hp hq ⊢ <;> grind

/-- What declares in the nearest function declares nowhere else. -/
theorem hoisted_alone (hq : q ∈ (entry n).hoisted) :
    (entry n).around = [] ∧ (entry n).inside = [] := by
  -- All names in the head of one loop are declared in the same way.
  have hloop : q ∈ loopNames n ∧ q.1 = .var → ∀ p ∈ loopNames n, p.1 = .var := by
    rintro ⟨hq, hvar⟩ p hp
    obtain ⟨word, hword, hq⟩ := List.mem_flatMap.mp hq
    obtain ⟨word', hword', hp⟩ := List.mem_flatMap.mp hp
    have heq : word' = word :=
      Option.some.inj ((Option.mem_toList.mp hword').symm.trans (Option.mem_toList.mp hword))
    obtain ⟨_, _, rfl⟩ := List.mem_map.mp hq
    obtain ⟨_, _, rfl⟩ := List.mem_map.mp hp
    rw [heq]
    exact hvar
  unfold entry at hq ⊢
  cases hk : n.kind with
  | token text =>
      rw [hk] at hq
      split at hq <;> simp_all
  | construct c =>
      rw [hk] at hq
      cases c <;> simp [Construct.isName] at hq ⊢ <;> exact fun a b hp => hloop hq (a, b) hp

/-! ### What a walk declares -/

/-- A declaration among the names that are to be declared in a scope. -/
theorem mem_declaring :
    .declared b k ∈ declaring scope ps ↔
      k = scope ∧ ∃ p ∈ ps, p.2.kind.isName = true ∧ b = p.2.binding p.1 := by
  simp only [declaring, List.mem_map, List.mem_filter, Mark.declared.injEq]
  constructor
  · rintro ⟨p, ⟨hp, hname⟩, rfl, rfl⟩
    exact ⟨rfl, p, hp, hname, rfl⟩
  · rintro ⟨rfl, p, hp, hname, rfl⟩
    exact ⟨p, ⟨hp, hname⟩, rfl, rfl⟩

/-- The declarations among the marks of a node. -/
theorem declared_mem_marks {e : Entry} :
    .declared b k ∈ e.marks t scope n ↔
      .declared b k ∈ declaring scope e.around
        ∨ .declared b k ∈ declaring (e.inner t scope) e.inside
        ∨ .declared b k ∈ declaring ((t.marked (e.opening scope n)).hoist scope) e.hoisted := by
  unfold Entry.marks Entry.opening
  have hplaced : Mark.declared b k ∉ (if e.places then [.placed n.id scope] else []) := by
    split <;> simp
  have hopened : Mark.declared b k ∉ e.opens?.toList.map (.opened (some scope) · n.span) := by
    simp
  simp only [List.mem_append, hplaced, hopened, or_false, or_assoc]

/-- A declaration by a node is one of its names. -/
theorem exists_name_of_mem_marks (h : .declared b k ∈ (entry n).marks t scope n) :
    ∃ p ∈ (entry n).around ++ (entry n).inside ++ (entry n).hoisted,
      p.2.kind.isName = true ∧ b = p.2.binding p.1 := by
  rcases declared_mem_marks.mp h with h | h | h <;>
    obtain ⟨-, p, hp, hname⟩ := mem_declaring.mp h <;>
    exact ⟨p, by simp [hp], hname⟩

/-- A mark of some nodes is a mark of one of them. -/
theorem exists_of_mem_walkAllMarks {x : Mark} (h : x ∈ t.walkAllMarks scope ns) :
    ∃ n ∈ ns, ∃ t' : Scopes, x ∈ t'.walkMarks scope n := by
  induction ns generalizing t with
  | nil => exact absurd h List.not_mem_nil
  | cons n ns ih =>
      rw [walkAllMarks] at h
      rcases List.mem_append.mp h with h | h
      · exact ⟨n, List.mem_cons_self .., t, h⟩
      · obtain ⟨n', hn', t', ht'⟩ := ih h
        exact ⟨n', List.mem_cons_of_mem n hn', t', ht'⟩

/-- The marks of the node in a role are those of one of the nodes, if
there is such a node. -/
theorem walkOnlyMarks_cases (t : Scopes) (scope : Nat) (role : Role) (ns : List Node) :
    t.walkOnlyMarks scope role ns = []
      ∨ ∃ n ∈ ns, t.walkOnlyMarks scope role ns = t.walkMarks scope n := by
  induction ns with
  | nil => exact .inl rfl
  | cons n ns ih =>
      rw [walkOnlyMarks]
      split
      · exact .inr ⟨n, List.mem_cons_self .., rfl⟩
      · refine ih.imp_right ?_
        rintro ⟨n', hn', h⟩
        exact ⟨n', List.mem_cons_of_mem n hn', h⟩

/-- A mark of the node in a role is a mark of one of the nodes. -/
theorem exists_of_mem_walkOnlyMarks {x : Mark} (h : x ∈ t.walkOnlyMarks scope role ns) :
    ∃ n ∈ ns, x ∈ t.walkMarks scope n := by
  rcases walkOnlyMarks_cases t scope role ns with hnil | ⟨n, hn, heq⟩
  · rw [hnil] at h
    exact absurd h List.not_mem_nil
  · exact ⟨n, hn, heq ▸ h⟩

/-- A mark of a walk is one of the node or of a child that is walked. -/
theorem mem_walkMarks_cases {x : Mark} (h : x ∈ t.walkMarks scope n) :
    x ∈ (entry n).marks t scope n ∨
      ((entry n).walked ≠ .nothing ∧
        ∃ c ∈ n.children, ∃ (t' : Scopes) (scope' : Nat), x ∈ t'.walkMarks scope' c) := by
  rw [walkMarks_eq] at h
  refine (List.mem_append.mp h).imp_right fun h => ?_
  cases hw : (entry n).walked with
  | nothing =>
      rw [hw] at h
      exact absurd h List.not_mem_nil
  | all =>
      rw [hw] at h
      obtain ⟨c, hc, t', ht'⟩ := exists_of_mem_walkAllMarks h
      exact ⟨by simp, c, hc, t', _, ht'⟩
  | only role =>
      rw [hw] at h
      obtain ⟨c, hc, hx⟩ := exists_of_mem_walkOnlyMarks h
      exact ⟨by simp, c, hc, _, _, hx⟩

/-- The local name of a part of an import is a child of it. -/
theorem mem_children_of_importedName? (h : importedName? n = some m) : m ∈ n.children := by
  unfold importedName? at h
  split at h
  · exact Node.mem_of_firstNamed? (Option.eq_some_of_filter_eq_some h)
  · exact Node.mem_of_firstNamed? h
  · rcases Option.or_eq_some_iff.mp h with h | ⟨-, h⟩ <;> exact Node.mem_of_child? h
  · exact absurd h (by simp)

/-- The name of a construct is a child of it. -/
theorem mem_ownName : m ∈ ownName n ↔ n.child? .name = some m := Option.mem_toList

/-- The names in the pattern that plays a role. -/
theorem mem_namesIn : m ∈ namesIn n role ↔ ∃ c, n.child? role = some c ∧ m ∈ patternNames c := by
  simp only [namesIn, List.mem_flatMap, Option.mem_toList]

/-- The variables of a declaration are the names in its declarators. -/
theorem mem_variableNames :
    m ∈ variableNames n ↔ ∃ d ∈ n.childrenOf .variableDeclarator, m ∈ namesIn d .name :=
  List.mem_flatMap

/-- The names in a pattern that plays a role are below the node. -/
theorem mem_preorder_of_mem_namesIn (h : m ∈ namesIn n role) : m ∈ n.preorder := by
  obtain ⟨c, hc, hm⟩ := mem_namesIn.mp h
  exact Node.mem_preorder.mpr
    (.inr ⟨c, Node.mem_of_child? hc, (name_of_mem_patternNames hm).1⟩)

/-- What a node declares is below it. -/
theorem mem_preorder_of_mem_entry
    (h : p ∈ (entry n).around ++ (entry n).inside ++ (entry n).hoisted) : p.2 ∈ n.preorder := by
  rcases entry_names_cases h with ⟨-, h⟩ | h | ⟨role, h⟩ | h
  · obtain ⟨x, hx, hp⟩ := List.mem_filterMap.mp h
    exact Node.mem_preorder_trans hx
      (Node.mem_preorder_of_child (mem_children_of_importedName? hp))
  · exact Node.mem_preorder_of_child (Node.mem_of_child? (mem_ownName.mp h))
  · exact mem_preorder_of_mem_namesIn h
  · obtain ⟨d, hd, h⟩ := mem_variableNames.mp h
    exact Node.mem_preorder_trans
      (Node.mem_preorder_of_child (Node.mem_of_mem_childrenOf hd)) (mem_preorder_of_mem_namesIn h)

/-- Every declaration of a walk is made by a name of the tree. -/
theorem declared_of_mem_walkMarks (h : .declared b k ∈ t.walkMarks scope n) :
    ∃ m ∈ n.preorder, m.kind.isName = true ∧ ∃ kind, b = m.binding kind := by
  induction n using Node.childrenRec generalizing t scope with
  | h l cs ih =>
      rcases mem_walkMarks_cases h with h | ⟨-, c, hc, t', scope', h⟩
      · obtain ⟨p, hp, hname, hb⟩ := exists_name_of_mem_marks h
        exact ⟨p.2, mem_preorder_of_mem_entry hp, hname, p.1, hb⟩
      · obtain ⟨m, hm, hb⟩ := ih c hc h
        exact ⟨m, Node.mem_preorder.mpr (.inr ⟨c, hc, hm⟩), hb⟩

/-- A walk declares numbers of the tree only. -/
theorem node_mem_ids (h : .declared b k ∈ t.walkMarks scope n) : b.node ∈ n.ids := by
  obtain ⟨m, hm, -, kind, rfl⟩ := declared_of_mem_walkMarks h
  exact Node.id_mem_ids hm

/-- A walk places numbers of the tree only. -/
theorem placed_mem_ids {i : Nat} (h : .placed i k ∈ t.walkMarks scope n) : i ∈ n.ids := by
  induction n using Node.childrenRec generalizing t scope with
  | h l cs ih =>
      rcases mem_walkMarks_cases h with h | ⟨-, c, hc, t', scope', h⟩
      · have hself : i = (Node.mk l cs).id := by
          simp only [Entry.marks, Entry.opening, declaring, List.mem_append, List.mem_map] at h
          rcases h with (((⟨_, _, h⟩ | ⟨_, _, h⟩) | ⟨_, _, h⟩) | ⟨_, _, h⟩) | h
          · cases h
          · cases h
          · cases h
          · cases h
          · split at h
            · rw [List.mem_singleton] at h
              cases h
              rfl
            · exact absurd h List.not_mem_nil
        rw [hself]
        exact Node.id_mem_ids (Node.mem_preorder_self _)
      · exact Node.mem_ids_of_child hc (ih c hc h)

/-! ### What a walk does not declare -/

/-- No walk of the tree declares the node of that number. -/
def Leaves (n : Node) (i : Nat) : Prop :=
  ∀ (t : Scopes) (scope : Nat) (b : Binding) (k : Nat),
    .declared b k ∈ t.walkMarks scope n → b.node ≠ i

/-- A number of another tree is left alone. -/
theorem leaves_of_not_mem_ids {i : Nat} (h : i ∉ n.ids) : Leaves n i := by
  rintro t scope b k hb rfl
  exact h (node_mem_ids hb)

/-- A node that declares nothing leaves alone what its children do. -/
theorem leaves_of_children {i : Nat}
    (hn : (entry n).around ++ (entry n).inside ++ (entry n).hoisted = [])
    (h : ∀ c ∈ n.children, Leaves c i) : Leaves n i := by
  intro t scope b k hb
  rcases mem_walkMarks_cases hb with hb | ⟨-, c, hc, t', scope', hb⟩
  · obtain ⟨p, hp, -⟩ := exists_name_of_mem_marks hb
    rw [hn] at hp
    exact absurd hp List.not_mem_nil
  · exact h c hc t' scope' b k hb

/-- What one child leaves alone although it is below it, all children
leave alone. -/
theorem leaves_of_child {d : Node} {i : Nat} (hn : n.ids.Nodup) (hd : d ∈ n.children)
    (hi : i ∈ d.ids) (h : Leaves d i) (hc : c ∈ n.children) : Leaves c i := by
  by_cases hic : i ∈ c.ids
  · rw [Node.child_eq_of_mem_ids hn hc hd hic hi]
    exact h
  · exact leaves_of_not_mem_ids hic

/-- A name is not walked: it leaves everything alone. -/
theorem leaves_of_isName {i : Nat} (h : n.kind.isName = true) : Leaves n i := by
  intro t scope b k hb
  rw [walkMarks_of_isName h, List.mem_singleton] at hb
  cases hb

/-- The walk of a pattern leaves the names that it binds alone. -/
theorem leaves_patternNames (hn : n.ids.Nodup) (hm : m ∈ patternNames n) : Leaves n m.id := by
  induction n using Node.childrenRec with
  | h l cs ih =>
      rcases patternNames_cases hm with ⟨rfl, hname⟩ | ⟨⟨c, hc, hm⟩, he⟩
      · exact leaves_of_isName hname
      · have hleaves := ih c hc (Node.nodup_ids_of_child hn hc) hm
        have hid : m.id ∈ c.ids := Node.id_mem_ids (name_of_mem_patternNames hm).1
        refine leaves_of_children (by rw [he]; rfl) fun d hd => ?_
        exact leaves_of_child hn hc hid hleaves hd

/-- The children that are walked leave alone what the node declares. -/
theorem leaves_entry (hn : n.ids.Nodup)
    (hp : p ∈ (entry n).around ++ (entry n).inside ++ (entry n).hoisted)
    (hname : p.2.kind.isName = true) (hw : (entry n).walked ≠ .nothing) (hc : c ∈ n.children) :
    Leaves c p.2.id := by
  -- It is below one child, and that one leaves it alone.
  suffices h : ∃ d ∈ n.children, p.2.id ∈ d.ids ∧ Leaves d p.2.id by
    obtain ⟨d, hd, hid, hleaves⟩ := h
    exact leaves_of_child hn hd hid hleaves hc
  have hpattern : ∀ {d role}, d.ids.Nodup → p.2 ∈ namesIn d role →
      ∃ e ∈ d.children, p.2.id ∈ e.ids ∧ Leaves e p.2.id := by
    intro d role hdn hp
    obtain ⟨e, he, hp⟩ := mem_namesIn.mp hp
    have hchild := Node.mem_of_child? he
    exact ⟨e, hchild, Node.id_mem_ids (name_of_mem_patternNames hp).1,
      leaves_patternNames (Node.nodup_ids_of_child hdn hchild) hp⟩
  rcases entry_names_cases hp with ⟨h, -⟩ | h | ⟨role, h⟩ | h
  · exact absurd h hw
  · have hchild := Node.mem_of_child? (mem_ownName.mp h)
    exact ⟨p.2, hchild, Node.id_mem_ids (Node.mem_preorder_self _), leaves_of_isName hname⟩
  · exact hpattern hn h
  · obtain ⟨d, hd, h⟩ := mem_variableNames.mp h
    have hchild := Node.mem_of_mem_childrenOf hd
    have hdn := Node.nodup_ids_of_child hn hchild
    obtain ⟨e, he, hid, hleaves⟩ := hpattern hdn h
    have hkind : d.kind = .construct .variableDeclarator :=
      of_decide_eq_true (List.mem_filter.mp hd).2
    refine ⟨d, hchild, Node.mem_ids_of_child he hid, leaves_of_children ?_ fun f hf => ?_⟩
    · rw [entry, hkind]
      rfl
    · exact leaves_of_child hdn he hid hleaves hf

/-! ### One scope for each declared name -/

/-- No node is declared in two scopes. -/
def OneScope (ms : List Mark) : Prop :=
  ∀ b k b' k', .declared b k ∈ ms → .declared b' k' ∈ ms → b.node = b'.node → k = k'

/-- Marks that declare different nodes can be put together. -/
theorem OneScope.append (h : OneScope ms) (h' : OneScope ms')
    (hne : ∀ b k b' k', .declared b k ∈ ms → .declared b' k' ∈ ms' → b.node ≠ b'.node) :
    OneScope (ms ++ ms') := by
  intro b k b' k' hb hb' heq
  rcases List.mem_append.mp hb with hb | hb <;> rcases List.mem_append.mp hb' with hb' | hb'
  · exact h b k b' k' hb hb' heq
  · exact absurd heq (hne b k b' k' hb hb')
  · exact absurd heq.symm (hne b' k' b k hb' hb)
  · exact h' b k b' k' hb hb' heq

/-- A node declares none of its names in two scopes. -/
theorem oneScope_marks (hn : n.ids.Nodup) (t : Scopes) (scope : Nat) :
    OneScope ((entry n).marks t scope n) := by
  -- The name of a function is no parameter of it.
  have hne : ∀ p ∈ (entry n).around, ∀ q ∈ (entry n).inside, p.2.id ≠ q.2.id := by
    intro p hp q hq heq
    obtain ⟨hown, hparam⟩ := around_inside hp hq
    have hname := mem_ownName.mp hown
    have hpattern : ∃ role, role ≠ .name ∧ q.2 ∈ namesIn n role :=
      (List.mem_append.mp hparam).elim (fun h => ⟨_, by decide, h⟩) fun h => ⟨_, by decide, h⟩
    obtain ⟨role, hrole, hq⟩ := hpattern
    obtain ⟨c, hc, hq⟩ := mem_namesIn.mp hq
    have hid : p.2.id ∈ c.ids := heq ▸ Node.id_mem_ids (name_of_mem_patternNames hq).1
    have hsame := Node.child_eq_of_mem_ids hn (Node.mem_of_child? hname) (Node.mem_of_child? hc)
      (Node.id_mem_ids (Node.mem_preorder_self _)) hid
    have hroles := Node.role_of_child? hc
    rw [← hsame, Node.role_of_child? hname] at hroles
    exact hrole (Option.some.inj hroles).symm
  intro b k b' k' hb hb' heq
  rcases declared_mem_marks.mp hb with h | h | h <;>
    rcases declared_mem_marks.mp hb' with h' | h' | h' <;>
    obtain ⟨rfl, p, hp, -, rfl⟩ := mem_declaring.mp h <;>
    obtain ⟨rfl, q, hq, -, rfl⟩ := mem_declaring.mp h'
  case inl.inl => rfl
  case inr.inl.inr.inl => rfl
  case inr.inr.inr.inr => rfl
  case inl.inr.inl => exact absurd heq (hne p hp q hq)
  case inr.inl.inl => exact absurd heq.symm (hne q hq p hp)
  -- The others would declare in the nearest function and elsewhere.
  case inl.inr.inr => simp [(hoisted_alone hq).1] at hp
  case inr.inl.inr.inr => simp [(hoisted_alone hq).2] at hp
  case inr.inr.inl => simp [(hoisted_alone hp).1] at hq
  case inr.inr.inr.inl => simp [(hoisted_alone hp).2] at hq

/-- Nodes with different numbers declare no name in two scopes if each
of them does not. -/
theorem oneScope_walkAllMarks (hns : (ns.flatMap Node.ids).Nodup)
    (h : ∀ n ∈ ns, ∀ (t : Scopes) scope, OneScope (t.walkMarks scope n)) (t : Scopes)
    (scope : Nat) : OneScope (t.walkAllMarks scope ns) := by
  induction ns generalizing t with
  | nil => exact fun b k b' k' hb => absurd hb List.not_mem_nil
  | cons n ns ih =>
      rw [List.flatMap_cons] at hns
      rw [walkAllMarks]
      refine (h n (List.mem_cons_self ..) t scope).append
        (ih (List.nodup_append.mp hns).2.1 (fun m hm => h m (List.mem_cons_of_mem n hm)) _) ?_
      intro b k b' k' hb hb' heq
      obtain ⟨m, hm, t', hb'⟩ := exists_of_mem_walkAllMarks hb'
      exact (List.nodup_append.mp hns).2.2 _ (node_mem_ids hb) _
        (List.mem_flatMap.mpr ⟨m, hm, node_mem_ids hb'⟩) heq

/-- A walk declares no name in two scopes. -/
theorem oneScope_walkMarks (hn : n.ids.Nodup) (t : Scopes) (scope : Nat) :
    OneScope (t.walkMarks scope n) := by
  induction n using Node.childrenRec generalizing t scope with
  | h l cs ih =>
      have hids := Node.ids_eq (.mk l cs) ▸ hn
      have hchildren : ∀ c ∈ cs, ∀ (t : Scopes) scope, OneScope (t.walkMarks scope c) :=
        fun c hc t scope => ih c hc (Node.nodup_ids_of_child hn hc) t scope
      -- What the node declares is left alone by the children that are walked.
      have hne : (entry (.mk l cs)).walked ≠ .nothing → ∀ b k b' k',
          .declared b k ∈ (entry (.mk l cs)).marks t scope (.mk l cs) →
          (∃ c ∈ cs, ∃ (t' : Scopes) (scope' : Nat), .declared b' k' ∈ t'.walkMarks scope' c) →
          b.node ≠ b'.node := by
        rintro hw b k b' k' hb ⟨c, hc, t', scope', hb'⟩
        obtain ⟨p, hp, hname, rfl⟩ := exists_name_of_mem_marks hb
        exact (leaves_entry hn hp hname hw hc t' scope' b' k' hb').symm
      rw [walkMarks]
      cases hw : (entry (.mk l cs)).walked with
      | nothing => exact oneScope_marks hn t scope
      | all =>
          refine (oneScope_marks hn t scope).append
            (oneScope_walkAllMarks (List.nodup_cons.mp hids).2 hchildren _ _) ?_
          intro b k b' k' hb hb'
          obtain ⟨c, hc, t', hb'⟩ := exists_of_mem_walkAllMarks hb'
          exact hne (by simp [hw]) b k b' k' hb ⟨c, hc, t', _, hb'⟩
      | only role =>
          refine (oneScope_marks hn t scope).append ?_ ?_
          · rcases walkOnlyMarks_cases (t.marked ((entry (.mk l cs)).marks t scope (.mk l cs)))
              ((entry (.mk l cs)).inner t scope) role cs with h | ⟨c, hc, h⟩
            · rw [h]
              exact fun b k b' k' hb => absurd hb List.not_mem_nil
            · rw [h]
              exact hchildren c hc _ _
          intro b k b' k' hb hb'
          obtain ⟨c, hc, hb'⟩ := exists_of_mem_walkOnlyMarks hb'
          exact hne (by simp [hw]) b k b' k' hb ⟨c, hc, _, _, hb'⟩

/-- Every declaration of a module is made by a name of its tree. -/
theorem declared_of_mem_treeMarks (h : .declared b k ∈ treeMarks n) :
    ∃ m ∈ n.preorder, m.kind.isName = true ∧ ∃ kind, b = m.binding kind := by
  obtain ⟨c, hc, t, h⟩ := exists_of_mem_walkAllMarks h
  obtain ⟨m, hm, hb⟩ := declared_of_mem_walkMarks h
  exact ⟨m, Node.mem_preorder.mpr (.inr ⟨c, hc, hm⟩), hb⟩

/-- The walk of a module places and declares numbers of the tree
only. -/
theorem mem_ids_of_mem_treeMarks {i : Nat}
    (h : (∃ b, .declared b k ∈ treeMarks n ∧ b.node = i) ∨ .placed i k ∈ treeMarks n) :
    i ∈ n.ids := by
  rcases h with ⟨b, h, rfl⟩ | h
  · obtain ⟨c, hc, t, h⟩ := exists_of_mem_walkAllMarks h
    exact Node.mem_ids_of_child hc (node_mem_ids h)
  · obtain ⟨c, hc, t, h⟩ := exists_of_mem_walkAllMarks h
    exact Node.mem_ids_of_child hc (placed_mem_ids h)

/-- A module declares no name in two scopes. -/
theorem oneScope_treeMarks (hn : n.ids.Nodup) : OneScope (treeMarks n) := by
  have hids := Node.ids_eq n ▸ hn
  exact oneScope_walkAllMarks (List.nodup_cons.mp hids).2
    (fun c hc t scope => oneScope_walkMarks (Node.nodup_ids_of_child hn hc) t scope) _ _

end Scopes

end ScriptRefactor
