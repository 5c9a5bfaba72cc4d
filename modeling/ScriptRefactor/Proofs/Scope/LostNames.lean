import ScriptRefactor.Proofs.Scope.Bindings
import ScriptRefactor.Proofs.Syntax.Comments

/-!
# `ScriptRefactor.Proofs.Scope.LostNames`: names that stand behind a comment

A rest pattern, the import of a whole module and the clause of an import
bind the first construct below them. If a comment comes first
(`Node.opensWithComment`), they bind nothing, and the names behind the
comment are lost (`lostNames`).

This is all that comments take away. A pattern binds the names that it
binds without its comments, except those that are lost
(`patternNames_withoutComments`), and so does an import
(`importedNames_withoutComments`) and everything else that declares
names.

The names are told apart by their numbers. A lost name is below the
construct that loses it (`exists_child_of_loses`), so whether it is lost
is the same seen from any node above that construct
(`loses_eq_of_child`).
-/

set_option autoImplicit false

namespace ScriptRefactor

open Syntax

namespace Syntax.Node

/-- The construct binds what the first construct below it names. -/
def bindsFirst (n : Node) : Bool :=
  n.is .restPattern || n.is .namespaceImport || n.is .importClause

/-- The construct binds the first one below it, and that is a comment. -/
def opensWithComment (n : Node) : Bool := n.bindsFirst && n.firstNamed?.any isComment

end Syntax.Node

namespace Scopes

variable {n m c x : Node} {ns : List Node} {i : Nat} {role : Role}

/-! ### Lost names -/

/-- What a construct would bind without the comments below it. -/
def namesBehind (n : Node) : List Node :=
  patternNames n.withoutComments ++ (importedName? n.withoutComments).toList

/-- The names in a tree that stand behind a comment where the first construct
is bound. -/
def lostNames (n : Node) : List Node :=
  (n.preorder.filter Node.opensWithComment).flatMap namesBehind

/-- The name of that number is lost below the node. -/
def loses (n : Node) (i : Nat) : Bool := (lostNames n).any (·.id = i)

/-- The names that a node loses itself, and those lost below its children. -/
theorem lostNames_eq (n : Node) :
    lostNames n = (if n.opensWithComment then namesBehind n else [])
      ++ n.children.flatMap lostNames := by
  have hbelow : (n.children.flatMap Node.preorder).filter Node.opensWithComment
      = n.children.flatMap fun c => c.preorder.filter Node.opensWithComment :=
    List.filter_flatMap
  rw [lostNames, Node.preorder_eq, List.filter_cons, hbelow]
  split
  · rw [List.flatMap_cons, List.flatMap_assoc]
    rfl
  · rw [List.flatMap_assoc]
    rfl

/-- A name is lost by the node itself, or below a child. -/
theorem loses_iff : loses n i = true ↔
    (n.opensWithComment = true ∧ ∃ x ∈ namesBehind n, x.id = i)
      ∨ ∃ c ∈ n.children, loses c i = true := by
  have hlost : ∀ n, loses n i = true ↔ ∃ x ∈ lostNames n, x.id = i := by
    intro n
    simp [loses]
  rw [hlost, lostNames_eq]
  simp only [List.mem_append, List.mem_flatMap, hlost]
  constructor
  · rintro ⟨x, hx | ⟨c, hc, hx⟩, hi⟩
    · split at hx
      · exact .inl ⟨‹_›, x, hx, hi⟩
      · exact absurd hx List.not_mem_nil
    · exact .inr ⟨c, hc, x, hx, hi⟩
  · rintro (⟨hopen, x, hx, hi⟩ | ⟨c, hc, x, hx, hi⟩)
    · exact ⟨x, .inl (by rwa [if_pos hopen]), hi⟩
    · exact ⟨x, .inr ⟨c, hc, hx⟩, hi⟩

/-- What a construct of the tree would bind behind a comment is lost. -/
theorem loses_of_mem_namesBehind (hm : m ∈ n.preorder) (hopen : m.opensWithComment = true)
    (hx : x ∈ namesBehind m) : loses n x.id = true := by
  have hlost : x ∈ lostNames n := List.mem_flatMap.mpr ⟨m, List.mem_filter.mpr ⟨hm, hopen⟩, hx⟩
  exact List.any_eq_true.mpr ⟨x, hlost, decide_eq_true rfl⟩

/-- A construct that loses all these names keeps none of them. -/
theorem filter_loses_eq_nil (hopen : n.opensWithComment = true)
    (hns : ∀ x ∈ ns, x ∈ namesBehind n) : ns.filter (fun x => !loses n x.id) = [] := by
  refine List.filter_eq_nil_iff.mpr fun x hx => ?_
  rw [loses_of_mem_namesBehind (Node.mem_preorder_self n) hopen (hns x hx)]
  exact Bool.false_ne_true

/-- A node that opens with a comment is of one of three kinds. -/
theorem kind_of_opensWithComment (h : n.opensWithComment = true) :
    n.kind = .construct .restPattern ∨ n.kind = .construct .namespaceImport
      ∨ n.kind = .construct .importClause := by
  rw [Node.opensWithComment, Node.bindsFirst, Bool.and_eq_true, Bool.or_eq_true,
    Bool.or_eq_true] at h
  rcases h.1 with (h | h) | h
  · exact .inl (of_decide_eq_true h)
  · exact .inr (.inl (of_decide_eq_true h))
  · exact .inr (.inr (of_decide_eq_true h))

/-- A name behind the comment is bound by a child, or is one. -/
theorem namesBehind_cases (h : n.opensWithComment = true) (hx : x ∈ namesBehind n) :
    ∃ c ∈ n.withoutComments.children, x ∈ patternNames c ∨ x = c := by
  rcases List.mem_append.mp hx with hx | hx
  · rcases patternNames_cases hx with ⟨-, hname⟩ | ⟨⟨c, hc, hx⟩, -⟩
    · -- None of the three kinds is a name.
      rw [Node.kind_withoutComments] at hname
      rcases kind_of_opensWithComment h with hk | hk | hk <;> rw [hk] at hname <;> cases hname
    · exact ⟨c, hc, .inl hx⟩
  · exact ⟨x, mem_children_of_importedName? (Option.mem_toList.mp hx), .inr rfl⟩

/-- A lost name is below a child. -/
theorem exists_child_of_loses (h : loses n i = true) : ∃ c ∈ n.children, i ∈ c.ids := by
  induction n using Node.childrenRec with
  | h l cs ih =>
      rcases loses_iff.mp h with ⟨hopen, x, hx, rfl⟩ | ⟨c, hc, h⟩
      · obtain ⟨c, hc, hx⟩ := namesBehind_cases hopen hx
        obtain ⟨d, hd, -, rfl⟩ := Node.mem_children_withoutComments.mp hc
        have hid : x.id ∈ d.withoutComments.ids := by
          rcases hx with hx | rfl
          · exact Node.id_mem_ids (name_of_mem_patternNames hx).1
          · exact Node.id_mem_ids (Node.mem_preorder_self _)
        exact ⟨d, hd, Node.mem_ids_of_withoutComments hid⟩
      · obtain ⟨d, hd, hi⟩ := ih c hc h
        exact ⟨c, hc, Node.mem_ids_of_child hd hi⟩

/-- No node is lost below itself. -/
theorem loses_self (hn : n.ids.Nodup) : loses n n.id = false := by
  refine Bool.eq_false_iff.mpr fun h => ?_
  obtain ⟨c, hc, hi⟩ := exists_child_of_loses h
  rw [Node.ids_eq] at hn
  exact (List.nodup_cons.mp hn).1 (List.mem_flatMap.mpr ⟨c, hc, hi⟩)

/-- What is below a child is lost there, if the node does not lose it
itself. -/
theorem loses_eq_of_child (hn : n.ids.Nodup) (hc : c ∈ n.children) (hi : i ∈ c.ids)
    (hself : n.opensWithComment = true → ∀ x ∈ namesBehind n, x.id ≠ i) :
    loses n i = loses c i := by
  rw [Bool.eq_iff_iff, loses_iff]
  constructor
  · rintro (⟨hopen, x, hx, hxi⟩ | ⟨d, hd, h⟩)
    · exact absurd hxi (hself hopen x hx)
    · obtain ⟨e, he, hie⟩ := exists_child_of_loses h
      rwa [Node.child_eq_of_mem_ids hn hc hd hi (Node.mem_ids_of_child he hie)]
  · exact fun h => .inr ⟨c, hc, h⟩

/-- A child is kept by a node that opens with no comment. -/
theorem loses_child_eq_false (hn : n.ids.Nodup) (hopen : n.opensWithComment = false)
    (hc : c ∈ n.children) : loses n c.id = false := by
  have hself : n.opensWithComment = true → ∀ x ∈ namesBehind n, x.id ≠ c.id := by
    intro h
    rw [hopen] at h
    cases h
  rw [loses_eq_of_child hn hc (Node.id_mem_ids (Node.mem_preorder_self c)) hself]
  exact loses_self (Node.nodup_ids_of_child hn hc)

/-! ### Names in patterns -/

/-- A comment binds nothing. -/
theorem patternNames_of_isComment (h : n.isComment = true) : patternNames n = [] := by
  have hk := Node.kind_of_isComment h
  obtain ⟨l, cs⟩ := n
  have hk : l.kind = .construct .comment := hk
  rw [patternNames, hk]
  rfl

/-- A comment that comes first hides all behind it. -/
theorem partNames_first_of_comment (h : (ns.filter Node.isNamed).head?.any Node.isComment = true) :
    partNames .first ns = [] := by
  induction ns with
  | nil => cases h
  | cons n ns ih =>
      rw [List.filter_cons] at h
      unfold partNames
      dsimp only
      split
      · rw [if_pos ‹_›] at h
        exact patternNames_of_isComment h
      · rw [if_neg ‹_›] at h
        exact ih h

/-- A comment is passed over where not the first construct is chosen: it plays
no role and binds nothing. -/
theorem partNames_cons_of_isComment {part : Part} (h : n.isComment = true)
    (hpart : part ≠ .first) : partNames part (n :: ns) = partNames part ns := by
  conv_lhs => unfold partNames
  cases part with
  | all =>
      dsimp only
      rw [patternNames_of_isComment h, ite_self, List.nil_append]
  | first => exact absurd rfl hpart
  | inRole role =>
      dsimp only
      rw [Node.role_of_isComment h, if_neg (by simp)]

/-- What the chosen ones of some nodes bind without the comments, if no comment
is chosen as the first construct. -/
theorem partNames_withoutComments (part : Part) (p : Node → Bool)
    (hfirst : part = .first → (ns.filter Node.isNamed).head?.any Node.isComment = false)
    (h : ∀ n ∈ ns, (patternNames n).map Node.withoutComments
      = (patternNames n.withoutComments).filter p) :
    (partNames part ns).map Node.withoutComments
      = (partNames part ((ns.filter (!·.isComment)).map Node.withoutComments)).filter p := by
  induction ns with
  | nil =>
      unfold partNames
      rfl
  | cons n ns ih =>
      have hn := h n (List.mem_cons_self ..)
      have hns := fun hfirst => ih hfirst fun m hm => h m (List.mem_cons_of_mem n hm)
      rw [List.filter_cons]
      cases hcomment : n.isComment with
      | true =>
          -- The comment is not chosen, because it would be the first construct.
          have hpart : part ≠ .first := by
            intro hpart
            have hnamed : n.isNamed = true := by
              rw [Node.isNamed, Node.kind_of_isComment hcomment]
              rfl
            have hno := hfirst hpart
            rw [List.filter_cons, if_pos hnamed] at hno
            exact absurd hcomment (Bool.eq_false_iff.mp hno)
          rw [partNames_cons_of_isComment hcomment hpart]
          exact hns fun h => absurd h hpart
      | false =>
          have hkeep : (!false) = true := rfl
          rw [if_pos hkeep, List.map_cons]
          unfold partNames
          rw [Node.isNamed_withoutComments, Node.label_withoutComments]
          cases part with
          | all =>
              have hns := hns (fun hpart => by cases hpart)
              dsimp only
              rw [List.map_append, List.filter_append, hns]
              split
              · rw [hn]
              · rfl
          | first =>
              dsimp only
              split
              · exact hn
              · refine hns fun hpart => ?_
                have hno := hfirst hpart
                rwa [List.filter_cons, if_neg ‹_›] at hno
          | inRole role =>
              dsimp only
              split
              · exact hn
              · exact hns fun hpart => by cases hpart

/-- Of what is bound without the comments, what is below a child is lost there,
if the node opens with no comment. -/
theorem filter_loses_child (hn : n.ids.Nodup) (hopen : n.opensWithComment = false)
    (hc : c ∈ n.children) (hns : ∀ x ∈ ns, x.id ∈ c.withoutComments.ids) :
    ns.filter (fun x => !loses c x.id) = ns.filter fun x => !loses n x.id := by
  refine List.filter_congr fun x hx => ?_
  have hself : n.opensWithComment = true → ∀ y ∈ namesBehind n, y.id ≠ x.id := by
    intro h
    rw [hopen] at h
    cases h
  rw [loses_eq_of_child hn hc (Node.mem_ids_of_withoutComments (hns x hx)) hself]

/-- What the parts of a pattern bind is what they bind without the comments,
except the lost names, if the same holds of each part and no comment comes
first. -/
theorem partNames_commentless {l : Label} {cs : List Node} (hn : (Node.mk l cs).ids.Nodup)
    (hopen : (Node.mk l cs).opensWithComment = false)
    (h : ∀ c ∈ cs, (patternNames c).map Node.withoutComments
      = (patternNames c.withoutComments).filter fun x => !loses c x.id)
    (part : Part) (hfirst : part = .first → (cs.filter Node.isNamed).head?.any Node.isComment = false) :
    (partNames part cs).map Node.withoutComments
      = (partNames part (Node.commentless cs)).filter fun x => !loses (.mk l cs) x.id := by
  rw [Node.commentless_eq_map]
  refine partNames_withoutComments part _ hfirst fun c hc => ?_
  rw [h c hc]
  exact filter_loses_child hn hopen hc fun x hx =>
    Node.id_mem_ids (name_of_mem_patternNames hx).1

/-- A rest pattern binds what it binds without the comments, except the lost
names: all of them if a comment comes first. -/
theorem restNames_commentless {l : Label} {cs : List Node} (hk : l.kind = .construct .restPattern)
    (hn : (Node.mk l cs).ids.Nodup)
    (h : ∀ c ∈ cs, (patternNames c).map Node.withoutComments
      = (patternNames c.withoutComments).filter fun x => !loses c x.id) :
    (partNames .first cs).map Node.withoutComments
      = (partNames .first (Node.commentless cs)).filter fun x => !loses (.mk l cs) x.id := by
  have hopen : (Node.mk l cs).opensWithComment
      = (cs.filter Node.isNamed).head?.any Node.isComment := by
    have hbinds : (Node.mk l cs).bindsFirst = true := by
      rw [Node.bindsFirst, Node.is, Node.kind, Node.label, hk]
      rfl
    rw [Node.opensWithComment, hbinds]
    rfl
  cases hfirst : (cs.filter Node.isNamed).head?.any Node.isComment with
  | false => exact partNames_commentless hn (hopen.trans hfirst) h .first fun _ => hfirst
  | true =>
      -- With the comment first nothing is bound, and all that would be is lost.
      rw [partNames_first_of_comment hfirst]
      refine (filter_loses_eq_nil (hopen.trans hfirst) fun x hx => ?_).symm
      refine List.mem_append_left _ ?_
      rw [Node.withoutComments, patternNames, hk]
      exact hx

/-- A pattern binds what it binds without the comments, except the names that
are lost. -/
theorem patternNames_withoutComments (hn : n.ids.Nodup) :
    (patternNames n).map Node.withoutComments
      = (patternNames n.withoutComments).filter fun x => !loses n x.id := by
  induction n using Node.childrenRec with
  | h l cs ih =>
      have hchildren := fun c hc => ih c hc (Node.nodup_ids_of_child hn hc)
      have hself : [Node.mk l cs].map Node.withoutComments
          = [(Node.mk l cs).withoutComments].filter fun x => !loses (.mk l cs) x.id := by
        rw [List.filter_cons, Node.id_withoutComments, loses_self hn]
        rfl
      have hother : ∀ {k}, l.kind = .construct k →
          k ≠ .restPattern ∧ k ≠ .namespaceImport ∧ k ≠ .importClause →
          (Node.mk l cs).opensWithComment = false := by
        rintro k hk ⟨hrest, hwhole, hclause⟩
        refine Bool.eq_false_iff.mpr fun h => ?_
        rcases kind_of_opensWithComment h with h | h | h
        · exact hrest (Kind.construct.inj (hk.symm.trans h))
        · exact hwhole (Kind.construct.inj (hk.symm.trans h))
        · exact hclause (Kind.construct.inj (hk.symm.trans h))
      rw [Node.withoutComments, patternNames, patternNames]
      -- A name binds itself, a rest pattern its first part, and other patterns the parts in their
      -- roles, which no comment takes.
      cases hk : l.kind with
      | token text => rfl
      | construct k =>
          cases k <;> first
            | rfl
            | exact hself
            | exact restNames_commentless hk hn hchildren
            | exact partNames_commentless hn (hother hk (by decide)) hchildren _ (by rintro ⟨⟩)

/-! ### Names of an import -/

/-- A local name is a child of a part of the import. -/
theorem exists_of_mem_importedNames (h : x ∈ importedNames n) :
    ∃ m ∈ n.preorder, x ∈ m.children := by
  obtain ⟨m, hm, hx⟩ := List.mem_filterMap.mp h
  exact ⟨m, hm, mem_children_of_importedName? hx⟩

/-- A local name is in the tree. -/
theorem mem_preorder_of_mem_importedNames (h : x ∈ importedNames n) : x ∈ n.preorder := by
  obtain ⟨m, hm, hx⟩ := exists_of_mem_importedNames h
  exact Node.mem_preorder_trans hm (Node.mem_preorder_of_child hx)

/-- The node itself is no local name of its parts. -/
theorem id_ne_of_mem_importedNames (hn : n.ids.Nodup) (h : x ∈ importedNames n) : n.id ≠ x.id := by
  intro hid
  obtain ⟨m, hm, hx⟩ := exists_of_mem_importedNames h
  rw [Node.ids_eq] at hn
  refine (List.nodup_cons.mp hn).1 (List.mem_flatMap.mpr ?_)
  rcases Node.mem_preorder.mp hm with rfl | ⟨c, hc, hm⟩
  · exact ⟨x, hx, hid ▸ Node.id_mem_ids (Node.mem_preorder_self x)⟩
  · exact ⟨c, hc, hid ▸ Node.id_mem_ids
      (Node.mem_preorder_trans hm (Node.mem_preorder_of_child hx))⟩

/-- A pattern is no part of an import. -/
theorem importedName?_of_mem_patternNames (h : x ∈ patternNames n) : importedName? n = none := by
  obtain ⟨l, cs⟩ := n
  rw [patternNames] at h
  unfold importedName? Node.kind Node.label
  cases hk : l.kind with
  | token text => rfl
  | construct k =>
      rw [hk] at h
      cases k <;> first | rfl | exact absurd h List.not_mem_nil

/-- What a pattern binds is no local name of an import below it. -/
theorem not_mem_importedNames_of_mem_patternNames (hn : n.ids.Nodup) (h : x ∈ patternNames n) :
    x ∉ importedNames n := by
  induction n using Node.childrenRec with
  | h l cs ih =>
      intro himported
      rcases patternNames_cases h with ⟨rfl, -⟩ | ⟨⟨c, hc, hx⟩, -⟩
      · exact id_ne_of_mem_importedNames hn himported rfl
      · rw [importedNames_eq, importedName?_of_mem_patternNames h] at himported
        obtain ⟨d, hd, hxd⟩ := List.mem_flatMap.mp himported
        -- It is below one child only.
        have hid : x.id ∈ c.ids := Node.id_mem_ids (name_of_mem_patternNames hx).1
        have hid' : x.id ∈ d.ids := Node.id_mem_ids (mem_preorder_of_mem_importedNames hxd)
        obtain rfl := Node.child_eq_of_mem_ids hn hc hd hid hid'
        exact ih c hc (Node.nodup_ids_of_child hn hc) hx hxd

/-- A node loses no local name of an import below a child itself. -/
theorem id_ne_of_mem_namesBehind {y : Node} (hn : n.ids.Nodup) (hopen : n.opensWithComment = true)
    (hy : y ∈ namesBehind n) (hc : c ∈ n.withoutComments.children) (hx : x ∈ importedNames c) :
    y.id ≠ x.id := by
  intro hid
  have hn' := Node.nodup_ids_withoutComments hn
  obtain ⟨d, hd, hy⟩ := namesBehind_cases hopen hy
  have hxc : x.id ∈ c.ids := Node.id_mem_ids (mem_preorder_of_mem_importedNames hx)
  have hcn := Node.nodup_ids_of_child hn' hc
  rcases hy with hy | rfl
  · have hyd := (name_of_mem_patternNames hy).1
    obtain rfl := Node.child_eq_of_mem_ids hn' hd hc (hid ▸ Node.id_mem_ids hyd) hxc
    obtain rfl := Node.eq_of_id_eq hcn hyd (mem_preorder_of_mem_importedNames hx) hid
    exact not_mem_importedNames_of_mem_patternNames hcn hy hx
  · obtain rfl := Node.child_eq_of_mem_ids hn' hd hc
      (hid ▸ Node.id_mem_ids (Node.mem_preorder_self y)) hxc
    exact id_ne_of_mem_importedNames hcn hx hid

/-- The name that a part of an import declares is the same without comments if
none comes first. -/
theorem importedName?_withoutComments (hopen : n.opensWithComment = false) :
    importedName? n.withoutComments = (importedName? n).map Node.withoutComments := by
  -- Only constructs that bind their first named child need that no comment stands there.
  have hfirst : n.bindsFirst = true →
      n.withoutComments.firstNamed? = n.firstNamed?.map Node.withoutComments := by
    intro hbinds
    rw [Node.opensWithComment, hbinds, Bool.true_and] at hopen
    exact Node.firstNamed?_withoutComments hopen
  unfold importedName?
  rw [Node.kind_withoutComments]
  unfold Node.bindsFirst Node.is at hfirst
  cases hk : n.kind with
  | token text => rfl
  | construct k =>
      rw [hk] at hfirst
      -- All but two constructs declare no name or bind the first one.
      cases k <;> first
        | rfl
        | exact hfirst rfl
        | skip
      case importClause =>
        dsimp only
        rw [hfirst rfl, Option.filter_map]
        congr 2
        funext c
        exact Node.is_withoutComments c .identifier
      case importSpecifier =>
        dsimp only
        rw [Node.child?_withoutComments, Node.child?_withoutComments, Option.map_or]

/-- A part of an import that opens with a comment declares no name. -/
theorem filter_isName_importedName? (hopen : n.opensWithComment = true) :
    (importedName? n).toList.filter (·.kind.isName) = [] := by
  have hfirst : n.firstNamed?.any Node.isComment = true := by
    rw [Node.opensWithComment, Bool.and_eq_true] at hopen
    exact hopen.2
  obtain ⟨c, hc, hcomment⟩ := (Option.any_eq_true _ _).mp hfirst
  have hkind := Node.kind_of_isComment hcomment
  unfold importedName?
  rcases kind_of_opensWithComment hopen with hk | hk | hk <;> rw [hk] <;> dsimp only
  · rfl
  · rw [hc, Option.toList_some, List.filter_cons, hkind]
    rfl
  · rw [hc, Option.filter_some, if_neg (by simp [Node.is, hkind])]
    rfl

/-- Nothing is below a comment that an import could declare. -/
theorem importedNames_of_isComment (h : n.isComment = true) : importedNames n = [] := by
  have hname : importedName? n = none := by
    rw [importedName?, Node.kind_of_isComment h]
  rw [importedNames_eq, hname, Node.children_of_isComment h]
  rfl

/-- A part of an import declares the name that it declares without the comments,
unless it is lost. -/
theorem ownImportedName_withoutComments (hn : n.ids.Nodup) :
    ((importedName? n).toList.filter (·.kind.isName)).map Node.withoutComments
      = ((importedName? n.withoutComments).toList.filter (·.kind.isName)).filter
          fun x => !loses n x.id := by
  cases hopen : n.opensWithComment with
  | true =>
      rw [filter_isName_importedName? hopen]
      exact (filter_loses_eq_nil hopen fun x hx =>
        List.mem_append_right _ (List.mem_filter.mp hx).1).symm
  | false =>
      rw [importedName?_withoutComments hopen]
      cases hx : importedName? n with
      | none => rfl
      | some x =>
          have hkept : loses n x.id = false :=
            loses_child_eq_false hn hopen (mem_children_of_importedName? hx)
          simp only [Option.toList_some, Option.map_some, List.filter_cons,
            Node.kind_withoutComments, List.filter_nil]
          split
          · simp [hkept]
          · rfl

/-- The names below the children of a node are those without the comments,
except the lost ones, if the same holds of each child. -/
theorem flatMap_importedNames_commentless (hn : n.ids.Nodup)
    (h : ∀ c ∈ n.children, ((importedNames c).filter (·.kind.isName)).map Node.withoutComments
      = ((importedNames c.withoutComments).filter (·.kind.isName)).filter
          fun x => !loses c x.id)
    (hns : ∀ c ∈ ns, c ∈ n.children) :
    ((ns.flatMap importedNames).filter (·.kind.isName)).map Node.withoutComments
      = (((Node.commentless ns).flatMap importedNames).filter (·.kind.isName)).filter
          fun x => !loses n x.id := by
  induction ns with
  | nil => rfl
  | cons c ns ih =>
      have hrest := ih fun d hd => hns d (List.mem_cons_of_mem c hd)
      have hc := hns c (List.mem_cons_self ..)
      rw [List.flatMap_cons, Node.commentless]
      cases hcomment : c.isComment with
      | true =>
          rw [importedNames_of_isComment hcomment, if_pos rfl]
          exact hrest
      | false =>
          rw [if_neg Bool.false_ne_true, List.flatMap_cons, List.filter_append,
            List.filter_append, List.filter_append, List.map_append, hrest, h c hc]
          congr 1
          -- Below the child the same names are lost, seen from the node.
          refine List.filter_congr fun x hx => ?_
          have hx := (List.mem_filter.mp hx).1
          have hchild := Node.withoutComments_mem_children hc hcomment
          have hid := Node.id_mem_ids (mem_preorder_of_mem_importedNames hx)
          rw [loses_eq_of_child hn hc (Node.mem_ids_of_withoutComments hid)
            fun hopen y hy => id_ne_of_mem_namesBehind hn hopen hy hchild hx]

/-- An import declares what it declares without the comments, except the names
that are lost. -/
theorem importedNames_withoutComments (hn : n.ids.Nodup) :
    ((importedNames n).filter (·.kind.isName)).map Node.withoutComments
      = ((importedNames n.withoutComments).filter (·.kind.isName)).filter
          fun x => !loses n x.id := by
  induction n using Node.childrenRec with
  | h l cs ih =>
      have hbelow := flatMap_importedNames_commentless hn
        (fun c hc => ih c hc (Node.nodup_ids_of_child hn hc)) fun _ hc => hc
      rw [importedNames_eq, importedNames_eq (Node.mk l cs).withoutComments, List.filter_append,
        List.filter_append, List.filter_append, List.map_append,
        ownImportedName_withoutComments hn]
      congr 1

/-! ### What a node declares -/

/-- The names in a role are those without the comments, except the lost
ones. -/
theorem namesIn_withoutComments (hn : n.ids.Nodup) (hopen : n.opensWithComment = false)
    (role : Role) :
    (namesIn n role).map Node.withoutComments
      = (namesIn n.withoutComments role).filter fun x => !loses n x.id := by
  rw [namesIn, namesIn, Node.child?_withoutComments]
  cases hc : n.child? role with
  | none => rfl
  | some c =>
      have hchild := Node.mem_of_child? hc
      simp only [Option.toList_some, Option.map_some, List.flatMap_singleton]
      rw [patternNames_withoutComments (Node.nodup_ids_of_child hn hchild)]
      refine filter_loses_child hn hopen hchild fun x hx => ?_
      exact Node.id_mem_ids (name_of_mem_patternNames hx).1

/-- The name of a construct is not lost. -/
theorem ownName_withoutComments (hn : n.ids.Nodup) (hopen : n.opensWithComment = false) :
    (ownName n).map Node.withoutComments
      = (ownName n.withoutComments).filter fun x => !loses n x.id := by
  rw [ownName, ownName, Node.child?_withoutComments]
  cases hc : n.child? .name with
  | none => rfl
  | some c =>
      have hkept := loses_child_eq_false hn hopen (Node.mem_of_child? hc)
      simp [hkept]

/-- The parameters of a function without the comments. -/
theorem parameterNames_withoutComments (hn : n.ids.Nodup) (hopen : n.opensWithComment = false) :
    (parameterNames n).map Node.withoutComments
      = (parameterNames n.withoutComments).filter fun x => !loses n x.id := by
  rw [parameterNames, parameterNames, List.map_append, List.filter_append,
    namesIn_withoutComments hn hopen, namesIn_withoutComments hn hopen]

/-- The variables of a declaration without the comments. -/
theorem variableNames_withoutComments (hn : n.ids.Nodup) (hopen : n.opensWithComment = false) :
    (variableNames n).map Node.withoutComments
      = (variableNames n.withoutComments).filter fun x => !loses n x.id := by
  rw [variableNames, variableNames, Node.childrenOf_withoutComments (by decide)]
  have hds : ∀ d ∈ n.childrenOf .variableDeclarator, d ∈ n.children ∧ d.opensWithComment = false := by
    intro d hd
    refine ⟨Node.mem_of_mem_childrenOf hd, Bool.eq_false_iff.mpr fun h => ?_⟩
    have hkind : d.kind = .construct .variableDeclarator :=
      of_decide_eq_true (List.mem_filter.mp hd).2
    rcases kind_of_opensWithComment h with hk | hk | hk <;> rw [hkind] at hk <;> cases hk
  generalize n.childrenOf .variableDeclarator = ds at hds
  induction ds with
  | nil => rfl
  | cons d ds ih =>
      obtain ⟨hchild, hclear⟩ := hds d (List.mem_cons_self ..)
      rw [List.map_cons, List.flatMap_cons, List.flatMap_cons, List.map_append, List.filter_append,
        ih fun e he => hds e (List.mem_cons_of_mem d he),
        namesIn_withoutComments (Node.nodup_ids_of_child hn hchild) hclear]
      congr 1
      refine filter_loses_child hn hopen hchild fun x hx => ?_
      exact Node.id_mem_ids (mem_preorder_of_mem_namesIn hx)

/-- What the head of a loop declares without the comments. -/
theorem loopNames_withoutComments (hn : n.ids.Nodup) (hopen : n.opensWithComment = false) :
    (loopNames n).map (Prod.map id Node.withoutComments)
      = (loopNames n.withoutComments).filter fun q => !loses n q.2.id := by
  have hnames := namesIn_withoutComments hn hopen .left
  rw [loopNames, loopNames, Node.child?_withoutComments]
  cases n.child? .kind with
  | none => rfl
  | some word =>
      have hword : loopKind word.withoutComments = loopKind word := by
        rw [loopKind, Node.lexeme_withoutComments, loopKind]
      simp only [Option.toList_some, Option.map_some, List.flatMap_singleton]
      rw [hword, allAs, allAs, List.map_map, List.filter_map]
      have hmap : Prod.map id Node.withoutComments ∘ Prod.mk (loopKind word)
          = Prod.mk (loopKind word) ∘ Node.withoutComments := rfl
      rw [hmap, ← List.map_map, hnames]
      rfl

end Scopes

end ScriptRefactor
