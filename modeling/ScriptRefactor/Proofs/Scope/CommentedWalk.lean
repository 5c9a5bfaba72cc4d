import ScriptRefactor.Proofs.Scope.LostNames

/-!
# `ScriptRefactor.Proofs.Scope.CommentedWalk`: the walk of a tree with comments

The walk of a tree makes the marks that it makes without the comments,
except that no lost name is declared (`treeMarks_withoutComments`).

A node declares what it declares without the comments, except the lost
names (`entry_withoutComments`), and comments open no scope, so the
scopes correspond by their numbers. The marks of a walk follow by
induction on the tree. What is walked below a construct declares none of
the names that the construct loses (`leaves_namesBehind`), so the marks
below a child lack the same names seen from the child and from the node.
-/

set_option autoImplicit false

namespace ScriptRefactor

open Syntax

/-- The mark declares no name that is lost below the node. -/
def Mark.kept (root : Node) : Mark → Bool
  | .declared b _ => !Scopes.loses root b.node
  | _ => true

/-- In which scope a scope stands that a mark opens, what opens it, and
where. -/
def Mark.frame? : Mark → Option (Option Nat × ScopeKind × Span)
  | .opened parent? kind span => some (parent?, kind, span)
  | _ => none

namespace Scopes

/-- In which scope each scope stands, what opened it, and where. -/
def frames (t : Scopes) : List (Option Nat × ScopeKind × Span) :=
  t.scopes.map fun s => (s.parent?, s.kind, s.span)

variable {n m c x root : Node} {ns : List Node} {t t' : Scopes} {scope : Nat}
  {ps qs : List (BindingKind × Node)}

/-! ### The marks of a node -/

/-- The nodes declare what the others declare, except the names that are lost
below `root`. -/
def Drops (root : Node) (ps qs : List (BindingKind × Node)) : Prop :=
  ∀ scope, declaring scope ps = (declaring scope qs).filter (Mark.kept root)

/-- No nodes declare nothing. -/
theorem drops_nil (root : Node) : Drops root [] [] := fun _ => rfl

/-- Some nodes, and then the others. -/
theorem Drops.append {ps' qs' : List (BindingKind × Node)} (h : Drops n ps qs)
    (h' : Drops n ps' qs') : Drops n (ps ++ ps') (qs ++ qs') := by
  intro scope
  rw [declaring_append, declaring_append, List.filter_append, h, h']

/-- Nodes declare the same without comments below them. -/
theorem declaring_map_withoutComments (scope : Nat) (ps : List (BindingKind × Node)) :
    declaring scope (ps.map (Prod.map id Node.withoutComments)) = declaring scope ps := by
  rw [declaring, declaring, List.filter_map, List.map_map]
  have hname : ((fun p : BindingKind × Node => p.2.kind.isName) ∘ Prod.map id Node.withoutComments)
      = fun p => p.2.kind.isName := by
    funext p
    exact congrArg Kind.isName (Node.kind_withoutComments p.2)
  rw [hname]
  refine List.map_congr_left fun p _ => ?_
  simp [Node.binding]

/-- Some of the nodes are declared without the others. -/
theorem declaring_filter (scope : Nat) (qs : List (BindingKind × Node)) :
    declaring scope (qs.filter fun q => !loses n q.2.id)
      = (declaring scope qs).filter (Mark.kept n) := by
  rw [declaring, declaring, List.filter_map, List.filter_filter, List.filter_filter]
  congr 2
  funext q
  exact Bool.and_comm ..

/-- Nodes that are the others without the lost ones. -/
theorem drops_of_map_eq (h : ps.map (Prod.map id Node.withoutComments)
    = qs.filter fun q => !loses n q.2.id) : Drops n ps qs := by
  intro scope
  rw [← declaring_map_withoutComments, h, declaring_filter]

/-- Nodes that are all declared in the same way. -/
theorem drops_allAs {ns' : List Node} (kind : BindingKind)
    (h : ns.map Node.withoutComments = ns'.filter fun x => !loses n x.id) :
    Drops n (allAs kind ns) (allAs kind ns') := by
  refine drops_of_map_eq ?_
  have hmap : Prod.map id Node.withoutComments ∘ Prod.mk kind
      = Prod.mk kind ∘ Node.withoutComments := rfl
  rw [allAs, allAs, List.map_map, hmap, ← List.map_map, h, List.filter_map]
  rfl

/-- Only the names among the nodes count. -/
theorem declaring_allAs_filter (scope : Nat) (kind : BindingKind) (ns : List Node) :
    declaring scope (allAs kind (ns.filter (·.kind.isName))) = declaring scope (allAs kind ns) := by
  rw [declaring, declaring, allAs, allAs, List.filter_map, List.filter_map, List.filter_filter]
  congr 3
  funext x
  exact Bool.and_self _

/-- An import declares the names that are not lost. -/
theorem drops_importedNames (hn : n.ids.Nodup) :
    Drops n (allAs .imported (importedNames n))
      (allAs .imported (importedNames n.withoutComments)) := by
  intro scope
  rw [← declaring_allAs_filter, ← declaring_allAs_filter _ _ (importedNames n.withoutComments)]
  exact drops_allAs .imported (importedNames_withoutComments hn) scope

/-- What happens at a node, and what happens at another one, apart from the
names that are lost below `root`. -/
structure Entry.Drops (root : Node) (e e' : Entry) : Prop where
  /-- What is declared around the node. -/
  around : Scopes.Drops root e.around e'.around
  /-- The scope that is opened. -/
  opens : e.opens? = e'.opens?
  /-- What is declared inside the scope that is opened. -/
  inside : Scopes.Drops root e.inside e'.inside
  /-- What is declared in the nearest function. -/
  hoisted : Scopes.Drops root e.hoisted e'.hoisted
  /-- The node itself is placed. -/
  places : e.places = e'.places
  /-- The children that are walked. -/
  walked : e.walked = e'.walked

/-- What declares nothing drops nothing. -/
theorem Entry.drops_of_nil {e : Entry} (h : e.around = []) (h' : e.inside = [])
    (h'' : e.hoisted = []) : Entry.Drops n e e where
  around := h ▸ drops_nil n
  opens := rfl
  inside := h' ▸ drops_nil n
  hoisted := h'' ▸ drops_nil n
  places := rfl
  walked := rfl

/-- A word opens a scope or does nothing. -/
theorem entry_of_token {text : String} (h : n.kind = .token text) :
    entry n = { opens? := if text = "function" then some .function
                          else if text = "class" then some .classBody else none } := by
  unfold entry
  rw [h]
  split <;> simp_all

/-- A node declares what it declares without the comments, except the names
that are lost. -/
theorem entry_withoutComments (hn : n.ids.Nodup) :
    Entry.Drops n (entry n) (entry n.withoutComments) := by
  cases hopen : n.opensWithComment with
  | true =>
      -- These constructs bind through a pattern and declare nothing themselves.
      have hplain : entry n = {} ∧ entry n.withoutComments = {} := by
        unfold entry
        rw [Node.kind_withoutComments]
        rcases kind_of_opensWithComment hopen with hk | hk | hk <;> rw [hk] <;> exact ⟨rfl, rfl⟩
      rw [hplain.1, hplain.2]
      exact Entry.drops_of_nil rfl rfl rfl
  | false =>
      -- What each kind of entry is put together from, with and without the comments.
      have hown := fun kind => drops_allAs kind (ownName_withoutComments hn hopen)
      have hparameters := drops_allAs .parameter (parameterNames_withoutComments hn hopen)
      have hvariables := fun kind => drops_allAs kind (variableNames_withoutComments hn hopen)
      have hcaught := drops_allAs .caught (namesIn_withoutComments hn hopen .parameter)
      have hloop : ∀ p : BindingKind → Bool, Drops n ((loopNames n).filter fun q => p q.1)
          ((loopNames n.withoutComments).filter fun q => p q.1) := by
        intro p
        refine drops_of_map_eq ?_
        rw [List.filter_filter, List.filter_congr fun q _ => Bool.and_comm .., ← List.filter_filter,
          ← loopNames_withoutComments hn hopen, List.filter_map]
        rfl
      have himported := drops_importedNames hn
      have hsource : (n.withoutComments.child? .source).isSome = (n.child? .source).isSome := by
        rw [Node.child?_withoutComments, Option.isSome_map]
      have hconst : (n.withoutComments.child? .kind).any (·.lexeme = "const")
          = (n.child? .kind).any (·.lexeme = "const") := by
        rw [Node.child?_withoutComments]
        cases n.child? .kind with
        | none => rfl
        | some word => simp
      have hinner := hloop (· ≠ .var)
      have houter := hloop (· = .var)
      cases hk : n.kind with
      | token text =>
          rw [entry_of_token hk, entry_of_token ((Node.kind_withoutComments n).trans hk)]
          exact Entry.drops_of_nil rfl rfl rfl
      | construct c =>
          unfold entry
          rw [Node.kind_withoutComments, hk]
          dsimp only
          rw [hsource, hconst]
          -- One line per shape of entry. A construct takes the first that fits.
          have hnil := drops_nil n
          cases c <;> first
            | exact Entry.drops_of_nil rfl rfl rfl
            | exact ⟨hown _, rfl, hparameters, hnil, rfl, rfl⟩
            | exact ⟨hnil, rfl, (hown _).append hparameters, hnil, rfl, rfl⟩
            | exact ⟨hnil, rfl, hparameters, hnil, rfl, rfl⟩
            | exact ⟨hown _, rfl, hnil, hnil, rfl, rfl⟩
            | exact ⟨hnil, rfl, hown _, hnil, rfl, rfl⟩
            | exact ⟨hvariables _, rfl, hnil, hnil, rfl, rfl⟩
            | exact ⟨hnil, rfl, hnil, hvariables _, rfl, rfl⟩
            | exact ⟨hnil, rfl, hinner, houter, rfl, rfl⟩
            | exact ⟨hnil, rfl, hcaught, hnil, rfl, rfl⟩
            | exact ⟨himported, rfl, hnil, hnil, rfl, rfl⟩

/-! ### Scopes that correspond -/

/-- A mark adds the frame of the scope that it opens. -/
theorem frames_mark (t : Scopes) (m : Mark) :
    (t.mark m).frames = t.frames ++ m.frame?.toList := by
  cases m with
  | opened parent? kind span => exact List.map_append
  | declared b k =>
      refine (List.ext_getElem? fun j => ?_).trans (List.append_nil _).symm
      have hframe : ∀ s : Scope, ((s.add b).parent?, (s.add b).kind, (s.add b).span)
          = (s.parent?, s.kind, s.span) := by
        intro s
        unfold Scope.add
        split <;> rfl
      rw [frames, mark, List.getElem?_map, List.getElem?_modify, Option.map_eq_map, frames,
        List.getElem?_map, Option.map_map]
      congr 1
      funext s
      simp only [Function.comp_apply]
      split
      · exact hframe s
      · rfl
  | placed node scope =>
      refine Eq.trans ?_ (List.append_nil _).symm
      rw [frames, mark, place]
      split <;> rfl

/-- Marks add the frames of the scopes that they open. -/
theorem frames_marked (t : Scopes) (ms : List Mark) :
    (t.marked ms).frames = t.frames ++ ms.filterMap Mark.frame? := by
  induction ms generalizing t with
  | nil => exact (List.append_nil _).symm
  | cons m ms ih =>
      rw [marked_cons, ih, frames_mark, List.filterMap_cons, List.append_assoc]
      cases m.frame? <;> rfl

/-- Marks that are not made because they declare a lost name open no scope. -/
theorem frames_marked_filter (h : t'.frames = t.frames) (root : Node) (ms : List Mark) :
    (t'.marked (ms.filter (Mark.kept root))).frames = (t.marked ms).frames := by
  rw [frames_marked, frames_marked, h, List.filterMap_filter]
  congr 2
  funext m
  cases m with
  | declared b k => exact ite_self none
  | opened parent? kind span => rfl
  | placed node scope => rfl

/-- Corresponding scopes are as many. -/
theorem length_of_frames (h : t'.frames = t.frames) : t'.scopes.length = t.scopes.length := by
  have hlength := congrArg List.length h
  rwa [frames, frames, List.length_map, List.length_map] at hlength

/-- Around corresponding scopes the same function is nearest. -/
theorem hoist_of_frames (h : t'.frames = t.frames) (scope : Nat) :
    t'.hoist scope = t.hoist scope := by
  refine hoist_congr ?_ scope
  have hshape := congrArg (List.map fun f : Option Nat × ScopeKind × Span => (f.1, f.2.1)) h
  rwa [frames, frames, List.map_map, List.map_map] at hshape

/-! ### The marks of a walk -/

/-- A node makes the marks that it makes without the comments, except that it
declares no lost name. -/
theorem marks_withoutComments (hn : n.ids.Nodup) (h : t'.frames = t.frames) (scope : Nat) :
    (entry n).marks t' scope n
      = ((entry n.withoutComments).marks t scope n.withoutComments).filter (Mark.kept n) := by
  have he := entry_withoutComments hn
  have hopened : ∀ kind?: Option ScopeKind, (kind?.toList.map (Mark.opened (some scope) · n.span)).filter
      (Mark.kept n) = kind?.toList.map (Mark.opened (some scope) · n.span) := by
    intro kind?
    cases kind? <;> rfl
  have hplaced : ∀ placed : Bool, (if placed then [Mark.placed n.id scope] else []).filter
      (Mark.kept n) = if placed then [Mark.placed n.id scope] else [] := by
    intro placed
    cases placed <;> rfl
  have hopening : (entry n).opening scope n
      = ((entry n.withoutComments).opening scope n.withoutComments).filter (Mark.kept n) := by
    rw [Entry.opening, Entry.opening, List.filter_append, he.around, he.opens,
      Node.span_withoutComments, hopened]
  have hinner : (entry n).inner t' scope = (entry n.withoutComments).inner t scope := by
    rw [Entry.inner, Entry.inner, he.opens, length_of_frames h]
  have hhoist := hoist_of_frames
    (frames_marked_filter h n ((entry n.withoutComments).opening scope n.withoutComments)) scope
  rw [Entry.marks, Entry.marks, List.filter_append, List.filter_append, List.filter_append,
    hopening, hinner, hhoist, he.inside, he.hoisted, he.places, Node.id_withoutComments, hplaced]

/-- The walk of a comment makes no mark. -/
theorem walkMarks_of_isComment (h : n.isComment = true) (t : Scopes) (scope : Nat) :
    t.walkMarks scope n = [] := by
  have hplain : entry n = {} := by
    unfold entry
    rw [Node.kind_of_isComment h]
    rfl
  rw [walkMarks_eq, hplain, Node.children_of_isComment h]
  rfl

/-- Nodes make their marks one after the other as they make them without the
comments. -/
theorem walkAllMarks_withoutComments (root : Node)
    (h : ∀ n ∈ ns, n.isComment = false → ∀ {t t' : Scopes}, t'.frames = t.frames → ∀ scope,
      t'.walkMarks scope n = (t.walkMarks scope n.withoutComments).filter (Mark.kept root))
    (hframes : t'.frames = t.frames) (scope : Nat) :
    t'.walkAllMarks scope ns
      = (t.walkAllMarks scope (Node.commentless ns)).filter (Mark.kept root) := by
  induction ns generalizing t t' with
  | nil => rfl
  | cons n ns ih =>
      have hns : ∀ {t t' : Scopes}, t'.frames = t.frames → t'.walkAllMarks scope ns
          = (t.walkAllMarks scope (Node.commentless ns)).filter (Mark.kept root) :=
        fun hframes => ih (fun m hm => h m (List.mem_cons_of_mem n hm)) hframes
      rw [walkAllMarks, Node.commentless]
      cases hcomment : n.isComment with
      | true =>
          rw [walkMarks_of_isComment hcomment, if_pos rfl]
          exact hns hframes
      | false =>
          rw [if_neg Bool.false_ne_true, walkAllMarks, List.filter_append,
            h n (List.mem_cons_self ..) hcomment hframes,
            hns (frames_marked_filter hframes root _)]

/-- The node in a role makes its marks as it makes them without the
comments. -/
theorem walkOnlyMarks_withoutComments (root : Node)
    (h : ∀ n ∈ ns, n.isComment = false → ∀ {t t' : Scopes}, t'.frames = t.frames → ∀ scope,
      t'.walkMarks scope n = (t.walkMarks scope n.withoutComments).filter (Mark.kept root))
    (hframes : t'.frames = t.frames) (scope : Nat) (role : Role) :
    t'.walkOnlyMarks scope role ns
      = (t.walkOnlyMarks scope role (Node.commentless ns)).filter (Mark.kept root) := by
  induction ns with
  | nil => rfl
  | cons n ns ih =>
      have hns := ih fun m hm => h m (List.mem_cons_of_mem n hm)
      rw [walkOnlyMarks, Node.commentless]
      cases hcomment : n.isComment with
      | true =>
          rw [if_neg (by simp [Node.role_of_isComment hcomment]), if_pos rfl]
          exact hns
      | false =>
          rw [if_neg Bool.false_ne_true, walkOnlyMarks, Node.label_withoutComments]
          split
          · exact h n (List.mem_cons_self ..) hcomment hframes scope
          · exact hns

/-- A walk declares the node that it starts from by no name below. -/
theorem leaves_self (hn : n.ids.Nodup) : Leaves n n.id := by
  intro t scope b k hb hid
  obtain ⟨m, hm, hname, kind, rfl⟩ := declared_of_mem_walkMarks hb
  obtain rfl := Node.eq_of_id_eq hn hm (Node.mem_preorder_self n) hid
  exact leaves_of_isName hname t scope _ k hb rfl

/-- What is walked below a construct declares none of the names that the
construct loses. -/
theorem leaves_namesBehind (hn : n.ids.Nodup) (hopen : n.opensWithComment = true)
    (hx : x ∈ namesBehind n) (hc : c ∈ n.withoutComments.children) : Leaves c x.id := by
  have hn' := Node.nodup_ids_withoutComments hn
  obtain ⟨d, hd, hx⟩ := namesBehind_cases hopen hx
  have hdn := Node.nodup_ids_of_child hn' hd
  rcases hx with hx | rfl
  · exact leaves_of_child hn' hd (Node.id_mem_ids (name_of_mem_patternNames hx).1)
      (leaves_patternNames hdn hx) hc
  · exact leaves_of_child hn' hd (Node.id_mem_ids (Node.mem_preorder_self x)) (leaves_self hdn) hc

/-- The marks of a child that are kept are the same seen from the node. -/
theorem filter_kept_child (hn : n.ids.Nodup) (hc : c ∈ n.children) (hcomment : c.isComment = false)
    (t : Scopes) (scope : Nat) :
    (t.walkMarks scope c.withoutComments).filter (Mark.kept c)
      = (t.walkMarks scope c.withoutComments).filter (Mark.kept n) := by
  refine List.filter_congr fun m hm => ?_
  cases m with
  | opened parent? kind span => rfl
  | placed node scope => rfl
  | declared b k =>
      have hid := Node.mem_ids_of_withoutComments (node_mem_ids hm)
      have hself : n.opensWithComment = true → ∀ x ∈ namesBehind n, x.id ≠ b.node := by
        intro hopen x hx heq
        exact leaves_namesBehind hn hopen hx (Node.withoutComments_mem_children hc hcomment)
          t scope b k hm heq.symm
      rw [Mark.kept, Mark.kept, loses_eq_of_child hn hc hid hself]

/-- A walk makes the marks that it makes without the comments, except that it
declares no lost name. -/
theorem walkMarks_withoutComments (hn : n.ids.Nodup) (h : t'.frames = t.frames) (scope : Nat) :
    t'.walkMarks scope n = (t.walkMarks scope n.withoutComments).filter (Mark.kept n) := by
  induction n using Node.childrenRec generalizing t t' scope with
  | h l cs ih =>
      have hchildren : ∀ c ∈ cs, c.isComment = false → ∀ {t t' : Scopes}, t'.frames = t.frames →
          ∀ scope, t'.walkMarks scope c
            = (t.walkMarks scope c.withoutComments).filter (Mark.kept (.mk l cs)) := by
        intro c hc hcomment t t' h scope
        rw [ih c hc (Node.nodup_ids_of_child hn hc) h]
        exact filter_kept_child hn hc hcomment t scope
      have he := entry_withoutComments hn
      have hmarks := marks_withoutComments hn h scope
      have hinner : (entry (.mk l cs)).inner t' scope
          = (entry (Node.mk l cs).withoutComments).inner t scope := by
        rw [Entry.inner, Entry.inner, he.opens, length_of_frames h]
      have hframes := frames_marked_filter h (.mk l cs)
        ((entry (Node.mk l cs).withoutComments).marks t scope (Node.mk l cs).withoutComments)
      rw [walkMarks_eq, walkMarks_eq, List.filter_append, hmarks, hinner, he.walked]
      congr 1
      dsimp only
      cases (entry (Node.mk l cs).withoutComments).walked with
      | nothing => rfl
      | all => exact walkAllMarks_withoutComments _ hchildren hframes _
      | only role => exact walkOnlyMarks_withoutComments _ hchildren hframes _ role

/-! ### The scopes of a module -/

/-- A module makes the marks that it makes without the comments, except that it
declares no lost name. -/
theorem treeMarks_withoutComments (hn : n.ids.Nodup) :
    treeMarks n = (treeMarks n.withoutComments).filter (Mark.kept n) := by
  obtain ⟨l, cs⟩ := n
  refine walkAllMarks_withoutComments (.mk l cs) (fun c hc hcomment t t' h scope => ?_) rfl 0
  rw [walkMarks_withoutComments (Node.nodup_ids_of_child hn hc) h]
  exact filter_kept_child hn hc hcomment t scope

end Scopes

end ScriptRefactor
