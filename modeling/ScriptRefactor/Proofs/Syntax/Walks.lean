import ScriptRefactor.Proofs.Syntax.Nodes
import ScriptRefactor.Syntax.Cursor

/-!
# `ScriptRefactor.Proofs.Syntax.Walks`: a walk gives each node once, in order

`Node.ways` lists the ways to all places of a tree: to every node one
(`mem_ways_iff`), in document order (`pairwise_ways`), and the nodes at
their ends are those of `Node.preorder` (`map_at_ways`).

The walk holds only a cursor, so what it still has to visit is read off
the place where it stands (`Walk.left`): all of this node, and what
follows the way down to it (`Node.waysBehind`). Each step takes the first
of these places (`Walk.left_next`), and climbing takes none, as nothing
is left below a node without a next sibling (`Walk.left_climb`). So the
walk ends when all are visited.
-/

set_option autoImplicit false

namespace ScriptRefactor.Syntax

/-! ### The places of a tree -/

namespace Node

mutual

/-- The ways to a node and to all below it, in document order. -/
def ways : Node → List (List Nat)
  | .mk _ cs => [] :: waysFrom 0 cs

/-- The ways below some siblings, of which the first one has the number
`i`. -/
def waysFrom (i : Nat) : List Node → List (List Nat)
  | [] => []
  | n :: ns => n.ways.map (i :: ·) ++ waysFrom (i + 1) ns

end

/-- The ways that come in document order behind all of the node at the
end of a way. -/
def waysBehind (n : Node) : List Nat → List (List Nat)
  | [] => []
  | i :: way =>
    (n.children[i]?.elim [] fun c => (c.waysBehind way).map (i :: ·))
      ++ waysFrom (i + 1) (n.children.drop (i + 1))

variable {n m c s : Node} {way up w : List Nat} {i : Nat}

/-- The way of no step comes first. -/
theorem ways_eq (n : Node) : n.ways = [] :: waysFrom 0 n.children := by
  cases n with
  | mk l cs => rw [ways, children]

/-- One step more. -/
theorem at?_append_singleton : n.at? (up ++ [i]) = (n.at? up).bind (·.children[i]?) := by
  induction up generalizing n with
  | nil => cases h : n.children[i]? <;> simp [at?, h]
  | cons j up ih =>
      cases h : n.children[j]? with
      | none => simp [at?, h]
      | some c => simpa [at?, h] using ih

/-- A way below siblings leads to one of them first. -/
theorem mem_waysFrom {ns : List Node} :
    w ∈ waysFrom i ns ↔ ∃ j c way, ns[j]? = some c ∧ way ∈ c.ways ∧ w = (i + j) :: way := by
  induction ns generalizing i with
  | nil => simp [waysFrom]
  | cons n ns ih =>
      rw [waysFrom, List.mem_append, List.mem_map, ih]
      constructor
      · rintro (⟨way, hway, rfl⟩ | ⟨j, c, way, hc, hway, rfl⟩)
        · exact ⟨0, n, way, rfl, hway, rfl⟩
        · exact ⟨j + 1, c, way, by simpa using hc, hway, by simp; omega⟩
      · rintro ⟨j, c, way, hc, hway, rfl⟩
        cases j with
        | zero =>
            obtain rfl : n = c := by simpa using hc
            exact .inl ⟨way, hway, rfl⟩
        | succ j => exact .inr ⟨j, c, way, by simpa using hc, hway, by simp; omega⟩

/-- There is a way to each place of the tree, and to no other one. -/
theorem mem_ways_iff : way ∈ n.ways ↔ (n.at? way).isSome = true := by
  induction n using childrenRec generalizing way with
  | h l cs ih =>
      rw [ways_eq, List.mem_cons, mem_waysFrom]
      cases way with
      | nil => simp [at?]
      | cons i way =>
          cases hc : cs[i]? with
          | none => simp [at?, children, hc]
          | some c => simp [at?, children, hc, ih c (List.mem_of_getElem? hc)]

/-- The ways are in document order: the parent comes before its children,
and siblings come one after the other. -/
theorem pairwise_ways (n : Node) : n.ways.Pairwise (· < ·) := by
  induction n using childrenRec with
  | h l cs ih =>
      have hfrom : ∀ (i : Nat) (ns : List Node), (∀ c ∈ ns, c.ways.Pairwise (· < ·)) →
          (waysFrom i ns).Pairwise (· < ·) := by
        intro i ns hns
        induction ns generalizing i with
        | nil => exact .nil
        | cons n ns ihns =>
            obtain ⟨hn, hns⟩ := List.forall_mem_cons.mp hns
            rw [waysFrom, List.pairwise_append]
            refine ⟨List.pairwise_map.mpr (hn.imp fun h => List.cons_lt_cons_self.mpr h),
              ihns _ hns, fun v hv w hw => ?_⟩
            obtain ⟨_, -, rfl⟩ := List.mem_map.mp hv
            obtain ⟨j, _, _, -, -, rfl⟩ := mem_waysFrom.mp hw
            exact .rel (by omega)
      rw [ways_eq]
      refine List.pairwise_cons.mpr ⟨fun w hw => ?_, hfrom 0 cs ih⟩
      obtain ⟨j, _, _, -, -, rfl⟩ := mem_waysFrom.mp hw
      exact .nil

/-- At the ends of the ways stand the nodes of the tree. -/
theorem map_at_ways (n : Node) : n.ways.map n.at? = n.preorder.map some := by
  induction n using childrenRec with
  | h l cs ih =>
      have hfrom : ∀ (i : Nat) (ns : List Node), cs.drop i = ns →
          (waysFrom i ns).map (mk l cs).at? = (ns.flatMap preorder).map some := by
        intro i ns hns
        induction ns generalizing i with
        | nil => rfl
        | cons c ns ihns =>
            have hc : cs[i]? = some c := by rw [← List.head?_drop, hns]; rfl
            have hbelow : ∀ way, (mk l cs).at? (i :: way) = c.at? way := fun way => by
              rw [at?, children, hc]
              rfl
            have hrest : cs.drop (i + 1) = ns := by rw [← List.tail_drop, hns]; rfl
            rw [waysFrom, List.map_append, List.map_map, List.flatMap_cons, List.map_append,
              ihns _ hrest, ← ih c (List.mem_of_getElem? hc)]
            exact congrArg (· ++ _) (List.map_congr_left fun way _ => hbelow way)
      rw [ways_eq, preorder_eq, List.map_cons, List.map_cons]
      exact congrArg _ (hfrom 0 cs rfl)

/-- Behind the child with a number come its next siblings, and what comes
behind the parent. -/
theorem waysBehind_append_singleton (h : n.at? up = some m) :
    n.waysBehind (up ++ [i])
      = (waysFrom (i + 1) (m.children.drop (i + 1))).map (up ++ ·) ++ n.waysBehind up := by
  induction up generalizing n with
  | nil =>
      obtain rfl : n = m := Option.some.inj h
      cases hc : n.children[i]? <;> simp [waysBehind, hc]
  | cons j up ih =>
      rw [at?] at h
      obtain ⟨c, hc, h⟩ := Option.bind_eq_some_iff.mp h
      simp [waysBehind, hc, ih h, Function.comp_def]

/-- Where there is a next sibling, all of it comes next. -/
theorem waysBehind_of_sibling (h : n.at? (up ++ [i + 1]) = some s) :
    n.waysBehind (up ++ [i])
      = s.ways.map ((up ++ [i + 1]) ++ ·) ++ n.waysBehind (up ++ [i + 1]) := by
  rw [at?_append_singleton] at h
  obtain ⟨m, hm, hs⟩ := Option.bind_eq_some_iff.mp h
  obtain ⟨hlt, rfl⟩ := List.getElem?_eq_some_iff.mp hs
  rw [waysBehind_append_singleton hm, waysBehind_append_singleton hm,
    List.drop_eq_getElem_cons hlt, waysFrom]
  simp [Function.comp_def]

/-- Where there is no next sibling, what is behind the parent comes
next. -/
theorem waysBehind_of_last (hm : n.at? up = some m) (h : n.at? (up ++ [i + 1]) = none) :
    n.waysBehind (up ++ [i]) = n.waysBehind up := by
  rw [at?_append_singleton, hm, Option.bind_some, List.getElem?_eq_none_iff] at h
  rw [waysBehind_append_singleton hm, List.drop_eq_nil_of_le h, waysFrom]
  rfl

end Node

/-! ### The places left -/

namespace Walk

variable {σ : Type} {C : Cursor σ} {c p s : σ} {w w' : Walk σ} {n : Node}

/-- The places that a walk has still to visit. -/
def left (C : Cursor σ) (w : Walk σ) : List (List Nat) :=
  if w.done then []
  else (C.node w.cursor).ways.map (C.way w.cursor ++ ·)
    ++ (C.top w.cursor).waysBehind (C.way w.cursor)

/-- At the beginning, all places are left. -/
theorem left_start (n : Node) : (start C n).left C = n.ways := by
  obtain ⟨htop, hway⟩ := C.start n
  have hnode : C.node (C.on n) = n := by
    have hat := C.at_way (C.on n)
    rw [htop, hway] at hat
    exact (Option.some.inj hat).symm
  simp [left, start, htop, hway, hnode, Node.waysBehind]

/-- A way that ends with a child has a parent. -/
theorem exists_parent {up : List Nat} {i : Nat} (h : C.way c = up ++ [i]) :
    ∃ m, (C.top c).at? up = some m := by
  have hat := C.at_way c
  rw [h, Node.at?_append_singleton] at hat
  obtain ⟨m, hm, -⟩ := Option.bind_eq_some_iff.mp hat
  exact ⟨m, hm⟩

/-- From the next sibling on, all is left that comes behind the node. -/
theorem left_nextSibling (h : C.nextSibling? c = some s) :
    left C ⟨s, false⟩ = (C.top c).waysBehind (C.way c) := by
  obtain ⟨htop, hway⟩ := C.isMove_nextSibling.leads c s h
  rcases List.eq_nil_or_concat' (C.way c) with hnil | ⟨up, i, hup⟩
  · rw [hnil] at hway
    cases hway
  · have hsibling : C.way s = up ++ [i + 1] := by simpa [siblingWay?, hup] using hway.symm
    have hat := C.at_way s
    rw [htop, hsibling] at hat
    rw [left, if_neg Bool.false_ne_true, htop, hsibling, hup, Node.waysBehind_of_sibling hat]

/-- At a node without a next sibling, all is left that comes behind its
parent. -/
theorem waysBehind_parent (hnone : C.nextSibling? c = none) (h : C.parent? c = some p) :
    (C.top c).waysBehind (C.way c) = (C.top p).waysBehind (C.way p) := by
  obtain ⟨htop, hway⟩ := C.isMove_parent.leads c p h
  rcases List.eq_nil_or_concat' (C.way c) with hnil | ⟨up, i, hup⟩
  · rw [hnil] at hway
    cases hway
  · have hparent : C.way p = up := by simpa [parentWay?, hup] using hway.symm
    obtain ⟨m, hm⟩ := exists_parent hup
    have hlast := C.isMove_nextSibling.refused c hnone (up ++ [i + 1]) (by simp [siblingWay?, hup])
    rw [htop, hparent, hup, Node.waysBehind_of_last hm hlast]

/-- Only where the cursor was created it has no parent. -/
theorem way_eq_nil (h : C.parent? c = none) : C.way c = [] := by
  rcases List.eq_nil_or_concat' (C.way c) with hnil | ⟨up, i, hup⟩
  · exact hnil
  · obtain ⟨m, hm⟩ := exists_parent hup
    have hnone := C.isMove_parent.refused c h up (by simp [parentWay?, hup])
    rw [hm] at hnone
    cases hnone

/-- Without a parent, the walk is done. -/
theorem climb_of_top (hparent : C.parent? c = none) : climb C c = ⟨c, true⟩ := by
  rw [climb, hparent]

/-- Climbing stops at the next sibling of the parent. -/
theorem climb_of_sibling (hparent : C.parent? c = some p) (hsibling : C.nextSibling? p = some s) :
    climb C c = ⟨s, false⟩ := by
  rw [climb, hparent]
  dsimp only
  rw [hsibling]

/-- Climbing goes on from a parent without a next sibling. -/
theorem climb_of_last (hparent : C.parent? c = some p) (hlast : C.nextSibling? p = none) :
    climb C c = climb C p := by
  rw [climb, hparent]
  dsimp only
  rw [hlast]

/-- Climbing from a node without a next sibling misses nothing that comes
behind it. -/
theorem left_climb (hnone : C.nextSibling? c = none) :
    (climb C c).left C = (C.top c).waysBehind (C.way c) := by
  induction c using climb.induct C with
  | case1 c hparent =>
      rw [climb_of_top hparent, way_eq_nil hparent]
      rfl
  | case2 c p hparent s hsibling =>
      rw [climb_of_sibling hparent hsibling, waysBehind_parent hnone hparent]
      exact left_nextSibling hsibling
  | case3 c p hparent hlast ih =>
      rw [climb_of_last hparent hlast, waysBehind_parent hnone hparent]
      exact ih hlast

/-- Climbing stays below the node that the cursor was created on. -/
theorem top_climb (c : σ) : C.top (climb C c).cursor = C.top c := by
  induction c using climb.induct C with
  | case1 c hparent => rw [climb_of_top hparent]
  | case2 c p hparent s hsibling =>
      rw [climb_of_sibling hparent hsibling]
      exact (C.isMove_nextSibling.leads p s hsibling).1.trans (C.isMove_parent.leads c p hparent).1
  | case3 c p hparent hlast ih =>
      rw [climb_of_last hparent hlast]
      exact ih.trans (C.isMove_parent.leads c p hparent).1

/-- Below the first child and behind it is all that is below the node and
behind it. -/
theorem left_firstChild (h : C.firstChild? c = some s) :
    left C ⟨c, false⟩ = C.way c :: left C ⟨s, false⟩ := by
  obtain ⟨htop, hway⟩ := C.isMove_firstChild.leads c s h
  have hchild : C.way s = C.way c ++ [0] := (Option.some.inj hway).symm
  have hat := C.at_way s
  rw [htop, hchild, Node.at?_append_singleton, C.at_way c, Option.bind_some] at hat
  obtain ⟨hlt, hfirst⟩ := List.getElem?_eq_some_iff.mp hat
  have hchildren : (C.node c).children = C.node s :: (C.node c).children.drop 1 :=
    hfirst ▸ List.drop_eq_getElem_cons hlt
  simp only [left, Bool.false_eq_true, if_false, htop, hchild,
    Node.waysBehind_append_singleton (C.at_way c), Nat.zero_add, Node.ways_eq (C.node c)]
  conv_lhs => rw [hchildren, Node.waysFrom]
  simp [Function.comp_def]

/-- Without a child, nothing is below the node. -/
theorem left_leaf (h : C.firstChild? c = none) :
    left C ⟨c, false⟩ = C.way c :: (C.top c).waysBehind (C.way c) := by
  have hnone := C.isMove_firstChild.refused c h _ rfl
  rw [Node.at?_append_singleton, C.at_way c, Option.bind_some, List.getElem?_eq_none_iff] at hnone
  have hchildren : (C.node c).children = [] := List.eq_nil_of_length_eq_zero (by omega)
  simp [left, Node.ways_eq, hchildren, Node.waysFrom]

/-- A step gives the node where the cursor stands, and leaves the other
places. -/
theorem left_next (h : w.next? C = some (n, w')) :
    n = C.node w.cursor ∧ w.left C = C.way w.cursor :: w'.left C := by
  obtain ⟨c, done⟩ := w
  unfold next? at h
  split at h
  · cases h
  · rename_i hdone
    obtain rfl : done = false := by simpa using hdone
    cases hchild : C.firstChild? c with
    -- The places below come first, then those from the next sibling on.
    | some s =>
        rw [hchild] at h
        cases h
        exact ⟨rfl, left_firstChild hchild⟩
    | none =>
        rw [hchild, Option.none_or] at h
        cases hsibling : C.nextSibling? c with
        | some s =>
            -- The node is a leaf, and its next sibling comes next.
            rw [hsibling] at h
            cases h
            exact ⟨rfl, by rw [left_leaf hchild, left_nextSibling hsibling]⟩
        | none =>
            -- Nothing is below or beside the node, so the walk climbs.
            rw [hsibling] at h
            cases h
            exact ⟨rfl, by rw [left_leaf hchild, left_climb hsibling]⟩

/-- A step is refused only behind all places. -/
theorem next?_eq_none_iff : w.next? C = none ↔ w.left C = [] := by
  obtain ⟨c, done⟩ := w
  cases done with
  | true => simp [next?, left]
  | false =>
      have hne : left C ⟨c, false⟩ ≠ [] := by simp [left, Node.ways_eq]
      refine iff_of_false ?_ hne
      simp only [next?, Bool.false_eq_true, if_false]
      split <;> simp

/-! ### The whole walk -/

/-- The walk ends, and gives its nodes where the cursor stands one after
the other. -/
inductive Visits (C : Cursor σ) : Walk σ → List σ → Prop where
  | done {w : Walk σ} (h : w.next? C = none) : Visits C w []
  | more {w w' : Walk σ} {cs : List σ} (h : w.next? C = some (C.node w.cursor, w'))
      (hrest : Visits C w' cs) : Visits C w (w.cursor :: cs)

/-- A step stays below the node that the cursor was created on. -/
theorem top_next (h : w.next? C = some (n, w')) : C.top w'.cursor = C.top w.cursor := by
  unfold next? at h
  split at h
  · cases h
  · split at h
    · rename_i s hmove
      cases h
      rcases Option.or_eq_some_iff.mp hmove with hmove | ⟨-, hmove⟩
      · exact (C.isMove_firstChild.leads _ s hmove).1
      · exact (C.isMove_nextSibling.leads _ s hmove).1
    · cases h
      exact top_climb _

/-- A walk visits the places that are left, and ends. -/
theorem exists_visits (w : Walk σ) : ∃ visited, Visits C w visited ∧
    visited.map C.way = w.left C ∧ ∀ c ∈ visited, C.top c = C.top w.cursor := by
  -- The induction is on the number of places left.
  generalize hplaces : w.left C = places
  induction places generalizing w with
  | nil => exact ⟨[], .done (next?_eq_none_iff.mpr hplaces), rfl, by simp⟩
  | cons way places ih =>
      cases hnext : w.next? C with
      | none =>
          rw [next?_eq_none_iff.mp hnext] at hplaces
          cases hplaces
      | some step =>
          obtain ⟨n, w'⟩ := step
          obtain ⟨rfl, hleft⟩ := left_next hnext
          obtain ⟨hway, hrest⟩ := List.cons.inj (hleft.symm.trans hplaces)
          obtain ⟨visited, hvisits, hways, htops⟩ := ih w' hrest
          refine ⟨w.cursor :: visited, .more hnext hvisits, by rw [List.map_cons, hways, hway], ?_⟩
          exact List.forall_mem_cons.mpr
            ⟨rfl, fun c hc => (htops c hc).trans (top_next hnext)⟩

/-- **A walk gives every node below the one it starts from once, in document
order, and ends.** This is so for every kind of cursor and every tree:
the nodes are those that the recursion over the tree lists, the places
where the cursor stands are all places of the tree, and no other ones,
and they are in document order, so that none comes twice. -/
theorem start_visits_preorder (C : Cursor σ) (n : Node) :
    ∃ visited, Visits C (start C n) visited ∧ visited.map C.node = n.preorder ∧
      (visited.map C.way).Pairwise (· < ·) ∧
      (∀ way, way ∈ visited.map C.way ↔ (n.at? way).isSome = true) ∧
      ∀ c ∈ visited, C.top c = n ∧ n.at? (C.way c) = some (C.node c) := by
  obtain ⟨visited, hvisits, hways, htops⟩ := exists_visits (C := C) (start C n)
  rw [left_start] at hways
  have hplaces : ∀ c ∈ visited, C.top c = n ∧ n.at? (C.way c) = some (C.node c) := by
    intro c hc
    have htop := (htops c hc).trans (C.start n).1
    exact ⟨htop, htop ▸ C.at_way c⟩
  refine ⟨visited, hvisits, ?_, hways ▸ n.pairwise_ways, fun way => hways ▸ Node.mem_ways_iff,
    hplaces⟩
  -- The nodes are those at the ends of the ways.
  refine (List.map_inj_right fun _ _ h => Option.some.inj h).mp ?_
  rw [← Node.map_at_ways, ← hways, List.map_map, List.map_map]
  exact List.map_congr_left fun c hc => (hplaces c hc).2.symm

/-- A loop with a statement behind it. -/
def loopAndMore : Node :=
  .branch .program
    [.branch .whileStatement
      [.token 0 "while",
        .branch .statementBlock
          [.token 6 "\x7b",
            .branch .ifStatement [.token 8 "if", .branch .statementBlock [.token 11 "\x7b"]],
            .token 14 "\x7d"]],
      .token 15 ";"]

/-- A walk that starts on the body of the loop climbs up two nodes behind the
innermost block, and does not go on to what follows the body. -/
theorem start_visits_preorder_loop :
    ∃ body ∈ loopAndMore.at? [0, 1], ∃ visited,
      Visits Spot.cursor (start Spot.cursor body) visited ∧
      visited.map (fun s => s.node.start) = [6, 6, 8, 8, 11, 11, 14] ∧
      [1, 1, 0] ∈ visited.map Spot.way ∧ [3] ∉ visited.map Spot.way := by
  obtain ⟨body, hbody⟩ := Option.isSome_iff_exists.mp
    (by decide +kernel : (loopAndMore.at? [0, 1]).isSome = true)
  have hfacts : ∀ b ∈ loopAndMore.at? [0, 1],
      b.preorder.map Node.start = [6, 6, 8, 8, 11, 11, 14]
        ∧ (b.at? [1, 1, 0]).isSome = true ∧ (b.at? [3]).isSome = false := by
    decide +kernel
  obtain ⟨hstarts, hinside, houtside⟩ := hfacts body hbody
  obtain ⟨visited, hvisits, hnodes, -, hways, -⟩ := start_visits_preorder Spot.cursor body
  refine ⟨body, hbody, visited, hvisits, ?_, (hways _).mpr hinside, ?_⟩
  · rw [← hstarts, ← hnodes, List.map_map]
    rfl
  · exact mt (hways _).mp (by simp [houtside])

end Walk

end ScriptRefactor.Syntax
