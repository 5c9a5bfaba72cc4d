import ScriptRefactor.Syntax.Node

/-!
# `ScriptRefactor.Syntax.Cursor`: walking over a tree

A place below a node is given by the way down to it: the numbers of the
children to go to, one after the other. A `Cursor` stands at a place and
can move to the first child, to the next sibling and to the parent. A
move is refused if it leads nowhere, and the cursor stays; it never
leaves the node that it was created on.

* `Walk.next?` gives the node where the cursor stands, and moves on:
  down, to the side, or up to the first node that has another sibling.
  The walk keeps nothing but the cursor and whether it is done.
* `Spot.cursor` is a cursor that knows the node it was created on and
  the way down.
-/

set_option autoImplicit false

namespace ScriptRefactor.Syntax

/-! ### Places -/

/-- The node at the end of a way down. -/
def Node.at? (n : Node) : List Nat → Option Node
  | [] => some n
  | i :: way => n.children[i]?.bind (·.at? way)

/-- The way to the first child. -/
def childWay? (way : List Nat) : Option (List Nat) := some (way ++ [0])

/-- The way to the next sibling. The way of no step has none. -/
def siblingWay? (way : List Nat) : Option (List Nat) :=
  way.getLast?.map fun i => way.dropLast ++ [i + 1]

/-- The way to the parent. The way of no step has none. -/
def parentWay? (way : List Nat) : Option (List Nat) :=
  if way = [] then none else some way.dropLast

/-! ### Cursors -/

/-- A move of a cursor leads to the place that belongs to it, below the
same node, and is refused only if there is no such place. -/
structure IsMove {σ : Type} (top : σ → Node) (way : σ → List Nat)
    (target? : List Nat → Option (List Nat)) (move : σ → Option σ) : Prop where
  /-- Where the move leads. -/
  leads : ∀ c c', move c = some c' → top c' = top c ∧ target? (way c) = some (way c')
  /-- When it is refused. -/
  refused : ∀ c, move c = none → ∀ w, target? (way c) = some w → (top c).at? w = none

/-- A kind of cursors: their states with the moves. -/
structure Cursor (σ : Type) where
  /-- A cursor created on a node. -/
  on : Node → σ
  /-- The node that the cursor was created on. -/
  top : σ → Node
  /-- The way down to where it stands. -/
  way : σ → List Nat
  /-- The node where it stands. -/
  node : σ → Node
  /-- To the first child. -/
  firstChild? : σ → Option σ
  /-- To the next sibling. -/
  nextSibling? : σ → Option σ
  /-- To the parent. -/
  parent? : σ → Option σ
  /-- It stands on the node that it was created on. -/
  start : ∀ n, top (on n) = n ∧ way (on n) = []
  /-- The node is the one at the end of the way. -/
  at_way : ∀ c, (top c).at? (way c) = some (node c)
  /-- The move to the first child. -/
  isMove_firstChild : IsMove top way childWay? firstChild?
  /-- The move to the next sibling. -/
  isMove_nextSibling : IsMove top way siblingWay? nextSibling?
  /-- The move to the parent. -/
  isMove_parent : IsMove top way parentWay? parent?

/-- The way to the parent is the shorter one. -/
theorem Cursor.length_way_parent {σ : Type} (C : Cursor σ) {c p : σ} (h : C.parent? c = some p) :
    (C.way p).length < (C.way c).length := by
  have hway := (C.isMove_parent.leads c p h).2
  unfold parentWay? at hway
  split at hway
  · cases hway
  · rename_i hne
    have hlength := List.length_pos_iff.mpr hne
    rw [← Option.some.inj hway, List.length_dropLast]
    omega

/-! ### The walk -/

/-- How far a walk has got. -/
structure Walk (σ : Type) where
  /-- The cursor, on the node that comes next. -/
  cursor : σ
  /-- No node is left. -/
  done : Bool

namespace Walk

variable {σ : Type} (C : Cursor σ)

/-- The walk over a node and all below it. -/
def start (n : Node) : Walk σ := ⟨C.on n, false⟩

/-- Up to the first node that has a next sibling, and on to this one. -/
def climb (c : σ) : Walk σ :=
  match _h : C.parent? c with
  | none => ⟨c, true⟩
  | some p =>
    match C.nextSibling? p with
    | some s => ⟨s, false⟩
    | none => climb p
termination_by (C.way c).length
decreasing_by exact C.length_way_parent _h

/-- The next node, and the walk behind it. -/
def next? (w : Walk σ) : Option (Node × Walk σ) :=
  if w.done then none
  else
    match (C.firstChild? w.cursor).or (C.nextSibling? w.cursor) with
    | some c => some (C.node w.cursor, ⟨c, false⟩)
    | none => some (C.node w.cursor, climb C w.cursor)

end Walk

/-! ### A cursor -/

/-- A place below a node. -/
structure Spot where
  /-- The node above. -/
  top : Node
  /-- The way down. -/
  way : List Nat
  /-- The node at the place. -/
  node : Node
  /-- The way leads to the node. -/
  at_way : top.at? way = some node

namespace Spot

/-- The place at the end of another way, if there is one. -/
def goTo? (s : Spot) (way? : Option (List Nat)) : Option Spot :=
  match way? with
  | none => none
  | some way =>
    match h : s.top.at? way with
    | some n => some ⟨s.top, way, n, h⟩
    | none => none

/-- Going to the place that belongs to a move is that move. -/
theorem isMove_goTo? (target? : List Nat → Option (List Nat)) :
    IsMove top way target? fun s => s.goTo? (target? s.way) where
  leads s s' h := by
    unfold goTo? at h
    split at h
    · cases h
    · rename_i way hway
      split at h
      · cases h
        exact ⟨rfl, hway⟩
      · cases h
  refused s h w hw := by
    simp only [goTo?, hw] at h
    split at h
    · cases h
    · assumption

/-- The cursor that goes from place to place. -/
def cursor : Cursor Spot where
  on n := ⟨n, [], n, rfl⟩
  top := top
  way := way
  node := node
  firstChild? s := s.goTo? (childWay? s.way)
  nextSibling? s := s.goTo? (siblingWay? s.way)
  parent? s := s.goTo? (parentWay? s.way)
  start _ := ⟨rfl, rfl⟩
  at_way := at_way
  isMove_firstChild := isMove_goTo? childWay?
  isMove_nextSibling := isMove_goTo? siblingWay?
  isMove_parent := isMove_goTo? parentWay?

end Spot

end ScriptRefactor.Syntax
