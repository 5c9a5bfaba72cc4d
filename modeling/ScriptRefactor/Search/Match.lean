import ScriptRefactor.Search.Pattern

/-!
# `ScriptRefactor.Search.Match`: patterns matched against nodes

A node matches a pattern if they are of one kind, leaves have the
same text, and the children match one after the other. Tokens of the
node that the pattern lacks are passed over, as are children behind
the last one that the pattern asks for. A hole that occurs twice has
to stand for equal nodes.

What holes stand for is kept in `Captures`. A part of a pattern that
was tried in vain may leave its captures behind.
-/

set_option autoImplicit false

namespace ScriptRefactor.Search

open Syntax

/-! ### Equal nodes -/

mutual
/-- Two nodes say the same: one of them holds no node and their texts
are equal, or they are of one kind and their children say the
same. -/
def sameNode (t : Tree) : Node → Node → Bool
  | .mk l cs, n =>
    l.id = n.id ||
      (if cs.all (!·.isNamed) || n.namedChildren.isEmpty then t.slice l.span = t.text n
      else l.kind = n.kind && sameNodes t cs n.children)
/-- Two rows of nodes say the same. -/
def sameNodes (t : Tree) : List Node → List Node → Bool
  | [], [] => true
  | a :: as, b :: bs => sameNode t a b && sameNodes t as bs
  | _, _ => false
end

/-! ### Captures -/

/-- What the holes stand for. -/
structure Captures where
  /-- Single nodes with their names. -/
  single : List (String × Node)
  /-- Rows of nodes with their names. -/
  rows : List (String × List Node)

namespace Captures

/-- No captures. -/
def empty : Captures := ⟨[], []⟩

/-- The node under a name. -/
def node? (c : Captures) (name : String) : Option Node :=
  (c.single.find? fun e => e.1 = name).map Prod.snd

/-- The row under a name. -/
def row? (c : Captures) (name : String) : Option (List Node) :=
  (c.rows.find? fun e => e.1 = name).map Prod.snd

/-- A node put under a name, if it says the same as the one that is
there. -/
def addNode? (t : Tree) (c : Captures) (name : String) (n : Node) : Option Captures :=
  match c.node? name with
  | none => some { c with single := (name, n) :: c.single }
  | some m =>
    if sameNode t m n then
      some { c with single := (name, n) :: c.single.filter (·.1 ≠ name) }
    else none

/-- A row put under a name, if its nodes say the same as those that
are there. -/
def addRow? (t : Tree) (c : Captures) (name : String) (ns : List Node) : Option Captures :=
  match c.row? name with
  | none => some { c with rows := (name, ns) :: c.rows }
  | some ms =>
    if sameNodes t (ms.filter Node.isNamed) (ns.filter Node.isNamed) then
      some { c with rows := (name, ns) :: c.rows.filter (·.1 ≠ name) }
    else none

/-- The names of the captured nodes with their texts. -/
def texts (t : Tree) (c : Captures) : List (String × String) :=
  let single := c.single.map fun e => (e.1, t.text e.2)
  single ++ single.filter fun e => (c.row? e.1).isSome

end Captures

/-! ### Matching -/

/-- What comes of a pattern and a node. -/
inductive Verdict where
  /-- They match. -/
  | fits
  /-- They do not, but the node may be passed over. -/
  | skipped
  /-- They do not. -/
  | differs
deriving DecidableEq, Repr

/-- A hole filled with a node. -/
def fill (t : Tree) (h : Hole) (n : Node) (c : Captures) : Verdict × Captures :=
  let added (name? : Option String) : Verdict × Captures :=
    match name? with
    | none => (.fits, c)
    | some name =>
      match c.addNode? t name n with
      | some c => (.fits, c)
      | none => (.differs, c)
  match h with
  | .one name? tokens => if !tokens && !n.isNamed then (.differs, c) else added name?
  | .many name? => added name?

/-- A leaf against a node. A word or a mark needs only the same
kind. -/
def leafVerdict (t : Tree) (kind : Kind) (text : String) (n : Node) : Verdict :=
  if n.kind = kind ∧ (!kind.isNamed ∨ text = t.text n) then .fits
  else if n.isNamed then .differs
  else .skipped

/-- A row put under the name of its hole, without the nodes at its end
that the tokens behind the hole stand for. -/
def fillRow (t : Tree) (name? : Option String) (row : List Node) (tokens : Nat) (c : Captures) :
    Bool × Captures :=
  match name? with
  | none => (true, c)
  | some name =>
    match c.addRow? t name (row.take (row.length - tokens)) with
    | some c => (true, c)
    | none => (false, c)

mutual
/-- A pattern against a node. -/
def matchNode (t : Tree) (p : Pattern) (n : Node) (c : Captures) : Verdict × Captures :=
  match p with
  | .hole h => fill t h n c
  | .leaf kind text => (leafVerdict t kind text n, c)
  | .branch kind parts =>
    if n.kind ≠ kind || n.children.isEmpty then (.differs, c)
    else
      let (found, c) := matchRow t parts n.children c
      (if found then .fits else .differs, c)
termination_by (sizeOf p, 0, 0)
/-- Patterns against a row of nodes. -/
def matchRow (t : Tree) (ps : List Pattern) (ns : List Node) (c : Captures) : Bool × Captures :=
  match ps with
  | [] => (true, c)
  | p :: ps =>
    match p.row? with
    | some name? => matchBehindRow t name? 0 ps ns c
    | none => matchFirst t p ps ns c
termination_by (sizeOf ps, ns.length, 4)
/-- The patterns behind a hole for a row, of which `tokens` tokens were
passed over. -/
def matchBehindRow (t : Tree) (name? : Option String) (tokens : Nat) (ps : List Pattern)
    (ns : List Node) (c : Captures) : Bool × Captures :=
  match ps with
  | [] => fillRow t name? ns tokens c
  | p :: ps =>
    if p.isToken then matchBehindRow t name? (tokens + 1) ps ns c
    else if p.row?.isSome then
      match ns with
      | [] => (false, c)
      | n :: ns =>
        let (fits, c) := fillRow t name? [n] tokens c
        if fits then matchRow t (p :: ps) ns c else (false, c)
    else matchSought t name? tokens [] p ps ns c
termination_by (sizeOf ps, ns.length, 3)
/-- The pattern behind a hole for a row is sought among the nodes;
those in front of it go into the hole. -/
def matchSought (t : Tree) (name? : Option String) (tokens : Nat) (row : List Node) (p : Pattern)
    (ps : List Pattern) (ns : List Node) (c : Captures) : Bool × Captures :=
  match ns with
  | [] => (false, c)
  | n :: ns =>
    let (verdict, c) := matchNode t p n c
    if verdict = .fits then
      let (fits, c) := fillRow t name? row tokens c
      if fits then matchFirst t p ps (n :: ns) c else (false, c)
    else matchSought t name? tokens (row ++ [n]) p ps ns c
termination_by (1 + sizeOf p + sizeOf ps, ns.length, 2)
/-- A pattern that is no row against the first node that may not be
passed over, and the patterns behind it. -/
def matchFirst (t : Tree) (p : Pattern) (ps : List Pattern) (ns : List Node) (c : Captures) :
    Bool × Captures :=
  match ns with
  | [] => (false, c)
  | n :: ns =>
    match matchNode t p n c with
    | (.fits, c) =>
      match ps, ns with
      | [], _ => (true, c)
      | _ :: _, [] => (false, c)
      | p :: ps, n :: ns => matchRow t (p :: ps) (n :: ns) c
    | (.skipped, c) => matchFirst t p ps ns c
    | (.differs, c) => (false, c)
termination_by (1 + sizeOf p + sizeOf ps, ns.length, 1)
end

/-- What the holes of a pattern stand for in a node that matches
it. -/
def captures? (t : Tree) (p : Pattern) (n : Node) : Option Captures :=
  match matchNode t p n .empty with
  | (.fits, c) => some c
  | _ => none

end ScriptRefactor.Search
