import ScriptRefactor.Search.Scan

/-!
# `ScriptRefactor.Proofs.Search.Rows`: patterns that match step by step

A row of patterns matches a row of nodes if the first of each match and the
others do (`matchRow_cons_of_fits`). A hole for a row, with nothing behind it
but a token, takes all nodes that are left (`matchRow_rest`).
-/

set_option autoImplicit false

namespace ScriptRefactor.Search

open Syntax

namespace Pattern

mutual

/-- Patterns are compared from the top down. -/
def decEq : (p q : Pattern) → Decidable (p = q)
  | .hole h, .hole i => decidable_of_iff (h = i) ⟨congrArg _, fun heq => by cases heq; rfl⟩
  | .leaf kind text, .leaf kind' text' =>
    decidable_of_iff (kind = kind' ∧ text = text')
      ⟨fun ⟨hkind, htext⟩ => by rw [hkind, htext], fun heq => by cases heq; exact ⟨rfl, rfl⟩⟩
  | .branch kind parts, .branch kind' parts' =>
    match decEqs parts parts' with
    | isTrue hparts => decidable_of_iff (kind = kind')
        ⟨fun hkind => by rw [hkind, hparts], fun heq => by cases heq; rfl⟩
    | isFalse hparts => isFalse fun heq => hparts (by cases heq; rfl)
  | .hole _, .leaf .. | .hole _, .branch .. | .leaf .., .hole _ | .leaf .., .branch ..
  | .branch .., .hole _ | .branch .., .leaf .. => isFalse nofun

/-- Rows of patterns are compared one by one. -/
def decEqs : (ps qs : List Pattern) → Decidable (ps = qs)
  | [], [] => isTrue rfl
  | [], _ :: _ => isFalse nofun
  | _ :: _, [] => isFalse nofun
  | p :: ps, q :: qs =>
    match decEq p q, decEqs ps qs with
    | isTrue h, isTrue hrest => isTrue (by rw [h, hrest])
    | isFalse h, _ => isFalse fun heq => h (List.cons.inj heq).1
    | _, isFalse hrest => isFalse fun heq => hrest (List.cons.inj heq).2

end

instance : DecidableEq Pattern := decEq

end Pattern

variable {t : Tree} {p : Pattern} {ps : List Pattern} {n : Node} {ns : List Node}
  {c c' : Captures}

/-! ### Single nodes -/

/-- A token of the pattern fits a token with its name. -/
theorem matchNode_token {name text : String} (h : n.kind = .token name) :
    matchNode t (.leaf (.token name) text) n c = (.fits, c) := by
  rw [matchNode, leafVerdict, if_pos ⟨h, .inl (by simp [Kind.isNamed])⟩]

/-- A leaf of the pattern fits a node of its kind with its text. -/
theorem matchNode_leaf {kind : Kind} (hkind : n.kind = kind) :
    matchNode t (.leaf kind (t.text n)) n c = (.fits, c) := by
  rw [matchNode, leafVerdict, if_pos ⟨hkind, .inr rfl⟩]

/-- A part of the pattern fits a node of its kind, if its row matches. -/
theorem matchNode_branch {kind : Kind} {parts : List Pattern} (hkind : n.kind = kind)
    (hchildren : n.children ≠ []) (hrow : matchRow t parts n.children c = (true, c')) :
    matchNode t (.branch kind parts) n c = (.fits, c') := by
  rw [matchNode, if_neg (by simp [hkind, hchildren]), hrow]
  rfl

/-! ### Rows -/

/-- The first pattern of a row matches the first node, and the others match
those behind it. -/
theorem matchRow_cons_of_fits {q : Pattern} {m : Node} (hp : p.row? = none)
    (h : matchNode t p n c = (.fits, c')) :
    matchRow t (p :: q :: ps) (n :: m :: ns) c = matchRow t (q :: ps) (m :: ns) c' := by
  rw [matchRow, hp]
  simp only []
  rw [matchFirst, h]

/-- The last pattern of a row matches the first node. -/
theorem matchRow_last_of_fits (hp : p.row? = none) (h : matchNode t p n c = (.fits, c')) :
    matchRow t [p] (n :: ns) c = (true, c') := by
  rw [matchRow, hp]
  simp only []
  rw [matchFirst, h]

/-- A hole in front of the last token takes all nodes but one. -/
theorem matchRow_rest {name mark text : String} (hfree : c.row? name = none) :
    matchRow t [.hole (.many (some name)), .leaf (.token mark) text] ns c =
      (true, { c with rows := (name, ns.take (ns.length - 1)) :: c.rows }) := by
  rw [matchRow, Pattern.row?]
  simp only []
  -- A token behind a hole is not looked for: the hole leaves one node for it.
  rw [matchBehindRow.eq_def]
  simp only [Pattern.isToken, Kind.isNamed, Bool.not_false, if_true]
  rw [matchBehindRow, fillRow]
  simp only [Captures.addRow?, hfree]

/-! ### Modules -/

/-- A pattern does not occur in a module without nodes of its kind. -/
theorem occurs_of_no_kind {kind : Kind} {parts : List Pattern}
    (h : ∀ n ∈ t.nodes, n.kind ≠ kind) : occurs t (.branch kind parts) = false := by
  rw [occurs, List.any_eq_false]
  intro n hn
  rw [matchAt?, captures?, matchNode, if_pos (by simp [h n hn])]
  simp

/-- A pattern occurs in a module with a node that it fits. -/
theorem occurs_of_fits (hn : n ∈ t.nodes) (h : matchNode t p n .empty = (.fits, c)) :
    occurs t p = true := by
  rw [occurs, List.any_eq_true]
  refine ⟨n, hn, ?_⟩
  rw [matchAt?, captures?, h]
  rfl

end ScriptRefactor.Search
