import ScriptRefactor.Module.Role
import ScriptRefactor.Proofs.Search.Rows

/-!
# `ScriptRefactor.Proofs.Module.Reducers`: the patterns that are looked for

The role of a module asks whether two patterns occur in it. A module without
calls connects nothing (`occursIn_connect_of_no_call`). A function `reducer`
that is exported where it is declared is found, whatever its parameters are and
whatever it does (`occursIn_reducer`).
-/

set_option autoImplicit false

namespace ScriptRefactor.ModuleRole

open Syntax Search

variable {t : Tree} {n : Node} {c : Captures}

/-! ### Calls -/

/-- The call that is looked for. -/
def connectPattern : Pattern :=
  .branch (.construct .callExpression)
    [.leaf (.construct .identifier) "connect",
      .branch (.construct .arguments)
        [.leaf (.token "(") "(", .hole (.many (some "ARGS")), .leaf (.token ")") ")"]]

/-- What the text of the pattern is read as. -/
theorem parse?_connect (d : Dialect) :
    Pattern.parse? d "connect($$$ARGS)" = some connectPattern := by
  cases d <;> decide +kernel

/-- A module without calls connects nothing. -/
theorem occursIn_connect_of_no_call (h : ∀ n ∈ t.nodes, n.is .callExpression = false) :
    occursIn t "connect($$$ARGS)" = false := by
  rw [occursIn, parse?_connect]
  refine occurs_of_no_kind fun n hn hkind => ?_
  have hcall := h n hn
  rw [Node.is, hkind] at hcall
  cases hcall

/-! ### Reducers -/

/-- A row of anything between two marks. -/
def enclosedPattern (kind : Construct) (first last name : String) : Pattern :=
  .branch (.construct kind)
    [.leaf (.token first) first, .hole (.many (some name)), .leaf (.token last) last]

/-- The declaration of the function that is looked for. -/
def reducerPattern : Pattern :=
  .branch (.construct .functionDeclaration)
    [.leaf (.token "function") "function", .leaf (.construct .identifier) "reducer",
      enclosedPattern .formalParameters "(" ")" "ARGS",
      enclosedPattern .statementBlock "\x7b" "\x7d" "BODY"]

/-- What the text of the pattern is read as. -/
theorem parse?_reducer (d : Dialect) :
    Pattern.parse? d "export function reducer($$$ARGS) \x7b $$$BODY \x7d" =
      some (.branch (.construct .exportStatement) [.leaf (.token "export") "export",
        reducerPattern]) := by
  cases d <;> decide +kernel

/-- The node is the construct, and begins with the mark. -/
def opensWith (kind : Construct) (mark : String) (n : Node) : Bool :=
  n.is kind && match n.children with
    | first :: _ :: _ => first.kind = .token mark
    | _ => false

/-- The node is the declaration of a function `reducer`. -/
def declaresReducer (t : Tree) (n : Node) : Bool :=
  n.is .functionDeclaration && match n.children with
    | word :: name :: parameters :: body :: _ =>
      word.kind = .token "function" && (name.is .identifier && t.text name = "reducer")
        && opensWith .formalParameters "(" parameters && opensWith .statementBlock "\x7b" body
    | _ => false

/-- The node exports a function `reducer` where it is declared. -/
def exportsReducer (t : Tree) (n : Node) : Bool :=
  n.is .exportStatement && match n.children with
    | word :: f :: _ => word.kind = .token "export" && declaresReducer t f
    | _ => false

/-- What begins with the first mark matches, and is kept. -/
theorem matchNode_enclosed {kind : Construct} {first : String} (last name : String)
    (h : opensWith kind first n = true) (hfree : c.row? name = none) :
    ∃ row, matchNode t (enclosedPattern kind first last name) n c =
      (.fits, { c with rows := (name, row) :: c.rows }) := by
  rw [opensWith, Bool.and_eq_true, Node.is, decide_eq_true_eq] at h
  obtain ⟨hkind, hmark⟩ := h
  split at hmark
  · rename_i m next others hchildren
    refine ⟨(next :: others).take others.length, matchNode_branch hkind (by simp [hchildren]) ?_⟩
    rw [hchildren, matchRow_cons_of_fits rfl (matchNode_token (of_decide_eq_true hmark))]
    exact matchRow_rest hfree
  · cases hmark

/-- The declaration of a function `reducer` matches. -/
theorem matchNode_reducer (h : declaresReducer t n = true) (hrows : c.rows = []) :
    ∃ c', matchNode t reducerPattern n c = (.fits, c') := by
  rw [declaresReducer, Bool.and_eq_true, Node.is, decide_eq_true_eq] at h
  obtain ⟨hkind, hparts⟩ := h
  split at hparts
  · rename_i word name parameters body others hchildren
    simp only [Bool.and_eq_true, decide_eq_true_eq] at hparts
    obtain ⟨⟨⟨hword, hname, htext⟩, hparameters⟩, hbody⟩ := hparts
    rw [Node.is, decide_eq_true_eq] at hname
    -- The two rows are kept under different names, so each name is free.
    obtain ⟨args, hparameters⟩ := matchNode_enclosed (t := t) (c := c) ")" "ARGS" hparameters
      (by rw [Captures.row?, hrows]; rfl)
    obtain ⟨inside, hbody⟩ := matchNode_enclosed (t := t)
      (c := { c with rows := ("ARGS", args) :: c.rows }) "\x7d" "BODY" hbody
      (by rw [Captures.row?, hrows]; rfl)
    refine ⟨{ c with rows := ("BODY", inside) :: ("ARGS", args) :: c.rows },
      matchNode_branch hkind (by simp [hchildren]) ?_⟩
    rw [hchildren, matchRow_cons_of_fits rfl (matchNode_token hword), ← htext,
      matchRow_cons_of_fits rfl (matchNode_leaf hname), matchRow_cons_of_fits rfl hparameters]
    exact matchRow_last_of_fits rfl hbody
  · cases hparts

/-- A function `reducer` that is exported where it is declared is found. -/
theorem occursIn_reducer (hn : n ∈ t.nodes) (h : exportsReducer t n = true) :
    occursIn t "export function reducer($$$ARGS) \x7b $$$BODY \x7d" = true := by
  rw [exportsReducer, Bool.and_eq_true, Node.is, decide_eq_true_eq] at h
  obtain ⟨hkind, hparts⟩ := h
  split at hparts
  · rename_i word f others hchildren
    rw [Bool.and_eq_true, decide_eq_true_eq] at hparts
    obtain ⟨c, hf⟩ := matchNode_reducer hparts.2 (c := .empty) rfl
    rw [occursIn, parse?_reducer]
    refine occurs_of_fits hn (c := c) (matchNode_branch hkind (by simp [hchildren]) ?_)
    rw [hchildren, matchRow_cons_of_fits rfl (matchNode_token hparts.1)]
    exact matchRow_last_of_fits rfl hf
  · cases hparts

end ScriptRefactor.ModuleRole
