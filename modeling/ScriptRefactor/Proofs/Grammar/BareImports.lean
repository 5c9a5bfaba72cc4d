import ScriptRefactor.Proofs.Text.Cut
import ScriptRefactor.Proofs.Syntax.Nodes
import ScriptRefactor.Syntax.Tree

/-!
# `ScriptRefactor.Proofs.Grammar.BareImports`: modules of bare imports are parsed

A bare import names another module and takes no name from it. This is how
the parser reads a module of the plain dialect that consists of bare
imports, whatever their sources (`parse_bareImports`): the statement of each
is read where the one before it ends, whatever follows
(`statement_bareImport`), and the module is their list.

Each rule is followed as it reads the text: `bind_of_ok` puts in what the
rule in front comes to, and the text behind what is read stays a variable.
-/

set_option autoImplicit false

namespace ScriptRefactor

namespace Grammar

open Syntax

/-! ### Tokens -/

/-- The word in front of a quote. -/
theorem ahead_import (tail : List Char) :
    Ahead.of ('i' :: 'm' :: 'p' :: 'o' :: 'r' :: 't' :: '\'' :: tail) = .word "import" := by
  rfl

/-- A quote is a mark. -/
theorem ahead_quote (tail : List Char) : Ahead.of ('\'' :: tail) = .mark "'" := by
  rfl

/-- A semicolon is a mark. -/
theorem ahead_semicolon (tail : List Char) : Ahead.of (';' :: tail) = .mark ";" := by
  rfl

/-- Nothing is passed in front of what is no white space and no slash. -/
theorem Reader.skip_cons {c : Char} {cs : List Char} {pos : Nat} {comments : List Node}
    (hblank : isBlank c = false) (hslash : c ≠ '/') :
    (⟨c :: cs, pos, comments⟩ : Reader).skip = ⟨c :: cs, pos, comments⟩ := by
  have hblanks : (⟨c :: cs, pos, comments⟩ : Reader).passBlanks = ⟨c :: cs, pos, comments⟩ := by
    simp [Reader.passBlanks, hblank]
  have hcomment : (⟨c :: cs, pos, comments⟩ : Reader).passComment? = none := by
    simp [Reader.passComment?, comment?, hslash]
  rw [Reader.skip, List.length_cons, Reader.passBetween, hblanks, hcomment]

namespace Parser

variable {α β : Type} {p : Parser α} {f : α → Parser β} {a : α} {env : Surroundings}
  {r r' : Reader} {pos : Nat} {comments : List Node} {source tail : List Char}

/-- Where a rule applies, what follows goes on behind it. -/
theorem bind_of_ok (h : p env r = .ok (a, r')) : (p >>= f) env r = f a env r' := by
  show (p env r >>= fun x => f x.1 env x.2) = _
  rw [h]
  rfl

/-- A token is a leaf over its text. -/
theorem token_of (text tail : List Char) :
    token text env ⟨text ++ tail, pos, comments⟩
      = .ok (Node.token pos (String.ofList text), ⟨tail, pos + Text.byteSize text, comments⟩) := by
  show Except.ok (Node.leaf _ _ _, (⟨(text ++ tail).drop text.length, _, _⟩ : Reader)) = _
  rw [List.drop_left]
  rfl

/-- A word that comes next is a token. -/
theorem word_of {w : String} (hskip : r.skip = r) (hahead : Ahead.of r.rest = .word w) :
    word w env r = token w.toList env r := by
  have hword : isWord w env r = .ok (true, r) := by
    show Except.ok (decide (Ahead.of r.skip.rest = .word w), r) = _
    rw [hskip, hahead, decide_eq_true rfl]
  rw [word, bind_of_ok hword]
  show token w.toList env r.skip = _
  rw [hskip]

/-- A mark that comes next is a token. -/
theorem mark_of {m : String} (hskip : r.skip = r) (hahead : Ahead.of r.rest = .mark m) :
    mark m env r = token m.toList env r := by
  have hmark : isMark m env r = .ok (true, r) := by
    show Except.ok (decide (Ahead.of r.skip.rest = .mark m), r) = _
    rw [hskip, hahead, decide_eq_true rfl]
  rw [mark, bind_of_ok hmark]
  show token m.toList env r.skip = _
  rw [hskip]

/-- A quote comes next. -/
theorem isStringAhead_of (hskip : r.skip = r) (hahead : Ahead.of r.rest = .mark "'") :
    isStringAhead env r = .ok (true, r) := by
  have hmark : ahead env r = .ok (.mark "'", r) := by rw [ahead, hskip, hahead]
  rw [isStringAhead, bind_of_ok hmark]
  rfl

/-! ### Loops -/

/-- A loop over the nodes that a rule gives starts with none. -/
theorem collect_eq (p : Parser (Option (List Node))) :
    collect p env r
      = growFuel (fun nodes => do return (← p).map (nodes ++ ·)) (r.rest.length + 1) [] env r :=
  rfl

/-- Where the rule gives nodes, the loop goes on behind them. -/
theorem growFuel_of_some {p : Parser (Option (List Node))} {nodes more : List Node} {fuel : Nat}
    (h : p env r = .ok (some more, r')) :
    growFuel (fun nodes => do return (← p).map (nodes ++ ·)) (fuel + 1) nodes env r
      = growFuel (fun nodes => do return (← p).map (nodes ++ ·)) fuel (nodes ++ more) env r' := by
  rw [growFuel, bind_of_ok (bind_of_ok h)]
  rfl

/-- Where it gives none, the loop is done. -/
theorem growFuel_of_none {p : Parser (Option (List Node))} {nodes : List Node} {fuel : Nat}
    (h : p env r = .ok (none, r')) :
    growFuel (fun nodes => do return (← p).map (nodes ++ ·)) (fuel + 1) nodes env r
      = .ok (nodes, r') := by
  rw [growFuel, bind_of_ok (bind_of_ok h)]
  rfl

/-- One round of a loop up to a token that ends it. -/
def round (stop : Ahead → Bool) (p : Parser (List Node)) : Parser (Option (List Node)) := do
  if stop (← ahead) then return none else return some (← p)

/-- A loop up to a token goes round and round. -/
theorem untilAhead_eq (stop : Ahead → Bool) (p : Parser (List Node)) :
    untilAhead stop p = collect (round stop p) := rfl

/-- In front of another token the rule applies. -/
theorem round_of_ok {stop : Ahead → Bool} {p : Parser (List Node)} {nodes : List Node}
    (hstop : stop (Ahead.of r.skip.rest) = false) (h : p env r = .ok (nodes, r')) :
    round stop p env r = .ok (some nodes, r') := by
  rw [round, bind_of_ok (show ahead env r = .ok (Ahead.of r.skip.rest, r) from rfl), hstop]
  show (p >>= fun nodes => pure (some nodes) : Parser _) env r = _
  rw [bind_of_ok h]
  rfl

/-- In front of the token the loop is done. -/
theorem round_of_stop {stop : Ahead → Bool} (p : Parser (List Node))
    (hstop : stop (Ahead.of r.skip.rest) = true) : round stop p env r = .ok (none, r) := by
  rw [round, bind_of_ok (show ahead env r = .ok (Ahead.of r.skip.rest, r) from rfl), hstop]
  rfl

/-! ### Strings -/

/-- A text that stands between quotes as it is. -/
def IsPlain (source : List Char) : Prop :=
  source ≠ [] ∧ ∀ c ∈ source, c ≠ '\'' ∧ c ≠ '\\' ∧ c ≠ '\n' ∧ c ≠ '\r'

-- Through the characters of the source, not through all characters there are.
instance (source : List Char) : Decidable (IsPlain source) :=
  @instDecidableAnd _ _ _ (List.decidableBAll _ source)

/-- A plain text in quotes. -/
def quoted (pos : Nat) (source : List Char) : Node :=
  Node.branch .string [Node.token pos "'",
    Node.leaf (.construct .stringFragment) (pos + 1) (String.ofList source),
    Node.token (pos + 1 + Text.byteSize source) "'"]

/-- A plain text is one piece of a string. -/
theorem stringPiece_of (hplain : IsPlain source) (tail : List Char) :
    stringPiece '\'' env ⟨source ++ '\'' :: tail, pos, comments⟩
      = .ok (some [Node.leaf (.construct .stringFragment) pos (String.ofList source)],
        ⟨'\'' :: tail, pos + Text.byteSize source, comments⟩) := by
  have htake : (source ++ '\'' :: tail).takeWhile
      (fun c => c ≠ '\'' ∧ c ≠ '\\' ∧ c ≠ '\n' ∧ c ≠ '\r') = source := by
    rw [List.takeWhile_append_of_pos fun c hc => decide_eq_true (hplain.2 c hc),
      List.takeWhile_cons_of_neg (by decide), List.append_nil]
  show (if List.takeWhile _ (source ++ '\'' :: tail) ≠ [] then _ else _ : Parser _) env _ = _
  rw [htake, if_pos hplain.1]
  show Except.ok (some [Node.leaf _ _ _],
    (⟨(source ++ '\'' :: tail).drop source.length, _, _⟩ : Reader)) = _
  rw [List.drop_left]

/-- A plain text in quotes is read as a string. -/
theorem string_of (hplain : IsPlain source) (tail : List Char) :
    string env ⟨'\'' :: (source ++ '\'' :: tail), pos, comments⟩
      = .ok (quoted pos source, ⟨tail, pos + 2 + Text.byteSize source, comments⟩) := by
  -- No blank stands in front, so the string starts where the reader is.
  have hskip : skipBlanks env ⟨'\'' :: (source ++ '\'' :: tail), pos, comments⟩
      = .ok ((), ⟨'\'' :: (source ++ '\'' :: tail), pos, comments⟩) := by
    rw [skipBlanks, Reader.skip_cons (by decide) (by decide)]
  have hopen : token ['\''] env ⟨'\'' :: (source ++ '\'' :: tail), pos, comments⟩
      = .ok (Node.token pos "'", ⟨source ++ '\'' :: tail, pos + 1, comments⟩) :=
    token_of ['\''] _
  -- The closing quote is no piece, so the loop over the pieces ends there.
  have hend : stringPiece '\'' env ⟨'\'' :: tail, pos + 1 + Text.byteSize source, comments⟩
      = .ok (none, ⟨'\'' :: tail, pos + 1 + Text.byteSize source, comments⟩) := rfl
  have hlength : (source ++ '\'' :: tail).length = source.length + tail.length + 1 := by
    rw [List.length_append, List.length_cons, Nat.add_assoc]
  -- One piece holds the whole source, as nothing in it has to be written with a backslash.
  have hcollect : collect (stringPiece '\'') env ⟨source ++ '\'' :: tail, pos + 1, comments⟩
      = .ok ([Node.leaf (.construct .stringFragment) (pos + 1) (String.ofList source)],
        ⟨'\'' :: tail, pos + 1 + Text.byteSize source, comments⟩) := by
    rw [collect_eq, hlength, growFuel_of_some (stringPiece_of hplain tail), growFuel_of_none hend]
    rfl
  have hclose : immediate '\'' env ⟨'\'' :: tail, pos + 1 + Text.byteSize source, comments⟩
      = .ok (Node.token (pos + 1 + Text.byteSize source) "'",
        ⟨tail, pos + 2 + Text.byteSize source, comments⟩) := by
    have hpos : pos + 2 + Text.byteSize source = pos + 1 + Text.byteSize source + 1 := by omega
    rw [hpos]
    rfl
  rw [string, bind_of_ok hskip]
  show (do
      let opening ← token ['\'']
      let pieces ← collect (stringPiece '\'')
      return Node.branch .string (opening :: pieces ++ [← immediate '\'']) : Parser Node) env
    ⟨'\'' :: (source ++ '\'' :: tail), pos, comments⟩ = _
  rw [bind_of_ok hopen, bind_of_ok hcollect, bind_of_ok hclose]
  rfl

/-! ### Statements -/

/-- A statement ends with its semicolon. -/
theorem terminated_of {c : Construct} {children : List Node} (hplain : env.dialect = .plain)
    (tail : List Char) :
    terminated c .other children env ⟨';' :: tail, pos, comments⟩
      = .ok (Node.branchTo c (children ++ [Node.token pos ";"]) (pos + 1),
        ⟨tail, pos + 1, comments⟩) := by
  -- No line ends in front of the semicolon, so the terminator is read as a mark.
  have hhere : endsHere env.dialect .other ((';' :: tail).length + 1) (';' :: tail) = false := by
    rw [hplain]
    rfl
  have hnone : Reader.endAfter? env.dialect .other ⟨';' :: tail, pos, comments⟩ = none := by
    rw [Reader.endAfter?, Reader.endAfterFuel?, hhere]
    rfl
  have hattempt : attempt? (lineEnd .other) env ⟨';' :: tail, pos, comments⟩
      = .ok (none, ⟨';' :: tail, pos, comments⟩) := by rw [attempt?, lineEnd, hnone]
  have hmark : mark ";" env ⟨';' :: tail, pos, comments⟩
      = .ok (Node.token pos ";", ⟨tail, pos + 1, comments⟩) :=
    (mark_of (Reader.skip_cons (by decide) (by decide)) (ahead_semicolon tail)).trans
      (token_of [';'] tail)
  have hterminator : terminator .other env ⟨';' :: tail, pos, comments⟩
      = .ok (([Node.token pos ";"], pos + 1), ⟨tail, pos + 1, comments⟩) := by
    rw [terminator, bind_of_ok hattempt]
    show (mark ";" >>= fun semicolon => pure ([semicolon], semicolon.stop) : Parser _) env _ = _
    rw [bind_of_ok hmark]
    rfl
  rw [terminated, bind_of_ok hterminator]
  rfl

/-- The text of a bare import. -/
def bareImport (source : List Char) : List Char :=
  'i' :: 'm' :: 'p' :: 'o' :: 'r' :: 't' :: '\'' :: (source ++ ['\'', ';'])

/-- The statement of a bare import. -/
def bareImportNode (pos : Nat) (source : List Char) : Node :=
  Node.branchTo .importStatement
    [Node.token pos "import", (quoted (pos + 6) source).inRole .source,
      Node.token (pos + 8 + Text.byteSize source) ";"] (pos + 9 + Text.byteSize source)

/-- No attributes stand in front of a semicolon. -/
theorem importAttribute?_of (rules : Rules) (hplain : env.dialect = .plain) (tail : List Char) :
    importAttribute? rules env ⟨';' :: tail, pos, comments⟩
      = .ok ([], ⟨';' :: tail, pos, comments⟩) := by
  have htyped : typed env ⟨';' :: tail, pos, comments⟩
      = .ok (false, ⟨';' :: tail, pos, comments⟩) := by
    rw [typed, hplain]
    rfl
  have hahead : ahead env ⟨';' :: tail, pos, comments⟩
      = .ok (.mark ";", ⟨';' :: tail, pos, comments⟩) := by
    rw [ahead, Reader.skip_cons (by decide) (by decide), ahead_semicolon]
  rw [importAttribute?, bind_of_ok htyped, bind_of_ok hahead]
  rfl

/-- The rest of a bare import is its source and its semicolon. -/
theorem importStatement_of (rules : Rules) (hsource : IsPlain source)
    (hplain : env.dialect = .plain) (tail : List Char)
    (hword : word "import" env r = .ok (Node.token pos "import",
      ⟨'\'' :: (source ++ '\'' :: ';' :: tail), pos + 6, comments⟩)) :
    importStatement rules env r
      = .ok (bareImportNode pos source, ⟨tail, pos + 9 + Text.byteSize source, comments⟩) := by
  have hquote := @isStringAhead_of env ⟨'\'' :: (source ++ '\'' :: ';' :: tail), pos + 6, comments⟩
    (Reader.skip_cons (by decide) (by decide)) (ahead_quote _)
  have hpos : pos + 6 + 2 + Text.byteSize source = pos + 8 + Text.byteSize source := by omega
  have hend : pos + 8 + Text.byteSize source + 1 = pos + 9 + Text.byteSize source := by omega
  rw [importStatement, bind_of_ok hword, bind_of_ok hquote]
  show (do
    let source ← string
    let attributes ← importAttribute? rules
    terminated .importStatement .other
      (Node.token pos "import" :: source.inRole .source :: attributes) : Parser Node) env _ = _
  rw [bind_of_ok (string_of hsource _), bind_of_ok (importAttribute?_of rules hplain tail),
    terminated_of hplain, hpos, hend]
  rfl

/-- A bare import is read as its statement. -/
theorem statement_bareImport (rules : Rules) (hsource : IsPlain source)
    (hplain : env.dialect = .plain) (tail : List Char) :
    statement rules env ⟨bareImport source ++ tail, pos, comments⟩
      = .ok (bareImportNode pos source, ⟨tail, pos + 9 + Text.byteSize source, comments⟩) := by
  have htext : bareImport source ++ tail
      = 'i' :: 'm' :: 'p' :: 'o' :: 'r' :: 't' :: '\'' :: (source ++ '\'' :: ';' :: tail) := by
    simp [bareImport]
  rw [htext]
  -- What is ahead is told once; the reader stays closed otherwise.
  generalize hr : (⟨_ :: _, pos, comments⟩ : Reader) = r
  have hskip : r.skip = r := hr ▸ Reader.skip_cons (by decide) (by decide)
  have hnext : Ahead.of r.rest = .word "import" := hr ▸ ahead_import _
  have hahead : ahead env r = .ok (.word "import", r) := by rw [ahead, hskip, hnext]
  have hword : word "import" env r = .ok (Node.token pos "import",
      ⟨'\'' :: (source ++ '\'' :: ';' :: tail), pos + 6, comments⟩) := by
    rw [word_of hskip hnext, ← hr]
    exact token_of "import".toList _
  have hsecond : second env r = .ok (.mark "'", r) := by
    rw [second, hskip, hnext, ← hr]
    show Except.ok (Ahead.of (Reader.skip ⟨'\'' :: _, _, _⟩).rest, _) = _
    rw [Reader.skip_cons (by decide) (by decide), ahead_quote]
  have htyped : typed env r = .ok (false, r) := by
    rw [typed, hplain]
    rfl
  have hdeclared : typedDeclarationAhead env r = .ok (none, r) := by
    rw [typedDeclarationAhead, bind_of_ok htyped]
    rfl
  have hfunction : isFunctionAhead env r = .ok (false, r) := by
    rw [isFunctionAhead, bind_of_ok hahead]
    show (second >>= fun _ => pure false : Parser Bool) env r = _
    rw [bind_of_ok hsecond]
    rfl
  -- No rule in front of that for imports takes the statement.
  rw [statement, bind_of_ok hahead]
  show wordStatement rules "import" env r = _
  rw [wordStatement, bind_of_ok hdeclared]
  show (isFunctionAhead >>= _ : Parser Node) env r = _
  rw [bind_of_ok hfunction]
  show (second >>= _ : Parser Node) env r = _
  rw [bind_of_ok hsecond]
  exact importStatement_of rules hsource hplain tail hword

/-! ### Modules -/

/-- The text of a module of bare imports. -/
def bareImports (sources : List (List Char)) : List Char := sources.flatMap bareImport

/-- The statements of a module of bare imports. -/
def bareImportNodes (pos : Nat) : List (List Char) → List Node
  | [] => []
  | source :: sources =>
    bareImportNode pos source :: bareImportNodes (pos + 9 + Text.byteSize source) sources

variable {sources : List (List Char)}

/-- The bytes of a bare import. -/
theorem byteSize_bareImport (source : List Char) :
    Text.byteSize (bareImport source) = 9 + Text.byteSize source := by
  have hmarks : Text.byteSize ['\'', ';'] = 2 := rfl
  simp only [bareImport, Text.byteSize_cons, Text.byteSize_append, hmarks]
  have hwidths : ('i').utf8Size = 1 ∧ ('m').utf8Size = 1 ∧ ('p').utf8Size = 1 ∧ ('o').utf8Size = 1 ∧
      ('r').utf8Size = 1 ∧ ('t').utf8Size = 1 ∧ ('\'').utf8Size = 1 := by decide
  omega

/-- The rule of a statement of a module. -/
def part (rules : Rules) : Parser (List Node) := do return [← reportedAtStart (rules .statement)]

/-- A bare import is one of the statements of a module. -/
theorem part_bareImport {rules inner : Rules}
    (hrules : rules .statement = Parser.ending (statement inner)) (hplain : env.dialect = .plain)
    (hsource : IsPlain source) (tail : List Char) :
    part rules env ⟨bareImport source ++ tail, pos, comments⟩
      = .ok ([bareImportNode pos source],
        ⟨tail, pos + 9 + Text.byteSize source, comments⟩) := by
  have hread : reportedAtStart (rules .statement) env ⟨bareImport source ++ tail, pos, comments⟩
      = .ok (bareImportNode pos source, ⟨tail, pos + 9 + Text.byteSize source, comments⟩) := by
    rw [reportedAtStart, hrules, Parser.ending,
      statement_bareImport inner hsource (by exact hplain)]
  rw [part, bind_of_ok hread]
  rfl

/-- The loop over the statements reads one bare import after the other. -/
theorem growFuel_bareImports {rules inner : Rules}
    (hrules : rules .statement = Parser.ending (statement inner)) (hplain : env.dialect = .plain)
    (hsources : ∀ source ∈ sources, IsPlain source) {fuel : Nat} (hfuel : sources.length < fuel)
    (pos : Nat) (nodes : List Node) :
    growFuel (fun nodes => do return (← round (· = .finished) (part rules)).map (nodes ++ ·)) fuel
      nodes env ⟨bareImports sources, pos, comments⟩
      = .ok (nodes ++ bareImportNodes pos sources,
        ⟨[], pos + Text.byteSize (bareImports sources), comments⟩) := by
  induction sources generalizing fuel pos nodes with
  | nil =>
      obtain ⟨fuel, rfl⟩ : ∃ n, fuel = n + 1 := ⟨fuel - 1, by omega⟩
      -- Behind the last import the text is finished.
      have hstop := @round_of_stop env ⟨bareImports [], pos, comments⟩ (· = .finished)
        (part rules) rfl
      rw [growFuel_of_none hstop, bareImportNodes, List.append_nil]
      rfl
  | cons source sources ih =>
      obtain ⟨fuel, rfl⟩ : ∃ n, fuel = n + 1 := ⟨fuel - 1, by omega⟩
      obtain ⟨hsource, hsources⟩ := List.forall_mem_cons.mp hsources
      have hread := @part_bareImport env pos comments source _ _ hrules hplain hsource
        (bareImports sources)
      -- Another import is ahead, so the loop takes one more round.
      have hstop : decide (Ahead.of (⟨bareImport source ++ bareImports sources, pos, comments⟩
          : Reader).skip.rest = .finished) = false := by
        have hskip : (⟨bareImport source ++ bareImports sources, pos, comments⟩ : Reader).skip
            = ⟨bareImport source ++ bareImports sources, pos, comments⟩ :=
          Reader.skip_cons (by decide) (by decide)
        rw [hskip]
        rfl
      have hsize : pos + Text.byteSize (bareImports (source :: sources))
          = pos + 9 + Text.byteSize source + Text.byteSize (bareImports sources) := by
        rw [bareImports, List.flatMap_cons, Text.byteSize_append, byteSize_bareImport, bareImports]
        omega
      rw [hsize, bareImports, List.flatMap_cons, ← bareImports,
        growFuel_of_some (round_of_ok hstop hread),
        ih hsources (Nat.lt_of_succ_lt_succ hfuel), bareImportNodes, List.append_assoc]
      rfl

/-- There are no more bare imports than characters. -/
theorem length_le_bareImports (sources : List (List Char)) :
    sources.length ≤ (bareImports sources).length := by
  induction sources with
  | nil => exact Nat.le_refl 0
  | cons source sources ih =>
      rw [bareImports, List.flatMap_cons, List.length_append, ← bareImports, bareImport]
      simp only [List.length_cons]
      omega

/-- The statements of a module of bare imports are read. -/
theorem statements_bareImports (hplain : env.dialect = .plain)
    (hsources : ∀ source ∈ sources, IsPlain source) :
    statements env ⟨bareImports sources, pos, comments⟩
      = .ok (bareImportNodes pos sources,
        ⟨[], pos + Text.byteSize (bareImports sources), comments⟩) := by
  have hline : interpreterLine? env ⟨bareImports sources, pos, comments⟩
      = .ok ([], ⟨bareImports sources, pos, comments⟩) := by cases sources <;> rfl
  have hloop : untilAhead (· = .finished)
      (part (rulesTo (32 * ((bareImports sources).length + 4)))) env
        ⟨bareImports sources, pos, comments⟩
      = .ok (bareImportNodes pos sources,
        ⟨[], pos + Text.byteSize (bareImports sources), comments⟩) := by
    -- The fuel is not zero, so the rule for statements is the real one.
    have hrules : rulesTo (32 * ((bareImports sources).length + 4)) .statement
        = Parser.ending (statement (rulesTo (32 * ((bareImports sources).length + 4) - 1))) := by
      obtain ⟨depth, hdepth⟩ : ∃ n, 32 * ((bareImports sources).length + 4) = n + 1 :=
        ⟨32 * ((bareImports sources).length + 4) - 1, by omega⟩
      rw [hdepth]
      rfl
    rw [untilAhead_eq, collect_eq, growFuel_bareImports hrules hplain hsources
      (Nat.lt_succ_of_le (length_le_bareImports sources))]
    rfl
  have hskip : skipBlanks env ⟨[], pos + Text.byteSize (bareImports sources), comments⟩
      = .ok ((), ⟨[], pos + Text.byteSize (bareImports sources), comments⟩) := rfl
  rw [statements]
  show (interpreterLine? >>= fun first => untilAhead (· = .finished)
      (part (rulesTo (32 * ((bareImports sources).length + 4)))) >>= fun rest =>
        skipBlanks >>= fun _ => pure (first ++ rest) : Parser (List Node)) env _ = _
  rw [bind_of_ok hline, bind_of_ok hloop, bind_of_ok hskip]
  rfl

end Parser

/-! ### Trees -/

/-- There is nothing to merge. -/
theorem mergeNodes_nil (ns : List Node) : mergeNodes ns [] = ns := by
  induction ns with
  | nil => rfl
  | cons n ns ih => rw [mergeNodes, List.takeWhile_nil, List.dropWhile_nil, List.nil_append, ih]

/-- Nodes without comments stay as they are. -/
theorem childrenWithComments_nil {ns : List Node} (h : ∀ n ∈ ns, withComments [] n = n) :
    childrenWithComments [] ns = ns := by
  induction ns with
  | nil => rfl
  | cons n ns ih =>
      obtain ⟨hn, hns⟩ := List.forall_mem_cons.mp h
      rw [childrenWithComments, List.filter_nil, hn, ih hns]

/-- So does a tree. -/
theorem withComments_nil (n : Node) : withComments [] n = n := by
  induction n using Node.childrenRec with
  | h l cs ih =>
      rw [withComments, childrenWithComments_nil ih, List.filter_nil]
      exact congrArg (Node.mk l) (mergeNodes_nil cs)

/-- **A module of bare imports is parsed**, whatever their sources. -/
theorem parse_bareImports {sources : List (List Char)}
    (hsources : ∀ source ∈ sources, Parser.IsPlain source) :
    parse .plain (String.ofList (Parser.bareImports sources))
      = .ok (Node.branchTo .program (Parser.bareImportNodes 0 sources)
        (Text.byteSize (Parser.bareImports sources))).numbered := by
  have hread : Parser.runAt Parser.statements ⟨.plain, true, true, true⟩
      ⟨Parser.bareImports sources, 0, []⟩ = _ := Parser.statements_bareImports rfl hsources
  rw [Nat.zero_add] at hread
  rw [parse, parseWith, String.toList_ofList, hread]
  dsimp only [List.reverse_nil]
  rw [withComments_nil, mergeNodes_nil]
  rfl

end Grammar

namespace Syntax.Tree

/-- The tree of a module of bare imports. -/
def ofBareImports (path : String) (sources : List (List Char)) : Tree where
  source := String.ofList (Grammar.Parser.bareImports sources)
  root := (Node.branchTo .program (Grammar.Parser.bareImportNodes 0 sources)
    (Text.byteSize (Grammar.Parser.bareImports sources))).numbered
  dialect := .plain
  path? := some path

/-- The parser reads the text so. -/
theorem parse_ofBareImports (path : String) {sources : List (List Char)}
    (hsources : ∀ source ∈ sources, Grammar.Parser.IsPlain source) :
    Tree.parse .plain (some path) (ofBareImports path sources).source
      = .ok (ofBareImports path sources) := by
  rw [Tree.parse, ofBareImports, Grammar.parse_bareImports hsources]

end Syntax.Tree

end ScriptRefactor
