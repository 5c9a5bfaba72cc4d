import ScriptRefactor.Proofs.LineDiff.Lines
import ScriptRefactor.Proofs.Refactoring.Additions

/-!
# `ScriptRefactor.Proofs.Refactoring.NewStatements`: where new statements go

New imports and exports are lines of their own behind the line on which the
statement in front of them ends. That line is found in the text alone: up
to its end, positions are on no later line (`nextLineStart_spec`).

So a new statement stands between two statements, or comments, exactly if
nothing that starts on that line goes on behind it
(`new_statements_between_iff`). A template or a comment of several lines
that starts there is cut in two.
-/

set_option autoImplicit false

namespace ScriptRefactor

open Syntax

/-! ### Lines -/

namespace Text

/-- What stands before a character goes up to its first occurrence. -/
theorem before?_singleton (c : Char) (cs : List Char) :
    before? [c] cs = if c ∈ cs then some (cs.takeWhile (· ≠ c)) else none := by
  induction cs with
  | nil => rfl
  | cons d cs ih =>
      rw [before?, ih]
      by_cases hcd : c = d
      · simp [startsWith, afterPrefix?, hcd]
      · have hdc : d ≠ c := fun h => hcd h.symm
        have hstart : startsWith [c] (d :: cs) = false := by simp [startsWith, afterPrefix?, hcd]
        by_cases hmem : c ∈ cs <;> simp [hstart, hmem, hcd, hdc]

end Text

namespace Syntax

/-- The lines of two parts are counted one after the other. -/
theorem feedsIn_append (as bs : List Char) (k : Nat) :
    feedsIn (as ++ bs) (Text.byteSize as + k) = as.count '\n' + feedsIn bs k := by
  induction as with
  | nil => simp
  | cons c as ih =>
      have hc := c.utf8Size_pos
      obtain ⟨n, hn⟩ := Nat.exists_eq_add_of_le' hc
      have hlimit : c.utf8Size + Text.byteSize as + k = (n + Text.byteSize as + k) + 1 := by omega
      have hrest : n + Text.byteSize as + k + 1 - c.utf8Size = Text.byteSize as + k := by omega
      rw [List.cons_append, Text.byteSize_cons, hlimit, feedsIn, hrest, ih, List.count_cons]
      simp only [beq_iff_eq]
      omega

/-- No more line feeds are found than there are. -/
theorem feedsIn_le_count (cs : List Char) (limit : Nat) : feedsIn cs limit ≤ cs.count '\n' := by
  induction cs generalizing limit with
  | nil => simp [feedsIn]
  | cons c cs ih =>
      cases limit with
      | zero => simp [feedsIn]
      | succ limit =>
          have hrest := ih (limit + 1 - c.utf8Size)
          rw [feedsIn, List.count_cons]
          simp only [beq_iff_eq]
          omega

/-- A later position is on no earlier line. -/
theorem feedsIn_mono (cs : List Char) {m n : Nat} (h : m ≤ n) :
    feedsIn cs m ≤ feedsIn cs n := by
  induction cs generalizing m n with
  | nil => simp [feedsIn]
  | cons c cs ih =>
      cases m with
      | zero => simp [feedsIn]
      | succ m =>
          obtain ⟨n, rfl⟩ := Nat.exists_eq_add_of_le' (Nat.lt_of_lt_of_le (Nat.succ_pos m) h)
          rw [feedsIn, feedsIn]
          exact Nat.add_le_add_left (ih (by omega)) _

end Syntax

namespace Refactoring

variable {t : Tree} {text : String} {pos : Nat} {front line rest : List Char} {anchor : Node}

/-- The line of a position between two characters is counted in front of
it. -/
theorem lineOf_append (h : text.toList = front ++ rest) :
    lineOf text (Text.byteSize front) = front.count '\n' := by
  have happend := feedsIn_append front rest 0
  rw [lineOf, h]
  cases rest <;> simpa [feedsIn] using happend

/-- The next line starts behind the first line feed. -/
theorem nextLineStart_of_feed (h : text.toList = front ++ (line ++ '\n' :: rest))
    (hline : '\n' ∉ line) :
    nextLineStart text (Text.byteSize front) = Text.byteSize front + Text.byteSize line + 1 := by
  have hbefore : (line ++ '\n' :: rest).takeWhile (· ≠ '\n') = line := by
    have hkeep : ∀ c ∈ line, decide (c ≠ '\n') = true := fun c hc =>
      decide_eq_true fun hfeed => hline (hfeed ▸ hc)
    rw [List.takeWhile_append_of_pos hkeep]
    simp
  rw [nextLineStart, Text.cutAt?_eq_some_iff.mpr ⟨h, rfl⟩]
  dsimp only
  rw [Text.before?_singleton, if_pos (by simp), hbefore]

/-- Without a line feed behind the position there is no next line. -/
theorem nextLineStart_of_last (h : text.toList = front ++ rest) (hrest : '\n' ∉ rest) :
    nextLineStart text (Text.byteSize front) = Text.size text := by
  rw [nextLineStart, Text.cutAt?_eq_some_iff.mpr ⟨h, rfl⟩]
  dsimp only
  rw [Text.before?_singleton, if_neg hrest]

/-- The next line starts behind a line feed, and the positions in front of it
are those on no later line. Behind the last line there is only the end of
the text. -/
theorem nextLineStart_spec (hpos : Text.isBoundary text pos = true) :
    (pos < nextLineStart text pos ∧ Text.hasCharAt text (nextLineStart text pos - 1) '\n' = true
        ∧ ∀ x, lineOf text x ≤ lineOf text pos ↔ x < nextLineStart text pos)
      ∨ (nextLineStart text pos = Text.size text ∧ ∀ x, lineOf text x ≤ lineOf text pos) := by
  obtain ⟨front, rest, htext, rfl⟩ := Text.isBoundary_iff.mp hpos
  rw [lineOf_append htext]
  by_cases hfeed : '\n' ∈ rest
  · obtain ⟨line, after, rfl, hline⟩ := List.eq_append_cons_of_mem hfeed
    have hsplit : text.toList = (front ++ line) ++ '\n' :: after := by
      rw [htext, List.append_assoc]
    have hsize : Text.byteSize (front ++ line) = Text.byteSize front + Text.byteSize line :=
      Text.byteSize_append ..
    have hcount : (front ++ line).count '\n' = front.count '\n' := by
      rw [List.count_append, List.count_eq_zero.mpr hline, Nat.add_zero]
    -- Up to the line feed the line is the same, and behind it there is one more.
    have hbefore := lineOf_append hsplit
    have hbehind : lineOf text (Text.byteSize (front ++ line) + 1) = front.count '\n' + 1 := by
      have hone : Text.byteSize ((front ++ line) ++ ['\n'])
          = Text.byteSize (front ++ line) + 1 := by
        rw [Text.byteSize_append]
        rfl
      have hsplit' : text.toList = ((front ++ line) ++ ['\n']) ++ after := by simp [htext]
      rw [← hone, lineOf_append hsplit', List.count_append, hcount]
      rfl
    rw [nextLineStart_of_feed htext hline, ← hsize]
    refine .inl ⟨by omega, Text.hasCharAt_iff.mpr ⟨_, after, hsplit, rfl⟩, fun x =>
      ⟨fun hx => ?_, fun hx => ?_⟩⟩
    · by_contra hle
      have hmono := feedsIn_mono text.toList (Nat.le_of_not_lt hle)
      rw [lineOf] at hbehind hx
      omega
    · have hmono := feedsIn_mono text.toList (Nat.le_of_lt_succ hx)
      rw [lineOf] at hbefore ⊢
      omega
  · refine .inr ⟨nextLineStart_of_last htext hfeed, fun x => ?_⟩
    have hle := feedsIn_le_count text.toList x
    rw [htext, List.count_append, List.count_eq_zero.mpr hfeed] at hle
    rw [lineOf, htext]
    exact hle

/-- The next line starts behind the position. -/
theorem le_nextLineStart (hpos : Text.isBoundary text pos = true) :
    pos ≤ nextLineStart text pos := by
  rcases nextLineStart_spec hpos with ⟨hlt, -⟩ | ⟨hsize, -⟩
  · exact Nat.le_of_lt hlt
  · obtain ⟨front, rest, htext, rfl⟩ := Text.isBoundary_iff.mp hpos
    rw [hsize, Text.size, htext, Text.byteSize_append]
    exact Nat.le_add_right ..

/-! ### New statements -/

/-- The position is inside no statement or comment of the module. -/
def Between (t : Tree) (pos : Nat) : Prop :=
  ∀ c ∈ t.root.children, pos ≤ c.start ∨ c.stop ≤ pos

instance (t : Tree) (pos : Nat) : Decidable (Between t pos) :=
  inferInstanceAs (Decidable (∀ c ∈ t.root.children, pos ≤ c.start ∨ c.stop ≤ pos))

/-- No statement or comment that starts on the line on which the anchor
ends, or before, goes on behind this line. -/
def EndsLine (t : Tree) (anchor : Node) : Prop :=
  ∀ c ∈ t.root.children, lineOf t.source c.start ≤ lineOf t.source anchor.stop →
    lineOf t.source (c.stop - 1) ≤ lineOf t.source anchor.stop

instance (t : Tree) (anchor : Node) : Decidable (EndsLine t anchor) :=
  inferInstanceAs (Decidable (∀ c ∈ t.root.children,
    lineOf t.source c.start ≤ lineOf t.source anchor.stop →
      lineOf t.source (c.stop - 1) ≤ lineOf t.source anchor.stop))

/-- The edit only puts in the lines: at the start of a line, or at the end of
a text whose last line has no end. -/
def PutsLines (text lines : String) (e : Edit) : Prop :=
  e.start = e.stop
    ∧ ((Text.hasCharAt text (e.start - 1) '\n' = true ∧ e.replacement = lines ++ "\n")
      ∨ (e.start = Text.size text ∧ e.replacement = "\n" ++ lines))

instance (text lines : String) (e : Edit) : Decidable (PutsLines text lines e) :=
  inferInstanceAs (Decidable (_ ∧ _))

/-- A text that ends with a line feed has it in front of its end. -/
theorem hasCharAt_of_endsWith (h : Text.endsWith ['\n'] text.toList = true) :
    Text.hasCharAt text (Text.size text - 1) '\n' = true := by
  obtain ⟨front, htext⟩ := List.getLast?_eq_some_iff.mp (LineDiff.endsWith_singleton.mp h)
  refine Text.hasCharAt_iff.mpr ⟨front, [], htext, ?_⟩
  rw [Text.size, htext, Text.byteSize_append]
  rfl

/-- Behind the line of a position stand whole lines. -/
theorem putsLines_insertLineAfter (hpos : Text.isBoundary text pos = true) (lines : String) :
    PutsLines text lines (insertLineAfter text pos lines) := by
  unfold insertLineAfter
  dsimp only
  split
  · rename_i hlast
    simp only [Bool.and_eq_true, decide_eq_true_eq] at hlast
    exact ⟨rfl, .inr ⟨hlast.1, rfl⟩⟩
  · rename_i hlast
    refine ⟨rfl, .inl ⟨?_, rfl⟩⟩
    rcases nextLineStart_spec hpos with ⟨-, hfeed, -⟩ | ⟨hsize, -⟩
    · exact hfeed
    · simp only [hsize, decide_true, Bool.true_and, Bool.not_eq_true', Bool.not_eq_false] at hlast
      show Text.hasCharAt text (nextLineStart text pos - 1) '\n' = true
      rw [hsize]
      exact hasCharAt_of_endsWith hlast

/-- The position behind the line of an anchor is inside no statement exactly
if none goes on behind that line. -/
theorem between_nextLineStart_iff (ht : t.WellFormed)
    (hanchor : Text.isBoundary t.source anchor.stop = true) :
    Between t (nextLineStart t.source anchor.stop) ↔ EndsLine t anchor := by
  refine forall₂_congr fun c hc => ?_
  have hinside := inText_of_mem ht (Node.mem_preorder_of_child hc)
  rcases nextLineStart_spec hanchor with ⟨hlt, -, hline⟩ | ⟨hsize, hline⟩
  · rw [hline, hline]
    omega
  · rw [hsize]
    exact ⟨fun _ _ => hline _, fun _ => .inr hinside.2⟩

/-- New statements behind an anchor are whole lines, and stand between two
statements exactly if none goes on behind the line of the anchor. -/
theorem insertStatements_between_iff (ht : t.WellFormed)
    (hanchor : Text.isBoundary t.source anchor.stop = true) {lines : List String}
    (hlines : lines ≠ []) :
    ∃ e, insertStatements t (some anchor) lines = [e]
      ∧ PutsLines t.source ("\n".intercalate lines) e ∧ anchor.stop ≤ e.start
      ∧ (Between t e.start ↔ EndsLine t anchor) := by
  have hstart : (insertLineAfter t.source anchor.stop ("\n".intercalate lines)).start
      = nextLineStart t.source anchor.stop := by
    unfold insertLineAfter
    dsimp only
    split <;> rfl
  refine ⟨_, if_neg (by simpa using hlines), putsLines_insertLineAfter hanchor _, ?_⟩
  rw [hstart]
  exact ⟨le_nextLineStart hanchor, between_nextLineStart_iff ht hanchor⟩

/-- Where the statements go that are put in beside the one that takes names
in. They are lines behind the last import, or behind the last export from
another module, or else the last export. They stand between two statements,
or comments, exactly if nothing that starts on the line of that anchor goes
on behind it. -/
theorem new_statements_between_iff (t : Tree) (ht : t.WellFormed)
    (hends : ∀ c ∈ t.root.children, Text.isBoundary t.source c.stop = true) (source : String) :
    (∀ anchor, (importsOf t).getLast? = some anchor → ∀ w : Wanted,
        ownLines t source w.used ≠ [] →
        ∃ e, addImport t source w.default? w.named w.whole?
            = ((firstImport? t source).map (·.takenIn t w.used)).getD [] ++ [e]
          ∧ PutsLines t.source ("\n".intercalate (ownLines t source w.used)) e
          ∧ anchor.stop ≤ e.start ∧ (Between t e.start ↔ EndsLine t anchor))
      ∧ ∀ anchor, (reexportsOf t).getLast?.or (exportsOf t).getLast? = some anchor →
          ∀ (default? : Option String) (named : List String),
          ownExport t source (usedName? default?) (usedNames named) ≠ [] →
          ∃ e, addExport t source default? named = [e]
            ∧ PutsLines t.source
                ("\n".intercalate (ownExport t source (usedName? default?) (usedNames named))) e
            ∧ anchor.stop ≤ e.start ∧ (Between t e.start ↔ EndsLine t anchor) := by
  refine ⟨fun anchor hanchor w hlines => ?_, fun anchor hanchor default? named hlines => ?_⟩
  · have hchild : anchor ∈ t.root.children :=
      Node.mem_of_mem_childrenOf (List.mem_of_getLast? hanchor)
    obtain ⟨e, he, hspec⟩ := insertStatements_between_iff ht (hends anchor hchild) hlines
    exact ⟨e, by rw [addImport_eq, hanchor, he], hspec⟩
  · have hchild : anchor ∈ t.root.children := by
      rcases Option.or_eq_some_iff.mp hanchor with h | ⟨-, h⟩
      · exact Node.mem_of_mem_childrenOf (List.mem_filter.mp (List.mem_of_getLast? h)).1
      · exact Node.mem_of_mem_childrenOf (List.mem_of_getLast? h)
    obtain ⟨e, he, hspec⟩ := insertStatements_between_iff ht (hends anchor hchild) hlines
    have hfirst : firstExport? t source = none := by
      cases hfirst : firstExport? t source with
      | none => rfl
      | some clause => simp [ownExport, hfirst] at hlines
    exact ⟨e, by rw [addExport_eq, hanchor, he, hfirst]; rfl, hspec⟩

/-- A second import comes behind the line of the first one. -/
theorem new_statements_between_iff_oneLine :
    (importsOf defaultImport).getLast?.isSome = true
      ∧ ∃ e, addImport defaultImport "./y" (some "y") [] none = [e]
        ∧ PutsLines defaultImport.source "import y from './y';" e
        ∧ Between defaultImport e.start := by
  have hwell : defaultImport.WellFormed := by decide +kernel
  have hlines : ownLines defaultImport "./y" (Wanted.mk (some "y") none []).used
      = ["import y from './y';"] := by decide +kernel
  have hlast : (importsOf defaultImport).getLast?.isSome = true := by decide +kernel
  obtain ⟨anchor, hanchor⟩ := Option.isSome_iff_exists.mp hlast
  obtain ⟨e, he, hputs, -, hbetween⟩ := (new_statements_between_iff defaultImport hwell
    (by decide +kernel) "./y").1 anchor hanchor ⟨some "y", none, []⟩ (by simp [hlines])
  have hfirst : firstImport? defaultImport "./y" = none := by rfl
  rw [hfirst] at he
  rw [hlines] at hputs
  have hends : ∀ a ∈ (importsOf defaultImport).getLast?, EndsLine defaultImport a := by
    decide +kernel
  exact ⟨hlast, e, he, hputs, hbetween.mpr (hends anchor hanchor)⟩

/-- A template of two lines behind an import. -/
def templateBehindImport : Tree where
  source := "import a from './a'; \x60b\nc\x60;\n"
  root := (Node.branchTo .program
    [.branch .importStatement
        [.token 0 "import", .branch .importClause [.leaf (.construct .identifier) 7 "a"],
          .token 9 "from", quotedSource 14 "./a", .token 19 ";"],
      .branch .expressionStatement
        [.branch .templateString
          [.token 21 "\x60", .leaf (.construct .stringFragment) 22 "b\nc", .token 25 "\x60"],
          .token 26 ";"]] 28).numbered
  dialect := .plain
  path? := none

/-- A comment of two lines behind an export. -/
def commentBehindExport : Tree where
  source := "export \x7b a \x7d from './a'; /* b\nc */\n"
  root := (Node.branchTo .program
    [.branch .exportStatement
        [.token 0 "export",
          .branch .exportClause
            [.token 7 "\x7b", .branch .exportSpecifier
              [(.leaf (.construct .identifier) 9 "a" : Node).inRole .name], .token 11 "\x7d"],
          .token 13 "from", quotedSource 18 "./a", .token 23 ";"],
      .leaf (.construct .comment) 25 "/* b\nc */"] 35).numbered
  dialect := .plain
  path? := none

/-- A new import is put into a template, and a new export into a comment. -/
theorem addImport_cuts_template :
    addImport templateBehindImport "./d" (some "d") [] none
        = [.insert 24 "import d from './d';\n"]
      ∧ ¬ Between templateBehindImport 24
      ∧ addExport commentBehindExport "./d" none ["d"]
        = [.insert 30 "export \x7b d \x7d from './d';\n"]
      ∧ ¬ Between commentBehindExport 30 := by
  decide +kernel

end Refactoring

end ScriptRefactor
