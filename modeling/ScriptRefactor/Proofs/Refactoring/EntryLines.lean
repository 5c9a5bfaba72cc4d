import ScriptRefactor.Proofs.Regular.Matches
import ScriptRefactor.Refactoring.EntryLines

/-!
# `ScriptRefactor.Proofs.Refactoring.EntryLines`: lines put in and taken out

Lines are taken out by an expression that holds the text of the source.
What the lines look like that it finds is said here without an
expression (`ImportsStyle`, `LinksFrom`), for every source, whatever its
characters mean elsewhere (`passes_styleImportOf_iff`,
`passes_statementFrom_iff`).

The line that is put in for a source is one of them
(`importsStyle_styleImport`, `linksFrom_linkLine`). So where there is no
other one, taking the source out undoes what was put in, behind whatever
line that was (`removeLines_insertAfterLast`).
-/

set_option autoImplicit false

namespace ScriptRefactor.Refactoring

open ScriptRefactor.Regular

/-! ### Lines that name a source -/

/-- One or more spaces. -/
def IsSpaces (cs : List Char) : Prop := cs ≠ [] ∧ ∀ c ∈ cs, c = ' '

/-- A quote of either kind. -/
def IsQuote (c : Char) : Prop := c = '\'' ∨ c = '"'

/-- The source between two quotes. -/
def IsQuoted (source : String) (cs : List Char) : Prop :=
  ∃ q q', IsQuote q ∧ IsQuote q' ∧ cs = [q] ++ (source.toList ++ [q'])

/-- A style sheet is imported from the source, somewhere in the line. -/
def ImportsStyle (source line : String) : Prop :=
  ∃ front gap part back, line.toList = front ++ ("@import".toList ++ (gap ++ part)) ++ back ∧
    IsSpaces gap ∧ IsQuoted source part

/-- A statement with the keyword links names from the source, somewhere
in the line. -/
def LinksFrom (keyword source line : String) : Prop :=
  ∃ front gap names gap' gap'' part back,
    line.toList = front ++ (keyword.toList ++ (gap ++ (names ++ (gap' ++ ("from".toList
      ++ (gap'' ++ part)))))) ++ back ∧
    IsSpaces gap ∧ '\n' ∉ names ∧ IsSpaces gap' ∧ IsSpaces gap'' ∧ IsQuoted source part

/-- The line that links names from a source. -/
def linkLine (keyword names source : String) : String :=
  keyword ++ " " ++ names ++ " from '" ++ source ++ "';"

/-! ### The expressions that find them -/

section Expressions

variable {before after : List Nat} {cs : List Char}

/-- Spaces match a gap. -/
theorem matches_spaces_iff : spaces.Matches before (cs.map Char.toNat) after ↔ IsSpaces cs := by
  have hspace : Regular.text " " = symbol (.one ' '.toNat) := rfl
  have hspaces : spaces = sequence [Regular.text " ", many (symbol (.one ' '.toNat))] := rfl
  simp only [hspaces, matches_sequence_cons_iff, matches_sequence_nil_iff, matches_text_iff,
    matches_many_symbol_iff, has_one_iff, Char.toNat_inj]
  constructor
  · rintro ⟨_, _, rfl, rfl, others, _, rfl, hothers, rfl⟩
    exact ⟨by simp, by simpa using hothers⟩
  · rintro ⟨hne, hall⟩
    obtain ⟨c, cs, rfl⟩ := List.exists_cons_of_ne_nil hne
    obtain ⟨rfl, hcs⟩ := List.forall_mem_cons.mp hall
    exact ⟨[' '], cs, rfl, rfl, cs, [], by simp, hcs, rfl⟩

/-- Any characters of a line match a text without a line feed. -/
theorem matches_anyInLine_iff :
    (many anyInLine).Matches before (cs.map Char.toNat) after ↔ '\n' ∉ cs := by
  have hany : ∀ c : Char,
      (SymbolClass.mk true [(10, 10)]).has c.toNat = true ↔ c.toNat ≠ '\n'.toNat := by
    intro c
    simp [SymbolClass.has, SymbolClass.inRanges]
  rw [anyInLine, matches_many_symbol_iff]
  simp only [hany, ne_eq, Char.toNat_inj]
  exact ⟨fun h hmem => h _ hmem rfl, fun h c hc heq => h (heq ▸ hc)⟩

/-- A quote is matched by itself. -/
theorem matches_quote_iff :
    quote.Matches before (cs.map Char.toNat) after ↔ ∃ q, cs = [q] ∧ IsQuote q := by
  have hquote : ∀ c : Char, (SymbolClass.mk false [(39, 39), (34, 34)]).has c.toNat = true ↔
      c.toNat = '\''.toNat ∨ c.toNat = '"'.toNat := by
    intro c
    simp [SymbolClass.has, SymbolClass.inRanges]
    omega
  rw [quote, matches_symbol_iff]
  simp only [hquote, Char.toNat_inj, IsQuote]

/-- A source in quotes. -/
theorem matches_quoted_iff {source : String} :
    (quoted source).Matches before (cs.map Char.toNat) after ↔ IsQuoted source cs := by
  simp only [quoted, matches_sequence_cons_iff, matches_sequence_nil_iff, matches_text_iff,
    matches_quote_iff]
  constructor
  · rintro ⟨_, _, rfl, ⟨q, rfl, hq⟩, _, _, rfl, rfl, _, _, rfl, ⟨q', rfl, hq'⟩, rfl⟩
    exact ⟨q, q', hq, hq', by simp⟩
  · rintro ⟨q, q', hq, hq', rfl⟩
    exact ⟨_, _, rfl, ⟨q, rfl, hq⟩, _, _, rfl, rfl, _, [], by simp, ⟨q', rfl, hq'⟩, rfl⟩

end Expressions

/-- The expression for a style sheet finds its imports. -/
theorem passes_styleImportOf_iff {source line : String} :
    (styleImportOf source).passes line = true ↔ ImportsStyle source line := by
  simp only [styleImportOf, LineTest.passes, found_symbolsOf_iff, matches_sequence_cons_iff,
    matches_sequence_nil_iff, matches_text_iff, matches_spaces_iff, matches_quoted_iff]
  constructor
  · rintro ⟨front, _, back, hline, _, _, rfl, rfl, gap, _, rfl, hgap, part, _, rfl, hpart, rfl⟩
    exact ⟨front, gap, part, back, by simpa using hline, hgap, hpart⟩
  · rintro ⟨front, gap, part, back, hline, hgap, hpart⟩
    exact ⟨front, _, back, hline, _, _, rfl, rfl, gap, part, rfl, hgap, part, [], by simp, hpart,
      rfl⟩

/-- The expression for a source finds the statements that link it. -/
theorem passes_statementFrom_iff {keyword source line : String} :
    (statementFrom keyword source).passes line = true ↔ LinksFrom keyword source line := by
  simp only [statementFrom, LineTest.passes, found_symbolsOf_iff, matches_sequence_cons_iff,
    matches_sequence_nil_iff, matches_text_iff, matches_spaces_iff, matches_quoted_iff,
    matches_anyInLine_iff]
  constructor
  · rintro ⟨front, _, back, hline, _, _, rfl, rfl, gap, _, rfl, hgap, names, _, rfl, hnames,
      gap', _, rfl, hgap', _, _, rfl, rfl, gap'', _, rfl, hgap'', part, _, rfl, hpart, rfl⟩
    exact ⟨front, gap, names, gap', gap'', part, back, by simpa using hline, hgap, hnames, hgap',
      hgap'', hpart⟩
  · rintro ⟨front, gap, names, gap', gap'', part, back, hline, hgap, hnames, hgap', hgap'', hpart⟩
    exact ⟨front, _, back, hline, _, _, rfl, rfl, gap, _, rfl, hgap, names, _, rfl, hnames, gap', _,
      rfl, hgap', _, _, rfl, rfl, gap'', part, rfl, hgap'', part, [], by simp, hpart, rfl⟩

instance (source line : String) : Decidable (ImportsStyle source line) :=
  decidable_of_iff _ passes_styleImportOf_iff

instance (keyword source line : String) : Decidable (LinksFrom keyword source line) :=
  decidable_of_iff _ passes_statementFrom_iff

/-! ### The lines that are put in -/

/-- The line put in for a style sheet imports it. -/
theorem importsStyle_styleImport (source : String) : ImportsStyle source (styleImport source) :=
  ⟨[], [' '], '\'' :: (source.toList ++ ['\'']), [';'], by simp [styleImport],
    ⟨by simp, by simp⟩, '\'', '\'', .inl rfl, .inl rfl, rfl⟩

/-- The line put in for names links them from the source. -/
theorem linksFrom_linkLine {names : String} (hnames : '\n' ∉ names.toList)
    (keyword source : String) : LinksFrom keyword source (linkLine keyword names source) :=
  ⟨[], [' '], names.toList, [' '], [' '], '\'' :: (source.toList ++ ['\'']), [';'],
    by simp [linkLine], ⟨by simp, by simp⟩, hnames, ⟨by simp, by simp⟩, ⟨by simp, by simp⟩,
    '\'', '\'', .inl rfl, .inl rfl, rfl⟩

/-- A new line is put in between two lines, or at an end. -/
theorem exists_insertAfterLast (lines : List String) (test : LineTest) (line : String) :
    ∃ n, insertAfterLast lines test line = lines.take n ++ line :: lines.drop n := ⟨_, rfl⟩

/-- Taking out the lines that pass a test undoes the insertion of one of
them, if there is no other one. -/
theorem removeLines_insertAfterLast {lines : List String} {test : LineTest} {line : String}
    (hlines : ∀ l ∈ lines, ¬ test.passes l = true) (hline : test.passes line = true)
    (anchor : LineTest) :
    removeLines (insertAfterLast lines anchor line) test = (lines, 1) := by
  obtain ⟨n, hinsert⟩ := exists_insertAfterLast lines anchor line
  have hkeep : ∀ ls : List String, (∀ l ∈ ls, l ∈ lines) →
      ls.filter (!test.passes ·) = ls ∧ ls.countP test.passes = 0 := fun ls hls =>
    ⟨List.filter_eq_self.mpr fun l hl => by simpa using hlines l (hls l hl),
      List.countP_eq_zero.mpr fun l hl => hlines l (hls l hl)⟩
  have hfront := hkeep (lines.take n) fun l hl => List.mem_of_mem_take hl
  have hback := hkeep (lines.drop n) fun l hl => List.mem_of_mem_drop hl
  rw [hinsert, removeLines, List.filter_append, List.filter_cons_of_neg (by simp [hline]), hfront.1,
    hback.1, List.countP_append, List.countP_cons_of_pos hline, hfront.2, hback.2,
    List.take_append_drop]

/-- **A source is taken out as it was put in.** Where no line imports a style
sheet from the source, putting in this import and taking it out again
takes one line and gives the lines back. So it is with imports and with
exports of names, where no line links names from the source, whatever
names are written on the line. Every removal takes the lines that name
the source, and keeps the others in their order. -/
theorem remove_added_source (lines : List String) (source : String) :
    ((∀ l ∈ lines, ¬ ImportsStyle source l) →
      removeStyleImport (addStyleImport lines source) source = (lines, 1)) ∧
    (∀ names : String, '\n' ∉ names.toList →
      ((∀ l ∈ lines, ¬ LinksFrom "import" source l) →
        removeImportLine (addImportLine lines (linkLine "import" names source)) source
          = (lines, 1)) ∧
      ((∀ l ∈ lines, ¬ LinksFrom "export" source l) →
        removeExportFromLine (addExportFromLine lines (linkLine "export" names source)) source
          = (lines, 1))) ∧
    removeStyleImport lines source
      = (lines.filter (¬ ImportsStyle source ·), lines.countP (ImportsStyle source ·)) ∧
    removeImportLine lines source
      = (lines.filter (¬ LinksFrom "import" source ·), lines.countP (LinksFrom "import" source ·)) ∧
    removeExportFromLine lines source
      = (lines.filter (¬ LinksFrom "export" source ·),
        lines.countP (LinksFrom "export" source ·)) := by
  refine ⟨fun hnone => ?_, fun names hnames => ⟨fun hnone => ?_, fun hnone => ?_⟩, ?_, ?_, ?_⟩
  · exact removeLines_insertAfterLast (fun l hl => mt passes_styleImportOf_iff.mp (hnone l hl))
      (passes_styleImportOf_iff.mpr (importsStyle_styleImport source)) styleLine
  · exact removeLines_insertAfterLast (fun l hl => mt passes_statementFrom_iff.mp (hnone l hl))
      (passes_statementFrom_iff.mpr (linksFrom_linkLine hnames _ _)) importLine
  · exact removeLines_insertAfterLast (fun l hl => mt passes_statementFrom_iff.mp (hnone l hl))
      (passes_statementFrom_iff.mpr (linksFrom_linkLine hnames _ _)) exportFromLine
  · simp only [removeStyleImport, removeLines, ← passes_styleImportOf_iff, Bool.not_eq_true,
      Bool.decide_eq_false, Bool.decide_eq_true]
  · simp only [removeImportLine, removeLines, ← passes_statementFrom_iff, Bool.not_eq_true,
      Bool.decide_eq_false, Bool.decide_eq_true]
  · simp only [removeExportFromLine, removeLines, ← passes_statementFrom_iff, Bool.not_eq_true,
      Bool.decide_eq_false, Bool.decide_eq_true]

/-- Lines of an entry file. One source is the text of an expression that
matches the other one. -/
def entryLines : List String :=
  ["@import './aXb';", "import a from './aXb';", "export * from './aXb';", "// from './a.b'", ""]

/-- What is put in for the one is taken out, and the other stays. -/
theorem remove_added_source_entryLines :
    removeStyleImport (addStyleImport entryLines "./a.b") "./a.b" = (entryLines, 1) ∧
      removeImportLine (addImportLine entryLines (linkLine "import" "\x7b b, c \x7d" "./a.b"))
        "./a.b" = (entryLines, 1) ∧
      removeExportFromLine (addExportFromLine entryLines (linkLine "export" "*" "./a.b")) "./a.b"
        = (entryLines, 1) ∧
      (removeImportLine entryLines "./aXb").2 = 1 := by
  obtain ⟨hstyle, hlinks, -, himports, -⟩ := remove_added_source entryLines "./a.b"
  refine ⟨hstyle (by decide +kernel), ?_, ?_, by decide +kernel⟩
  · exact (hlinks "\x7b b, c \x7d" (by decide)).1 (by decide +kernel)
  · exact (hlinks "*" (by decide)).2 (by decide +kernel)

end ScriptRefactor.Refactoring
