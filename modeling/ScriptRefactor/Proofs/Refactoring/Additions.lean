import ScriptRefactor.Proofs.Edit.Ascending
import ScriptRefactor.Proofs.Refactoring.LinkBatches

/-!
# `ScriptRefactor.Proofs.Refactoring.Additions`: names added to a module that has them

Names from a source go to the first import of the source that binds
anything (`firstImport?`), and so do names that are exported again. What
that statement takes in comes first among the edits, the statements for the
names left over come last (`addImport_eq`, `addExport_eq`).

No other statement of the source is looked at. So nothing is added exactly
if that one provides all names that are wanted
(`addImport_eq_nil_iff`, `addExport_eq_nil_iff`), even if others bind them.
Names that go into a statement of their own are added once more by a second
call (`addImport_again_iff`); names that are exported again are not
(`addExport_again`).
-/

set_option autoImplicit false

namespace ScriptRefactor

open Syntax

/-- What the grammar says of import clauses. -/
structure Syntax.Tree.ClausesBind (t : Tree) : Prop where
  /-- A clause has a default name, a namespace or a list. -/
  binds : ∀ c ∈ t.nodes, c.is .importClause = true → (c.childOf? .identifier).isSome = true
    ∨ (c.childOf? .namespaceImport).isSome = true ∨ (c.childOf? .namedImports).isSome = true
  /-- A namespace has a name. -/
  named : ∀ n ∈ t.nodes, n.is .namespaceImport = true → (n.childOf? .identifier).isSome = true

instance (t : Tree) : Decidable t.ClausesBind :=
  decidable_of_iff ((∀ c ∈ t.nodes, c.is .importClause = true →
        (c.childOf? .identifier).isSome = true ∨ (c.childOf? .namespaceImport).isSome = true
          ∨ (c.childOf? .namedImports).isSome = true)
      ∧ ∀ n ∈ t.nodes, n.is .namespaceImport = true → (n.childOf? .identifier).isSome = true)
    ⟨fun ⟨h1, h2⟩ => ⟨h1, h2⟩, fun h => ⟨h.binds, h.named⟩⟩

namespace Refactoring

variable {t t' : Tree} {p : ImportParts} {source : String} {clause : Node}

/-! ### What is wanted -/

/-- Names wanted from another module. -/
structure Wanted where
  /-- The name for its default. -/
  default? : Option String
  /-- The name for the whole module. -/
  whole? : Option String
  /-- The names of a list. -/
  named : List String
deriving DecidableEq

/-- Nothing is wanted. -/
def Wanted.nothing : Wanted := ⟨none, none, []⟩

/-- The names that are there, each once. -/
def Wanted.used (w : Wanted) : Wanted :=
  ⟨usedName? w.default?, usedName? w.whole?, usedNames w.named⟩

/-- The import that names from a source go to: the first one that binds
anything. -/
def firstImport? (t : Tree) (source : String) : Option ImportParts :=
  ((importsOf t).filter (hasSource t source)).findSome? ImportParts.of?

/-- What an import does not bind yet; a second default or namespace cannot
be taken in. -/
def ImportParts.missing (p : ImportParts) (t : Tree) (w : Wanted) : Wanted where
  default? := w.default?.filter fun d => p.default?.isNone && !((p.locals t).contains d)
  whole? := w.whole?.filter fun n => p.whole?.isNone && !((p.locals t).contains n)
  named := w.named.filter fun n => !((p.locals t).contains n)

/-- The edits by which an import takes names in. -/
def ImportParts.takenIn (p : ImportParts) (t : Tree) (w : Wanted) : List Edit :=
  ((p.missing t w).default?.map fun d => Edit.insert p.clause.start (d ++ ", ")).toList
    ++ (joinNames t p (p.missing t w).whole? (p.missing t w).named).edits

/-- What an import cannot take in. -/
def ImportParts.leftOver (p : ImportParts) (t : Tree) (w : Wanted) : Wanted :=
  let joined := joinNames t p (p.missing t w).whole? (p.missing t w).named
  ⟨none, joined.whole?, joined.named⟩

/-- The statements that come in beside the one that takes names in. -/
def ownLines (t : Tree) (source : String) (w : Wanted) : List String :=
  match firstImport? t source with
  | some p =>
    if p.leftOver t w = Wanted.nothing then []
    else importLines t source none (p.leftOver t w).whole? (p.leftOver t w).named
  | none => importLines t source w.default? w.whole? w.named

/-- Names are taken in by one statement, and those left over come in behind
the last import. -/
theorem addImport_eq (t : Tree) (source : String) (w : Wanted) :
    addImport t source w.default? w.named w.whole?
      = ((firstImport? t source).map (·.takenIn t w.used)).getD []
        ++ insertStatements t (importsOf t).getLast? (ownLines t source w.used) := by
  unfold addImport ownLines
  dsimp only
  rw [← firstImport?]
  cases firstImport? t source with
  | none => rfl
  | some p =>
      dsimp only
      have hleft : p.leftOver t w.used = Wanted.nothing
          ↔ ((p.leftOver t w.used).whole?.isNone
            && (p.leftOver t w.used).named.isEmpty) = true := by
        simp [ImportParts.leftOver, Wanted.nothing]
      show extendImport t p source w.used.default? w.used.whole? w.used.named = _
      unfold extendImport
      dsimp only
      rw [Option.map_some, Option.getD_some, ImportParts.takenIn]
      congr 1
      by_cases hnone : p.leftOver t w.used = Wanted.nothing
      · rw [if_pos hnone]
        exact if_pos (hleft.mp hnone)
      · rw [if_neg hnone]
        exact if_neg (mt hleft.mpr hnone)

/-! ### Nothing to add -/

/-- The import provides all that is wanted: each name is bound, or stands
for a default or a namespace where there is another one. -/
def ImportParts.Provides (p : ImportParts) (t : Tree) (w : Wanted) : Prop :=
  (∀ d ∈ w.default?, p.default?.isSome = true ∨ d ∈ p.locals t)
    ∧ (∀ n ∈ w.whole?, p.whole?.isSome = true ∨ n ∈ p.locals t)
    ∧ ∀ n ∈ w.named, n ∈ p.locals t

/-- A new name is dropped by a filter if it is not there or does not
pass. -/
theorem filter_eq_none_iff {name? : Option String} {q : String → Bool} :
    name?.filter q = none ↔ ∀ n ∈ name?, q n = false := by
  cases name? <;> simp [Option.filter]

/-- Nothing is missing in an import that provides what is wanted. -/
theorem ImportParts.missing_eq_nothing_iff (p : ImportParts) (t : Tree) (w : Wanted) :
    p.missing t w = Wanted.nothing ↔ p.Provides t w := by
  have hsome : ∀ n? : Option Node, n?.isNone = false ↔ n?.isSome = true := by
    intro n?
    cases n? <;> simp
  unfold missing Wanted.nothing Provides
  rw [Wanted.mk.injEq, filter_eq_none_iff, filter_eq_none_iff, List.filter_eq_nil_iff]
  simp only [Bool.and_eq_false_iff, hsome, Bool.not_eq_false', List.contains_iff_mem,
    Bool.not_eq_true', Bool.not_eq_false]

/-- A default name or a namespace is missing only where there is none. -/
theorem ImportParts.free_of_missing (p : ImportParts) (t : Tree) (w : Wanted) :
    ((p.missing t w).default?.isSome = true → p.default? = none)
      ∧ ((p.missing t w).whole?.isSome = true → p.whole? = none) := by
  constructor <;> intro h
  · obtain ⟨d, hd⟩ := Option.isSome_iff_exists.mp h
    have hnew := (Option.filter_eq_some_iff.mp hd).2
    simp only [Bool.and_eq_true, Option.isNone_iff_eq_none] at hnew
    exact hnew.1
  · obtain ⟨n, hn⟩ := Option.isSome_iff_exists.mp h
    have hnew := (Option.filter_eq_some_iff.mp hn).2
    simp only [Bool.and_eq_true, Option.isNone_iff_eq_none] at hnew
    exact hnew.1

/-- New entries are put in if there are any. -/
theorem append?_eq_none_iff {layout : ListLayout} {items : List Node} {entries : List String}
    (hitems : items ≠ []) : layout.append? items entries = none ↔ entries = [] := by
  obtain ⟨last, hlast⟩ : ∃ last, items.getLast? = some last :=
    ⟨_, List.getLast?_eq_some_getLast hitems⟩
  unfold ListLayout.append?
  rw [hlast]
  cases entries with
  | nil => simp
  | cons entry entries =>
      dsimp only
      split <;> simp

/-- An import takes nothing in and leaves nothing over exactly if there is
nothing to join. -/
theorem joinNames_eq_nothing_iff {whole? : Option String} (named : List String)
    (hbinds : p.default?.isSome = true ∨ p.whole?.isSome = true ∨ p.list?.isSome = true)
    (hwhole : ∀ n ∈ whole?, p.whole? = none) :
    ((joinNames t p whole? named).edits = [] ∧ (joinNames t p whole? named).whole? = none
      ∧ (joinNames t p whole? named).named = []) ↔ whole? = none ∧ named = [] := by
  unfold joinNames
  split
  · rename_i list hlist
    dsimp only
    by_cases hempty : p.specifiers.isEmpty = true
    · rw [if_pos hempty]
      cases named <;> simp [and_comm]
    · rw [if_neg hempty, Option.toList_eq_nil_iff,
        append?_eq_none_iff fun h => hempty (List.isEmpty_iff.mpr h)]
      simp [and_comm]
  · rename_i ns _ hns
    -- A second namespace is never wanted.
    have hnone : whole? = none := by
      cases whole? with
      | none => rfl
      | some n => exact absurd (hns.symm.trans (hwhole n rfl)) (by simp)
    simp [hnone]
  · cases whole? with
    | some ns => simp
    | none => cases named <;> simp
  · rename_i h1 h2 h3
    simp [h1, h2, h3] at hbinds

/-- New statements are put in if there are any. -/
theorem insertStatements_eq_nil_iff {anchor? : Option Node} {lines : List String} :
    insertStatements t anchor? lines = [] ↔ lines = [] := by
  unfold insertStatements
  cases lines with
  | nil => simp
  | cons line lines => cases anchor? <;> simp

/-- There is a line for every import, be it without any name. -/
theorem importLines_ne_nil (t : Tree) (source : String) (default? whole? : Option String)
    (named : List String) : importLines t source default? whole? named ≠ [] := by
  unfold importLines
  dsimp only
  split
  · simp
  · split <;> simp

/-- The first import of a source is an import of the source. -/
theorem of_firstImport? (h : firstImport? t source = some p) :
    ∃ n ∈ importsOf t, hasSource t source n = true ∧ ImportParts.of? n = some p := by
  obtain ⟨n, hn, hp⟩ := List.exists_of_findSome?_eq_some h
  obtain ⟨hn, hsource⟩ := List.mem_filter.mp hn
  exact ⟨n, hn, hsource, hp⟩

/-- The parts of an import bind something. -/
theorem binds_of_firstImport? (ht : t.ClausesBind) (h : firstImport? t source = some p) :
    p.default?.isSome = true ∨ p.whole?.isSome = true ∨ p.list?.isSome = true := by
  obtain ⟨n, hn, -, hp⟩ := of_firstImport? h
  obtain ⟨-, hclause, hdefault, hwhole, hlist, -⟩ := ImportParts.of?_eq_some hp
  have hn : n ∈ t.nodes := Node.mem_preorder_of_child (Node.mem_of_mem_childrenOf hn)
  rw [hdefault, hwhole, hlist]
  exact ht.binds p.clause (ImportParts.mem_nodes hp hn).1 (of_childOf? hclause).2

/-- Nothing of a source has to come in beside the first import if that takes
all names in. -/
theorem ownLines_eq_nil_iff {w : Wanted} (hfirst : firstImport? t source = some p) :
    ownLines t source w = [] ↔ p.leftOver t w = Wanted.nothing := by
  rw [ownLines, hfirst]
  dsimp only
  split <;> simp_all [importLines_ne_nil]

/-- Nothing is added exactly if the first import of the source provides all
that is wanted. -/
theorem addImport_eq_nil_iff (ht : t.ClausesBind) (w : Wanted) :
    addImport t source w.default? w.named w.whole? = []
      ↔ ∃ p, firstImport? t source = some p ∧ p.Provides t w.used := by
  rw [addImport_eq, List.append_eq_nil_iff, insertStatements_eq_nil_iff]
  cases hfirst : firstImport? t source with
  | none => simp [ownLines, hfirst, importLines_ne_nil]
  | some p =>
      have hjoin := joinNames_eq_nothing_iff (t := t) (p.missing t w.used).named
        (binds_of_firstImport? ht hfirst) fun n hn =>
          (p.free_of_missing t w.used).2 (Option.isSome_iff_exists.mpr ⟨n, hn⟩)
      have hnothing : (p.takenIn t w.used = [] ∧ p.leftOver t w.used = Wanted.nothing)
          ↔ p.missing t w.used = Wanted.nothing := by
        rw [ImportParts.takenIn, ImportParts.leftOver, Wanted.nothing, Wanted.mk.injEq,
          List.append_eq_nil_iff, Option.toList_eq_nil_iff, Option.map_eq_none_iff]
        have hparts : p.missing t w.used = ⟨none, none, []⟩
            ↔ (p.missing t w.used).default? = none ∧ (p.missing t w.used).whole? = none
              ∧ (p.missing t w.used).named = [] := by
          cases p.missing t w.used
          simp
        rw [hparts, ← hjoin]
        tauto
      simp only [Option.map_some, Option.getD_some, Option.some.injEq, exists_eq_left']
      rw [ownLines_eq_nil_iff hfirst, hnothing, ImportParts.missing_eq_nothing_iff]

/-! ### Adding once more -/

/-- The names that an import binds. -/
structure BoundNames where
  /-- The default name. -/
  default? : Option String
  /-- The name of the namespace. -/
  whole? : Option String
  /-- The names of the list. -/
  listed : List String
deriving DecidableEq

/-- All of the names. -/
def BoundNames.locals (b : BoundNames) : List String :=
  b.default?.toList ++ b.whole?.toList ++ b.listed

/-- The names that an import binds in its module. -/
def ImportParts.bound (p : ImportParts) (t : Tree) : BoundNames :=
  ⟨p.default?.map t.text, p.wholeName?.map t.text, (p.specifiers.filterMap localName?).map t.text⟩

/-- The names of an import that takes in what was missing, up to what is left
over. -/
def BoundNames.taking (b : BoundNames) (missing left : Wanted) : BoundNames where
  default? := b.default?.or missing.default?
  whole? := b.whole?.or (if left.whole?.isSome then none else missing.whole?)
  listed := b.listed ++ if left.named.isEmpty then missing.named else []

/-- The names of the first import of a source once names are added to it. -/
def namesAfter (t : Tree) (source : String) (w : Wanted) : Option BoundNames :=
  match firstImport? t source with
  | some p => some ((p.bound t).taking (p.missing t w) (p.leftOver t w))
  | none =>
    if w = Wanted.nothing then none
    else some ⟨w.default?, w.whole?, if w.whole?.isSome then [] else w.named⟩

/-- The names that are added to another statement than the first one. -/
def namesApart (t : Tree) (source : String) (w : Wanted) : List String :=
  match firstImport? t source with
  | some p => (p.leftOver t w).whole?.toList ++ (p.leftOver t w).named
  | none => if w.whole?.isSome then w.named else []

/-- The names provide all that is wanted. -/
def BoundNames.Provides (b : BoundNames) (w : Wanted) : Prop :=
  (∀ d ∈ w.default?, b.default?.isSome = true ∨ d ∈ b.locals)
    ∧ (∀ n ∈ w.whole?, b.whole?.isSome = true ∨ n ∈ b.locals) ∧ ∀ n ∈ w.named, n ∈ b.locals

/-- The names of an import are those that it binds. -/
theorem ImportParts.locals_bound (p : ImportParts) (t : Tree) :
    (p.bound t).locals = p.locals t := by
  unfold bound BoundNames.locals locals
  dsimp only
  rw [List.map_append, List.map_append, Option.toList_map, Option.toList_map]

/-- An import binds its default name, the name of its namespace and the names
of its entries. -/
theorem ImportParts.mem_locals_iff {s : String} :
    s ∈ p.locals t ↔ s ∈ p.default?.map t.text ∨ s ∈ p.wholeName?.map t.text
      ∨ ∃ n ∈ p.specifiers, s ∈ (localName? n).map t.text := by
  simp only [locals, List.mem_map, List.mem_append, Option.mem_toList, List.mem_filterMap,
    Option.mem_def, Option.map_eq_some_iff]
  constructor
  · rintro ⟨n, (hn | hn) | ⟨entry, hentry, hn⟩, rfl⟩
    · exact .inl ⟨n, hn, rfl⟩
    · exact .inr (.inl ⟨n, hn, rfl⟩)
    · exact .inr (.inr ⟨entry, hentry, n, hn, rfl⟩)
  · rintro (⟨n, hn, rfl⟩ | ⟨n, hn, rfl⟩ | ⟨entry, hentry, n, hn, rfl⟩)
    · exact ⟨n, .inl (.inl hn), rfl⟩
    · exact ⟨n, .inl (.inr hn), rfl⟩
    · exact ⟨n, .inr ⟨entry, hentry, hn⟩, rfl⟩

/-- An import has a namespace if that has a name. -/
theorem isSome_whole?_bound (ht : t.ClausesBind) (h : firstImport? t source = some p) :
    (p.bound t).whole?.isSome = p.whole?.isSome := by
  obtain ⟨n, hn, -, hp⟩ := of_firstImport? h
  obtain ⟨-, -, -, hwhole, -, -⟩ := ImportParts.of?_eq_some hp
  have hn : n ∈ t.nodes := Node.mem_preorder_of_child (Node.mem_of_mem_childrenOf hn)
  unfold ImportParts.bound ImportParts.wholeName?
  dsimp only
  rw [Option.isSome_map]
  cases hns : p.whole? with
  | none => rfl
  | some ns =>
      obtain ⟨hchild, hkind⟩ := of_childOf? (hwhole.symm.trans hns)
      exact ht.named ns (child_mem_nodes (ImportParts.mem_nodes hp hn).1 hchild) hkind

/-- An import provides what its names provide. -/
theorem provides_bound_iff (ht : t.ClausesBind) (h : firstImport? t source = some p) (w : Wanted) :
    (p.bound t).Provides w ↔ p.Provides t w := by
  unfold BoundNames.Provides ImportParts.Provides
  rw [p.locals_bound, isSome_whole?_bound ht h, ImportParts.bound, Option.isSome_map]

/-- An import leaves over what was missing, or nothing of it. -/
theorem ImportParts.leftOver_cases (p : ImportParts) (t : Tree) (w : Wanted) :
    ((p.leftOver t w).whole? = none ∨ (p.leftOver t w).whole? = (p.missing t w).whole?)
      ∧ ((p.leftOver t w).named = [] ∨ (p.leftOver t w).named = (p.missing t w).named) := by
  unfold leftOver joinNames
  dsimp only
  split
  · exact ⟨.inr rfl, .inl rfl⟩
  · exact ⟨.inl rfl, .inr rfl⟩
  · split
    · exact ⟨.inl rfl, .inr rfl⟩
    · exact ⟨.inl rfl, .inl rfl⟩
  · exact ⟨.inl rfl, .inl rfl⟩

/-- The names of an import stay when it takes others in. -/
theorem BoundNames.mem_locals_taking {b : BoundNames} {missing left : Wanted} {n : String}
    (h : n ∈ b.locals) : n ∈ (b.taking missing left).locals := by
  simp only [locals, taking, List.mem_append, Option.mem_toList] at h ⊢
  rcases h with (h | h) | h
  · exact .inl (.inl (by rw [h]; rfl))
  · exact .inl (.inr (by rw [h]; rfl))
  · exact .inr (.inl h)

/-- The names that an import binds with what it has taken in. -/
def ImportParts.boundAfter (p : ImportParts) (t : Tree) (w : Wanted) : BoundNames :=
  (p.bound t).taking (p.missing t w) (p.leftOver t w)

/-- They are those it bound, and others. -/
theorem ImportParts.mem_locals_boundAfter {n : String} (w : Wanted) (hn : n ∈ p.locals t) :
    n ∈ (p.boundAfter t w).locals :=
  BoundNames.mem_locals_taking (p.locals_bound t ▸ hn)

/-- If an import provides what was wanted, it binds the names that were left
over, too. -/
theorem binds_leftOver_of_provides (ht : t.ClausesBind) (h : firstImport? t source = some p)
    {w : Wanted} (hprovides : (p.boundAfter t w).Provides w) :
    ∀ n ∈ (p.leftOver t w).whole?.toList ++ (p.leftOver t w).named,
      n ∈ (p.boundAfter t w).locals := by
  obtain ⟨hleftWhole, hleftNamed⟩ := p.leftOver_cases t w
  obtain ⟨-, hprovWhole, hprovNamed⟩ := hprovides
  intro n hn
  rcases List.mem_append.mp hn with hn | hn
  · -- A namespace that is left over stands in no place of the import.
    have hn := Option.mem_toList.mp hn
    have hmissing : (p.missing t w).whole? = some n := by
      rcases hleftWhole with hnone | heq
      · rw [hnone] at hn
        cases hn
      · exact heq ▸ hn
    obtain ⟨hwanted, hnew⟩ := Option.filter_eq_some_iff.mp hmissing
    simp only [Bool.and_eq_true, Option.isNone_iff_eq_none] at hnew
    have hnone : (p.bound t).whole? = none := by
      simpa [hnew.1] using isSome_whole?_bound ht h
    refine (hprovWhole n hwanted).resolve_left ?_
    simp [ImportParts.boundAfter, BoundNames.taking, hnone, Option.mem_def.mp hn]
  · refine hprovNamed n ?_
    rcases hleftNamed with hnone | heq
    · rw [hnone] at hn
      cases hn
    · exact (List.mem_filter.mp (heq ▸ hn)).1

/-- A default name has found its place, unless there was one. -/
theorem provides_default {w : Wanted} {d : String} (hd : d ∈ w.default?) :
    (p.boundAfter t w).default?.isSome = true ∨ d ∈ (p.boundAfter t w).locals := by
  by_cases hold : d ∈ p.locals t
  · exact .inr (p.mem_locals_boundAfter w hold)
  · left
    cases hdefault : p.default? with
    | none =>
        have hmissing : (p.missing t w).default? = some d :=
          Option.filter_eq_some_iff.mpr ⟨hd, by simpa [hdefault] using hold⟩
        simp [ImportParts.boundAfter, BoundNames.taking, hmissing]
    | some node =>
        simp [ImportParts.boundAfter, BoundNames.taking, ImportParts.bound, hdefault]

/-- So has a namespace, or it is left over. -/
theorem provides_whole (ht : t.ClausesBind) (h : firstImport? t source = some p) {w : Wanted}
    {n : String} (hn : n ∈ w.whole?)
    (hleft : ∀ n ∈ (p.leftOver t w).whole?, n ∈ (p.boundAfter t w).locals) :
    (p.boundAfter t w).whole?.isSome = true ∨ n ∈ (p.boundAfter t w).locals := by
  by_cases hold : n ∈ p.locals t
  · exact .inr (p.mem_locals_boundAfter w hold)
  · cases hns : p.whole? with
    | none =>
        have hmissing : (p.missing t w).whole? = some n :=
          Option.filter_eq_some_iff.mpr ⟨hn, by simpa [hns] using hold⟩
        rcases (p.leftOver_cases t w).1 with hnone | heq
        · left
          simp [ImportParts.boundAfter, BoundNames.taking, hmissing, hnone]
        · exact .inr (hleft n (by simp [heq, hmissing]))
    | some ns =>
        left
        have hsome : (p.bound t).whole?.isSome = true := by
          rw [isSome_whole?_bound ht h, hns]
          rfl
        simp [ImportParts.boundAfter, BoundNames.taking, hsome]

/-- And so has each entry, or it is left over. -/
theorem provides_named {w : Wanted} {n : String} (hn : n ∈ w.named)
    (hleft : ∀ n ∈ (p.leftOver t w).named, n ∈ (p.boundAfter t w).locals) :
    n ∈ (p.boundAfter t w).locals := by
  by_cases hold : n ∈ p.locals t
  · exact p.mem_locals_boundAfter w hold
  · have hmissing : n ∈ (p.missing t w).named := List.mem_filter.mpr ⟨hn, by simpa using hold⟩
    rcases (p.leftOver_cases t w).2 with hnone | heq
    · simp [ImportParts.boundAfter, BoundNames.locals, BoundNames.taking, hnone, hmissing]
    · exact hleft n (heq ▸ hmissing)

/-- An import that has taken names in provides what was wanted exactly if
it binds what was left over. -/
theorem provides_taking_iff (ht : t.ClausesBind) (h : firstImport? t source = some p) (w : Wanted) :
    (p.boundAfter t w).Provides w
      ↔ ∀ n ∈ (p.leftOver t w).whole?.toList ++ (p.leftOver t w).named,
          n ∈ (p.boundAfter t w).locals := by
  refine ⟨binds_leftOver_of_provides ht h, fun hleft => ⟨fun d hd => provides_default hd,
    fun n hn => provides_whole ht h hn fun m hm => hleft m ?_,
    fun n hn => provides_named hn fun m hm => hleft m (List.mem_append_right _ hm)⟩⟩
  exact List.mem_append_left _ (Option.mem_toList.mpr hm)

/-- Adding the same names to the edited module, read anew, adds nothing
exactly if the first import of the source binds all of them, those in
another statement included. -/
theorem addImport_again_iff (ht : t.ClausesBind) (ht' : t'.ClausesBind) (w : Wanted)
    (hread : (firstImport? t' source).map (·.bound t') = namesAfter t source w.used) :
    addImport t' source w.default? w.named w.whole? = []
      ↔ ∃ b, namesAfter t source w.used = some b
          ∧ ∀ n ∈ namesApart t source w.used, n ∈ b.locals := by
  rw [addImport_eq_nil_iff ht']
  have hprovides : (∃ p, firstImport? t' source = some p ∧ p.Provides t' w.used)
      ↔ ∃ b, namesAfter t source w.used = some b ∧ b.Provides w.used := by
    rw [← hread]
    constructor
    · rintro ⟨p, hp, hprov⟩
      exact ⟨p.bound t', by rw [hp]; rfl, (provides_bound_iff ht' hp _).mpr hprov⟩
    · rintro ⟨b, hb, hprov⟩
      obtain ⟨p, hp, rfl⟩ := Option.map_eq_some_iff.mp hb
      exact ⟨p, hp, (provides_bound_iff ht' hp _).mp hprov⟩
  rw [hprovides, namesAfter, namesApart]
  cases hfirst : firstImport? t source with
  | some p =>
      simp only [Option.some.injEq, exists_eq_left']
      exact provides_taking_iff ht hfirst w.used
  | none =>
      dsimp only
      split
      · simp
      · simp only [Option.some.injEq, exists_eq_left']
        cases hwhole : w.used.whole? <;>
          simp +contextual [BoundNames.Provides, BoundNames.locals, hwhole]

/-! ### Exports -/

/-- The export list that names of a source go to: the first one. -/
def firstExport? (t : Tree) (source : String) : Option Node :=
  ((reexportsOf t).filter (hasSource t source)).findSome? (Node.childOf? · .exportClause)

/-- What an export list gives to the outside. -/
structure ExportedNames where
  /-- The default of the other module is among it. -/
  hasDefault : Bool
  /-- The names outside. -/
  names : List String
deriving DecidableEq

/-- What the entries of a list give to the outside. -/
def exportedNames (t : Tree) (clause : Node) : ExportedNames where
  hasDefault := (clause.childrenOf .exportSpecifier).any fun s =>
    (s.child? .name).any (t.text · = "default")
  names := (clause.childrenOf .exportSpecifier).map (exportedName t)

/-- The list provides the default and the names that are wanted. -/
def ExportedNames.Provides (x : ExportedNames) (default? : Option String) (named : List String) :
    Prop :=
  (∀ d ∈ default?, x.hasDefault = true ∨ d ∈ x.names) ∧ ∀ n ∈ named, n ∈ x.names

/-- The default that a list does not have yet. -/
def ExportedNames.missingDefault? (x : ExportedNames) (default? : Option String) : Option String :=
  default?.filter fun d => !x.hasDefault && !(x.names.contains d)

/-- The names that a list does not have yet. -/
def ExportedNames.missing (x : ExportedNames) (named : List String) : List String :=
  named.filter fun n => !(x.names.contains n)

/-- What the first list of a source gives to the outside once names are
added to it. -/
def exportsAfter (t : Tree) (source : String) (default? : Option String) (named : List String) :
    Option ExportedNames :=
  match (firstExport? t source).map (exportedNames t) with
  | some x => some ⟨x.hasDefault || (x.missingDefault? default?).isSome
        || (x.missing named).contains "default",
      (x.missingDefault? default?).toList ++ x.names ++ x.missing named⟩
  | none =>
    if (exportEntries default? named).isEmpty then none
    else some ⟨default?.isSome || named.contains "default", default?.toList ++ named⟩

/-- The statement of its own that exports names of a source. -/
def ownExport (t : Tree) (source : String) (default? : Option String) (named : List String) :
    List String :=
  if (firstExport? t source).isSome || (exportEntries default? named).isEmpty then []
  else
    ["export " ++ braced (exportEntries default? named) ++ " from " ++ quoteStyle t ++ source
      ++ quoteStyle t ++ semicolonStyle t (reexportsOf t ++ importsOf t)]

/-- Names go to the first list of the source, or into a statement behind the
last one of its kind. -/
theorem addExport_eq (t : Tree) (source : String) (default? : Option String) (named : List String) :
    addExport t source default? named
      = ((firstExport? t source).map
            (extendExport t · (usedName? default?) (usedNames named))).getD []
        ++ insertStatements t ((reexportsOf t).getLast?.or (exportsOf t).getLast?)
            (ownExport t source (usedName? default?) (usedNames named)) := by
  unfold addExport ownExport
  dsimp only
  rw [← firstExport?]
  cases firstExport? t source with
  | some clause => simp [insertStatements]
  | none =>
      dsimp only
      rw [newExport, Option.isSome_none, Bool.false_or]
      split <;> simp [insertStatements]

/-- A list takes in what it does not have yet. -/
theorem extendExport_eq (t : Tree) (clause : Node) (default? : Option String)
    (named : List String) :
    extendExport t clause default? named =
      let specifiers := clause.childrenOf .exportSpecifier
      let newDefault := (exportedNames t clause).missingDefault? default?
      let newNamed := (exportedNames t clause).missing named
      if specifiers.isEmpty then
        if (exportEntries newDefault newNamed).isEmpty then []
        else [.replaceNode clause (braced (exportEntries newDefault newNamed))]
      else
        let layout := ListLayout.of t clause specifiers
        (newDefault.bind fun d => layout.prepend? specifiers ("default as " ++ d)).toList
          ++ (layout.append? specifiers newNamed).toList := rfl

/-- Nothing is missing in a list that provides what is wanted. -/
theorem ExportedNames.provides_iff (x : ExportedNames) (default? : Option String)
    (named : List String) :
    x.Provides default? named ↔ x.missingDefault? default? = none ∧ x.missing named = [] := by
  unfold Provides missingDefault? missing
  rw [filter_eq_none_iff, List.filter_eq_nil_iff]
  simp [or_iff_not_imp_left]

/-- There are entries if there is a default or a name. -/
theorem isEmpty_exportEntries_iff {default? : Option String} {named : List String} :
    (exportEntries default? named).isEmpty = true ↔ default? = none ∧ named = [] := by
  cases default? <;> simp [exportEntries]

/-- A list takes nothing in exactly if it provides what is wanted. -/
theorem extendExport_eq_nil_iff (t : Tree) (clause : Node) (default? : Option String)
    (named : List String) :
    extendExport t clause default? named = []
      ↔ (exportedNames t clause).Provides default? named := by
  rw [ExportedNames.provides_iff, extendExport_eq]
  dsimp only
  split
  · rw [← isEmpty_exportEntries_iff]
    split <;> simp_all
  · rename_i hsome
    have hne : clause.childrenOf .exportSpecifier ≠ [] := fun h => hsome (List.isEmpty_iff.mpr h)
    obtain ⟨first, rest, hfirst⟩ := List.exists_cons_of_ne_nil hne
    rw [List.append_eq_nil_iff, Option.toList_eq_nil_iff, Option.toList_eq_nil_iff,
      append?_eq_none_iff hne]
    cases (exportedNames t clause).missingDefault? default? <;>
      simp [ListLayout.prepend?, hfirst]

/-- Nothing is exported anew exactly if the first list of the source
provides all that is wanted, or nothing is wanted. -/
theorem addExport_eq_nil_iff (t : Tree) (source : String) (default? : Option String)
    (named : List String) :
    addExport t source default? named = [] ↔
      (∃ clause, firstExport? t source = some clause
          ∧ (exportedNames t clause).Provides (usedName? default?) (usedNames named))
        ∨ (firstExport? t source = none ∧ usedName? default? = none ∧ usedNames named = []) := by
  rw [addExport_eq, List.append_eq_nil_iff, insertStatements_eq_nil_iff, ownExport]
  cases hfirst : firstExport? t source with
  | some clause => simp [extendExport_eq_nil_iff]
  | none => simp [← isEmpty_exportEntries_iff]

/-- What is exported once is not exported anew by a second call on the
edited module. -/
theorem addExport_again (t t' : Tree) (source : String) (default? : Option String)
    (named : List String)
    (hread : (firstExport? t' source).map (exportedNames t')
      = exportsAfter t source (usedName? default?) (usedNames named)) :
    addExport t' source default? named = [] := by
  rw [addExport_eq_nil_iff]
  unfold exportsAfter at hread
  cases hfirst : (firstExport? t source).map (exportedNames t) with
  | some x =>
      rw [hfirst] at hread
      obtain ⟨clause, hclause, hnames⟩ := Option.map_eq_some_iff.mp hread
      refine .inl ⟨clause, hclause, ?_⟩
      rw [hnames]
      refine ⟨fun d hd => ?_, fun n hn => ?_⟩
      · -- A default that is not put in was provided before.
        by_cases hnew : x.hasDefault = true ∨ d ∈ x.names
        · rcases hnew with hold | hold
          · exact .inl (by simp [hold])
          · exact .inr (by simp [hold])
        · have hmissing : x.missingDefault? (usedName? default?) = some d :=
            Option.filter_eq_some_iff.mpr ⟨hd, by simpa using hnew⟩
          exact .inr (by simp [hmissing])
      · by_cases hold : n ∈ x.names
        · simp [hold]
        · simp [ExportedNames.missing, hn, hold]
  | none =>
      rw [hfirst] at hread
      dsimp only at hread
      split at hread
      · rename_i hempty
        exact .inr ⟨by simpa using hread, isEmpty_exportEntries_iff.mp hempty⟩
      · obtain ⟨clause, hclause, hnames⟩ := Option.map_eq_some_iff.mp hread
        refine .inl ⟨clause, hclause, ?_⟩
        rw [hnames]
        exact ⟨fun d hd => .inr (by simp [Option.mem_def.mp hd]), fun n hn => by simp [hn]⟩

/-! ### Both kinds of links -/

/-- When adding names changes nothing. An import of the source that binds
all of them does it only if it is the first one; so a second call adds
nothing only if what went into a statement of its own is bound by the first
one, too. Names in export lists are added once. -/
theorem adds_nothing_iff_provided (t : Tree) (ht : t.ClausesBind) (source : String) :
    (∀ w : Wanted, addImport t source w.default? w.named w.whole? = []
        ↔ ∃ p, firstImport? t source = some p ∧ p.Provides t w.used)
      ∧ (∀ (w : Wanted) (t' : Tree), t'.ClausesBind →
          (firstImport? t' source).map (·.bound t') = namesAfter t source w.used →
          (addImport t' source w.default? w.named w.whole? = []
            ↔ ∃ b, namesAfter t source w.used = some b
                ∧ ∀ n ∈ namesApart t source w.used, n ∈ b.locals))
      ∧ (∀ (default? : Option String) (named : List String),
          addExport t source default? named = [] ↔
            (∃ clause, firstExport? t source = some clause
                ∧ (exportedNames t clause).Provides (usedName? default?) (usedNames named))
              ∨ (firstExport? t source = none ∧ usedName? default? = none
                ∧ usedNames named = []))
      ∧ ∀ (default? : Option String) (named : List String) (t' : Tree),
          (firstExport? t' source).map (exportedNames t')
            = exportsAfter t source (usedName? default?) (usedNames named) →
          addExport t' source default? named = [] :=
  ⟨fun w => addImport_eq_nil_iff ht w, fun w _ ht' hread => addImport_again_iff ht ht' w hread,
    addExport_eq_nil_iff t source,
    fun default? named t' => addExport_again t t' source default? named⟩

/-- The source of a link, in quotes. -/
def quotedSource (start : Nat) (source : String) : Node :=
  (Node.branch .string [.token start "'", .leaf (.construct .stringFragment) (start + 1) source,
    .token (start + 1 + source.utf8ByteSize) "'"]).inRole .source

/-- An entry of an import list. -/
def namedEntry (start : Nat) (name : String) : Node :=
  .branch .importSpecifier [(.leaf (.construct .identifier) start name : Node).inRole .name]

/-- An import of a default name. -/
def defaultImport : Tree where
  source := "import d from './x';\n"
  root := (Node.branchTo .program
    [.branch .importStatement
      [.token 0 "import", .branch .importClause [.leaf (.construct .identifier) 7 "d"],
        .token 9 "from", quotedSource 14 "./x", .token 19 ";"]] 21).numbered
  dialect := .plain
  path? := none

/-- The same with a namespace, and a second import of the source. -/
def splitImports : Tree where
  source := "import d, * as n from './x';\nimport \x7b a \x7d from './x';\n"
  root := (Node.branchTo .program
    [.branch .importStatement
        [.token 0 "import",
          .branch .importClause
            [.leaf (.construct .identifier) 7 "d", .token 8 ",",
              .branch .namespaceImport
                [.token 10 "*", .token 12 "as", .leaf (.construct .identifier) 15 "n"]],
          .token 17 "from", quotedSource 22 "./x", .token 27 ";"],
      .branch .importStatement
        [.token 29 "import",
          .branch .importClause
            [.branch .namedImports [.token 36 "\x7b", namedEntry 38 "a", .token 40 "\x7d"]],
          .token 42 "from", quotedSource 47 "./x", .token 52 ";"]] 54).numbered
  dialect := .plain
  path? := none

/-- A namespace and a list are added to a default name, and the list once
more by a second call. -/
theorem adds_nothing_iff_provided_twice :
    defaultImport.ClausesBind ∧ splitImports.ClausesBind
      ∧ applyEditsChecked defaultImport.source
          (addImport defaultImport "./x" none ["a"] (some "n")) = .ok splitImports.source
      ∧ (firstImport? splitImports "./x").map (·.bound splitImports)
          = namesAfter defaultImport "./x" ⟨none, some "n", ["a"]⟩
      ∧ addImport splitImports "./x" none ["a"] (some "n") ≠ [] := by
  have hfirst : defaultImport.ClausesBind := by decide +kernel
  have hsecond : splitImports.ClausesBind := by decide +kernel
  have hused : (Wanted.mk none (some "n") ["a"]).used = ⟨none, some "n", ["a"]⟩ := by
    decide +kernel
  have hread : (firstImport? splitImports "./x").map (·.bound splitImports)
      = namesAfter defaultImport "./x" ⟨none, some "n", ["a"]⟩ := by decide +kernel
  have hadded : addImport defaultImport "./x" none ["a"] (some "n")
      = [.insert 8 ", * as n", .insert 21 "import \x7b a \x7d from './x';\n"] := by decide +kernel
  have hagain := (adds_nothing_iff_provided defaultImport hfirst "./x").2.1
    ⟨none, some "n", ["a"]⟩ splitImports hsecond (hused.symm ▸ hread)
  rw [hused] at hagain
  refine ⟨hfirst, hsecond, ?_, hread, fun hnil => ?_⟩
  · rw [hadded]
    exact Edit.applyEditsChecked_of_isAscending (by decide +kernel) (by decide +kernel)
  · -- The list has a statement of its own, and the first import does not bind its name.
    obtain ⟨b, hb, hall⟩ := hagain.mp hnil
    have hnames : namesAfter defaultImport "./x" ⟨none, some "n", ["a"]⟩
        = some ⟨some "d", some "n", []⟩ := by decide +kernel
    have hapart : namesApart defaultImport "./x" ⟨none, some "n", ["a"]⟩ = ["a"] := by
      decide +kernel
    obtain rfl := Option.some.inj (hb.symm.trans hnames)
    exact absurd (hall "a" (by simp [hapart])) (by decide)

/-- Two exports from one source. -/
def splitExports : Tree where
  source := "export \x7b a \x7d from './x';\nexport \x7b b \x7d from './x';\n"
  root := (Node.branchTo .program
    [.branch .exportStatement
        [.token 0 "export",
          .branch .exportClause
            [.token 7 "\x7b", .branch .exportSpecifier
              [(.leaf (.construct .identifier) 9 "a" : Node).inRole .name], .token 11 "\x7d"],
          .token 13 "from", quotedSource 18 "./x", .token 23 ";"],
      .branch .exportStatement
        [.token 25 "export",
          .branch .exportClause
            [.token 32 "\x7b", .branch .exportSpecifier
              [(.leaf (.construct .identifier) 34 "b" : Node).inRole .name], .token 36 "\x7d"],
          .token 38 "from", quotedSource 43 "./x", .token 48 ";"]] 50).numbered
  dialect := .plain
  path? := none

/-- Names that a later statement of the source binds or exports are added to
the module again. -/
theorem addImport_adds_bound_names :
    (∀ n ∈ ["n", "a"], ∃ s ∈ importsOf splitImports, hasSource splitImports "./x" s = true
        ∧ ∃ p ∈ ImportParts.of? s, n ∈ p.locals splitImports)
      ∧ addImport splitImports "./x" none ["a"] (some "n")
        = [.insert 54 "import \x7b a \x7d from './x';\n"]
      ∧ (∃ s ∈ reexportsOf splitExports, hasSource splitExports "./x" s = true
        ∧ ∃ clause ∈ s.childOf? .exportClause, "b" ∈ (exportedNames splitExports clause).names)
      ∧ addExport splitExports "./x" none ["b"] = [.insert 10 ", b"] := by
  decide +kernel

end Refactoring

end ScriptRefactor
