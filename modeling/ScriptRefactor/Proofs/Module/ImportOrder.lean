import Mathlib.Data.List.Perm.Basic
import ScriptRefactor.Proofs.Module.Readings
import ScriptRefactor.Proofs.Module.Reducers

/-!
# `ScriptRefactor.Proofs.Module.ImportOrder`: imports in another order

Whether there is an import of a source does not depend on the order of the
imports, nor does whether there is a class that can render. So with its
imports in another order a module is a component, an action or something else
as before. But of several imports of the constants the last one decides whether
an action has several steps: another order may change that
(`ofTree_import_order`).
-/

set_option autoImplicit false

namespace ScriptRefactor

open Syntax

namespace Syntax.Reading

variable {r s : Reading}

/-! ### Statements of a module -/

/-- The imports in a module are those in its statements. -/
theorem importsOf_eq_flatMap (h : r.is .program = true) (source : String) :
    r.importsOf source = r.children.flatMap fun c => c.importsOf source := by
  have hroot : ¬ r.is .importStatement = true := by
    rw [is, decide_eq_true_eq] at h ⊢
    rw [h]
    decide
  rw [importsOf, preorder_eq, List.filter_cons_of_neg (p := (is · .importStatement)) hroot,
    List.filter_flatMap, List.filter_flatMap]
  rfl

/-- The classes in a module are those in its statements. -/
theorem any_isComponentClass_eq (h : r.is .program = true) :
    r.preorder.any isComponentClass = r.children.any fun c => c.preorder.any isComponentClass := by
  have hroot : r.isComponentClass = false := by
    rw [is, decide_eq_true_eq] at h
    rw [isComponentClass, h]
    rfl
  rw [preorder_eq, List.any_cons, hroot, Bool.false_or, List.any_flatMap]

/-- The same statements in another order have the same imports in another
order. -/
theorem importsOf_perm (hr : r.is .program = true) (hs : s.is .program = true)
    (h : r.children.Perm s.children) (source : String) :
    (r.importsOf source).Perm (s.importsOf source) := by
  rw [importsOf_eq_flatMap hr, importsOf_eq_flatMap hs]
  exact h.flatMap_right _

/-- A statement that imports from a source, and holds no other import and no
class. -/
structure IsImport (r : Reading) (source : String) : Prop where
  /-- It is an import. -/
  kind : r.is .importStatement = true
  /-- It names the source. -/
  source : r.source? = some source
  /-- Nothing of interest is below. -/
  alone : ∀ c ∈ r.children, ∀ m ∈ c.preorder,
    m.is .importStatement = false ∧ m.isComponentClass = false

instance (r : Reading) (source : String) : Decidable (r.IsImport source) :=
  decidable_of_iff (r.is .importStatement = true ∧ r.source? = some source
      ∧ ∀ c ∈ r.children, ∀ m ∈ c.preorder,
        m.is .importStatement = false ∧ m.isComponentClass = false)
    ⟨fun ⟨h1, h2, h3⟩ => ⟨h1, h2, h3⟩, fun h => ⟨h.kind, h.source, h.alone⟩⟩

/-- Such a statement holds one import, which is of its source. -/
theorem IsImport.importsOf_eq {source : String} (h : r.IsImport source) (other : String) :
    r.importsOf other = if other = source then [r] else [] := by
  have hbelow : (r.children.flatMap preorder).filter (is · .importStatement) = [] := by
    rw [List.filter_eq_nil_iff]
    intro m hm
    obtain ⟨c, hc, hm⟩ := List.mem_flatMap.mp hm
    rw [(h.alone c hc m hm).1]
    exact Bool.false_ne_true
  rw [importsOf, preorder_eq, List.filter_cons_of_pos (p := (is · .importStatement)) h.kind, hbelow,
    List.filter_singleton, h.source]
  simp [eq_comm]

/-- Such a statement holds no class. -/
theorem IsImport.no_class {source : String} (h : r.IsImport source) :
    r.preorder.any isComponentClass = false := by
  have hself : r.isComponentClass = false := by
    have hkind := h.kind
    rw [is, decide_eq_true_eq] at hkind
    rw [isComponentClass, hkind]
    rfl
  rw [List.any_eq_false, preorder_eq, List.forall_mem_cons, hself]
  refine ⟨Bool.false_ne_true, fun m hm => ?_⟩
  obtain ⟨c, hc, hm⟩ := List.mem_flatMap.mp hm
  rw [(h.alone c hc m hm).2]
  exact Bool.false_ne_true

/-! ### Roles -/

/-- Where the sources and the classes of two modules are alike, they are for
the same, unless the last import of the constants makes a difference for an
action. -/
theorem role_eq_iff (hreact : (s.importsOf "react").isEmpty = (r.importsOf "react").isEmpty)
    (hconstants : (s.importsOf "./constants").isEmpty = (r.importsOf "./constants").isEmpty)
    (hclass : s.preorder.any isComponentClass = r.preorder.any isComponentClass)
    (connects reduces : Bool) :
    s.role connects reduces = r.role connects reduces ↔
      (∀ isAsync, r.role connects reduces ≠ .action isAsync) ∨
        ((s.counts "./constants").getLast?.any fun n => ModuleRole.fewConstants < n)
          = (r.counts "./constants").getLast?.any fun n => ModuleRole.fewConstants < n := by
  rw [role, role, hreact, hconstants, hclass]
  split
  · simp
  · split
    · simp
    · simp

/-- What makes a module an action. -/
theorem role_eq_action_iff {connects reduces isAsync : Bool} :
    r.role connects reduces = .action isAsync ↔
      (r.importsOf "react" = [] ∨ r.preorder.any isComponentClass = false) ∧ reduces = true ∧
        r.importsOf "./constants" ≠ [] ∧
        ((r.counts "./constants").getLast?.any fun n => ModuleRole.fewConstants < n) = isAsync := by
  rw [role]
  split
  · rename_i hcomponent
    simp only [Bool.and_eq_true, Bool.not_eq_true', List.isEmpty_eq_false_iff] at hcomponent
    simp [hcomponent]
  · rename_i hother
    rw [Bool.and_eq_true, not_and_or, Bool.not_eq_true', Bool.not_eq_false, Bool.not_eq_true,
      List.isEmpty_iff] at hother
    split
    · rename_i haction
      simp only [Bool.and_eq_true, Bool.not_eq_true', List.isEmpty_eq_false_iff] at haction
      simp only [ModuleRole.action.injEq, hother, haction, ne_eq, not_false_eq_true, true_and]
    · rename_i hmisc
      simp only [Bool.and_eq_true, Bool.not_eq_true', List.isEmpty_eq_false_iff] at hmisc
      simp only [reduceCtorEq, false_iff, not_and]
      exact fun _ hreduces hsome _ => hmisc ⟨hreduces, hsome⟩

/-- Where all numbers are on one side, the last one is, in any order. -/
theorem getLast?_any_of_perm {l l' : List Nat} (h : l.Perm l') {p : Nat → Bool}
    (hsame : ∀ a ∈ l, ∀ b ∈ l, p a = p b) : l'.getLast?.any p = l.getLast?.any p := by
  cases hlast' : l'.getLast? with
  | none =>
      have hnil : l' = [] := List.getLast?_eq_none_iff.mp hlast'
      rw [hnil, List.perm_nil] at h
      rw [h]
      rfl
  | some b =>
      -- Another number may be the last one now, but it was there before.
      have hb : b ∈ l := h.mem_iff.mpr (List.mem_of_getLast? hlast')
      cases hlast : l.getLast? with
      | none =>
          rw [List.getLast?_eq_none_iff.mp hlast] at hb
          cases hb
      | some a => exact hsame b hb a (List.mem_of_getLast? hlast)

/-- The last number counts, when one more is put between them. -/
theorem getLast?_append_cons_any (front back : List Nat) (n : Nat) (p : Nat → Bool) :
    (front ++ n :: back).getLast?.any p =
      if back = [] then p n else (front ++ back).getLast?.any p := by
  cases back with
  | nil => simp
  | cons m back =>
      rw [if_neg (List.cons_ne_nil m back), List.getLast?_append, List.getLast?_append,
        List.getLast?_cons_cons]

/-- With one more import of the constants, an action stays one; the new import
decides whether it has several steps if no other one comes behind. -/
theorem role_of_added {front back : List Reading} {new : Reading} {connects reduces isAsync : Bool}
    (hr : r.is .program = true) (hs : s.is .program = true) (hbefore : r.children = front ++ back)
    (hafter : s.children = front ++ new :: back) (hnew : new.IsImport "./constants")
    (haction : r.role connects reduces = .action isAsync) :
    s.role connects reduces = .action (if back.all fun c => (c.importsOf "./constants").isEmpty
      then ModuleRole.fewConstants < new.listed else isAsync) := by
  obtain ⟨hcomponent, hreduces, -, rfl⟩ := role_eq_action_iff.mp haction
  have hconstants := hnew.importsOf_eq "./constants"
  rw [if_pos rfl] at hconstants
  have hcounts : r.counts "./constants" = (front.flatMap (importsOf · "./constants")).map listed ++
      (back.flatMap (importsOf · "./constants")).map listed := by
    rw [counts, importsOf_eq_flatMap hr, hbefore]
    simp
  have hcounts' : s.counts "./constants" = (front.flatMap (importsOf · "./constants")).map listed ++
      new.listed :: (back.flatMap (importsOf · "./constants")).map listed := by
    rw [counts, importsOf_eq_flatMap hs, hafter]
    simp [hconstants]
  have hback : (back.flatMap (importsOf · "./constants")).map listed = [] ↔
      (back.all fun c => (c.importsOf "./constants").isEmpty) = true := by
    simp
  refine role_eq_action_iff.mpr ⟨?_, hreduces, ?_, ?_⟩
  · -- A component needs an import of the library and a class: the new import is neither.
    have hreact := hnew.importsOf_eq "react"
    rw [if_neg (by decide)] at hreact
    rw [importsOf_eq_flatMap hr, any_isComponentClass_eq hr, hbefore] at hcomponent
    rw [importsOf_eq_flatMap hs, any_isComponentClass_eq hs, hafter]
    simpa [hreact, hnew.no_class] using hcomponent
  · intro hnone
    have hnil : s.counts "./constants" = [] := by rw [counts, hnone, List.map_nil]
    rw [hcounts'] at hnil
    simp at hnil
  · -- The new number is the last one exactly if no other import comes behind.
    rw [hcounts', getLast?_append_cons_any, ← hcounts]
    simp only [hback]

end Syntax.Reading

namespace ModuleRole

open Syntax.Reading

/-! ### Changed modules -/

/-- The one module is the other one with its imports in another order, perhaps
between other statements. The other statements are the same, in the same
order. -/
structure Rearranges (t t' : Tree) : Prop where
  /-- Both are modules. -/
  programs : t.root.is .program = true ∧ t'.root.is .program = true
  /-- They have the same imports. -/
  imports : ((readingOf t).children.filter (is · .importStatement)).Perm
    ((readingOf t').children.filter (is · .importStatement))
  /-- The other statements are the same. -/
  others : (readingOf t).children.filter (!is · .importStatement)
    = (readingOf t').children.filter (!is · .importStatement)

/-- The one module is the other one with one more import of the constants,
which stands between the statements `front` and `back`. -/
structure AddsImport (t t' : Tree) (front : List Reading) (new : Reading) (back : List Reading) :
    Prop where
  /-- Both are modules. -/
  programs : t.root.is .program = true ∧ t'.root.is .program = true
  /-- The statements that were there. -/
  before : (readingOf t).children = front ++ back
  /-- The statements that are there now. -/
  after : (readingOf t').children = front ++ new :: back
  /-- The new statement is an import of the constants. -/
  constants : new.IsImport "./constants"

instance (t t' : Tree) : Decidable (Rearranges t t') :=
  decidable_of_iff ((t.root.is .program = true ∧ t'.root.is .program = true)
      ∧ ((readingOf t).children.filter (is · .importStatement)).Perm
        ((readingOf t').children.filter (is · .importStatement))
      ∧ (readingOf t).children.filter (!is · .importStatement)
        = (readingOf t').children.filter (!is · .importStatement))
    ⟨fun ⟨h1, h2, h3⟩ => ⟨h1, h2, h3⟩, fun h => ⟨h.programs, h.imports, h.others⟩⟩

instance (t t' : Tree) (front : List Reading) (new : Reading) (back : List Reading) :
    Decidable (AddsImport t t' front new back) :=
  decidable_of_iff ((t.root.is .program = true ∧ t'.root.is .program = true)
      ∧ (readingOf t).children = front ++ back ∧ (readingOf t').children = front ++ new :: back
      ∧ new.IsImport "./constants")
    ⟨fun ⟨h1, h2, h3, h4⟩ => ⟨h1, h2, h3, h4⟩,
      fun h => ⟨h.programs, h.before, h.after, h.constants⟩⟩

/-- Both patterns that are looked for occur in both modules or in none. -/
def SamePatterns (t t' : Tree) : Prop :=
  occursIn t' "connect($$$ARGS)" = occursIn t "connect($$$ARGS)" ∧
    occursIn t' "export function reducer($$$ARGS) \x7b $$$BODY \x7d"
      = occursIn t "export function reducer($$$ARGS) \x7b $$$BODY \x7d"

variable {t t' : Tree}

/-- The same statements, some in another order. -/
theorem Rearranges.children_perm (h : Rearranges t t') :
    (readingOf t).children.Perm (readingOf t').children := by
  have hsplit := List.filter_append_perm (is · .importStatement) (readingOf t).children
  refine hsplit.symm.trans (List.Perm.trans ?_ (List.filter_append_perm (is · .importStatement)
    (readingOf t').children))
  rw [h.others]
  exact h.imports.append_right _

/-- A module read as one. -/
theorem is_program_readingOf (h : t.root.is .program = true) :
    (readingOf t).is .program = true := by
  rwa [readingOf, Node.is_reading]

/-- **An action may get other steps with its imports in another order, or with
one more of them.** Take a module with its imports in another order. The imports
of the constants list as many names as before, in another order. The module is
for the same exactly if it was no action or the last of these imports lists more
than three names as before; so it is if all of them do or none does.

Take an action with one more import of the constants. If another one comes
behind the new one, the action has as many steps as before; else it has several
exactly if the new import lists more than three names. -/
theorem ofTree_import_order (t t' : Tree) (ht : t.PlacesImports) (ht' : t'.PlacesImports)
    (hpatterns : SamePatterns t t') :
    (Rearranges t t' →
      ((importsOf t "./constants").map (listedNames t)).Perm
        ((importsOf t' "./constants").map (listedNames t')) ∧
      (ofTree t' = ofTree t ↔ (∀ isAsync, ofTree t ≠ .action isAsync) ∨
        importsManyConstants t' = importsManyConstants t) ∧
      ((∀ a ∈ importsOf t "./constants", ∀ b ∈ importsOf t "./constants",
        (fewConstants < listedNames t a ↔ fewConstants < listedNames t b)) →
          ofTree t' = ofTree t)) ∧
    ∀ front new back, AddsImport t t' front new back → ∀ isAsync, ofTree t = .action isAsync →
      ofTree t' = .action (if back.all fun c => (c.importsOf "./constants").isEmpty
        then fewConstants < new.listed else isAsync) := by
  rw [ofTree_eq_role ht, ofTree_eq_role ht', hpatterns.1, hpatterns.2, importsManyConstants_eq ht,
    importsManyConstants_eq ht', map_listedNames ht, map_listedNames ht']
  refine ⟨fun h => ?_, fun front new back h isAsync haction => ?_⟩
  · have hprogram := is_program_readingOf h.programs.1
    have hprogram' := is_program_readingOf h.programs.2
    have himports := importsOf_perm hprogram hprogram' h.children_perm
    have hclass : (readingOf t').preorder.any Reading.isComponentClass
        = (readingOf t).preorder.any Reading.isComponentClass := by
      rw [any_isComponentClass_eq hprogram, any_isComponentClass_eq hprogram']
      exact h.children_perm.symm.any_eq
    -- Whether there is an import or a class does not depend on the order.
    have hrole := role_eq_iff (himports "react").isEmpty_eq.symm
      (himports "./constants").isEmpty_eq.symm hclass
    refine ⟨(himports "./constants").map listed, hrole _ _, fun hsame => (hrole _ _).mpr ?_⟩
    have hcounts := (himports "./constants").map listed
    refine .inr (getLast?_any_of_perm hcounts ?_)
    rw [show ((readingOf t).importsOf "./constants").map listed = _ from
      (map_listedNames ht "./constants").symm]
    simpa using hsame
  · exact role_of_added (is_program_readingOf h.programs.1) (is_program_readingOf h.programs.2)
      h.before h.after h.constants haction

/-! ### Plain actions -/

/-- A module that imports constants and exports a reducer where it is declared,
and neither imports the component library nor calls anything. -/
structure IsPlainAction (t : Tree) : Prop where
  /-- The component library is not imported. -/
  react : (importsOf t "react").isEmpty = true
  /-- Constants are imported. -/
  constants : (importsOf t "./constants").isEmpty = false
  /-- Nothing is called. -/
  calls : ∀ n ∈ t.nodes, n.is .callExpression = false
  /-- A reducer is exported. -/
  reducer : ∃ n ∈ t.nodes, exportsReducer t n = true

instance (t : Tree) : Decidable (IsPlainAction t) :=
  decidable_of_iff ((importsOf t "react").isEmpty = true
      ∧ (importsOf t "./constants").isEmpty = false ∧ (∀ n ∈ t.nodes, n.is .callExpression = false)
      ∧ ∃ n ∈ t.nodes, exportsReducer t n = true)
    ⟨fun ⟨h1, h2, h3, h4⟩ => ⟨h1, h2, h3, h4⟩,
      fun h => ⟨h.react, h.constants, h.calls, h.reducer⟩⟩

/-- A plain action connects nothing, and its reducer is found. -/
theorem IsPlainAction.patterns (h : IsPlainAction t) :
    occursIn t "connect($$$ARGS)" = false ∧
      occursIn t "export function reducer($$$ARGS) \x7b $$$BODY \x7d" = true := by
  obtain ⟨n, hn, hreducer⟩ := h.reducer
  exact ⟨occursIn_connect_of_no_call h.calls, occursIn_reducer hn hreducer⟩

/-- The patterns do not tell plain actions apart. -/
theorem IsPlainAction.samePatterns (h : IsPlainAction t) (h' : IsPlainAction t') :
    SamePatterns t t' :=
  ⟨h'.patterns.1.trans h.patterns.1.symm, h'.patterns.2.trans h.patterns.2.symm⟩

/-- A plain action is an action. -/
theorem IsPlainAction.ofTree_eq (h : IsPlainAction t) :
    ofTree t = .action (importsManyConstants t) := by
  rw [ofTree, h.react, h.constants, h.patterns.2]
  rfl

/-- An action that imports four constants. -/
def fourConstants : String :=
  "import\x7bA,B,C,D\x7dfrom'./constants'
export function reducer()\x7b\x7d"

/-- A fifth constant is imported in front. -/
def fifthInFront : String :=
  "import\x7bE\x7dfrom'./constants'
import\x7bA,B,C,D\x7dfrom'./constants'
export function reducer()\x7b\x7d"

/-- A fifth constant is imported behind. -/
def fifthBehind : String :=
  "import\x7bA,B,C,D\x7dfrom'./constants'
import\x7bE\x7dfrom'./constants'
export function reducer()\x7b\x7d"

/-- The three modules: the second and the third are the first with one more
import, and one another with the imports in another order. -/
theorem fifth_constant :
    ∃ t₀ ∈ (Tree.parse .plain none fourConstants).toOption,
      ∃ t ∈ (Tree.parse .plain none fifthInFront).toOption,
        ∃ t' ∈ (Tree.parse .plain none fifthBehind).toOption,
          (∀ s ∈ [t₀, t, t'], s.PlacesImports ∧ IsPlainAction s) ∧ Rearranges t t' ∧
          (∃ new ∈ (readingOf t').children, new.listed = 1 ∧
            AddsImport t₀ t' ((readingOf t₀).children.take 1) new
              ((readingOf t₀).children.drop 1)) ∧
          (((readingOf t₀).children.drop 1).all
            fun c => (c.importsOf "./constants").isEmpty) = true ∧
          importsManyConstants t₀ = true ∧ importsManyConstants t = true ∧
          importsManyConstants t' = false := by
  decide +kernel

/-- A fifth constant that is imported behind the other ones takes the several
steps from the action; imported in front of them it does not. -/
theorem ofTree_import_order_fifth :
    ∃ t₀ ∈ (Tree.parse .plain none fourConstants).toOption,
      ∃ t ∈ (Tree.parse .plain none fifthInFront).toOption,
        ∃ t' ∈ (Tree.parse .plain none fifthBehind).toOption,
          (∀ s ∈ [t₀, t, t'], s.PlacesImports) ∧ SamePatterns t t' ∧ Rearranges t t' ∧
          ofTree t' ≠ ofTree t ∧
          SamePatterns t₀ t' ∧ (∃ front new back, AddsImport t₀ t' front new back) ∧
          ofTree t₀ = .action true ∧ ofTree t' = .action false := by
  obtain ⟨t₀, ht₀, t, ht, t', ht', hall, horder, ⟨new, -, hlisted, hadds⟩, hback, hmany₀, hmany,
    hmany'⟩ := fifth_constant
  obtain ⟨hplaces₀, hplain₀⟩ := hall t₀ (by simp)
  obtain ⟨hplaces, hplain⟩ := hall t (by simp)
  obtain ⟨hplaces', hplain'⟩ := hall t' (by simp)
  have hpatterns := hplain.samePatterns hplain'
  have hpatterns₀ := hplain₀.samePatterns hplain'
  have hrole₀ : ofTree t₀ = .action true := hmany₀ ▸ hplain₀.ofTree_eq
  have hswapped := ((ofTree_import_order t t' hplaces hplaces' hpatterns).1 horder).2.1
  have hadded :=
    (ofTree_import_order t₀ t' hplaces₀ hplaces' hpatterns₀).2 _ new _ hadds true hrole₀
  rw [if_pos hback, hlisted] at hadded
  refine ⟨t₀, ht₀, t, ht, t', ht', fun s hs => (hall s hs).1, hpatterns, horder, fun hsame => ?_,
    hpatterns₀, ⟨_, new, _, hadds⟩, hrole₀, hadded⟩
  obtain hnone | hlast := hswapped.mp hsame
  · exact hnone _ hplain.ofTree_eq
  · rw [hmany, hmany'] at hlast
    cases hlast

/-- Neither the order of the imports nor one more import of the constants
leaves every action as it is. -/
theorem fifth_constant_changes_role :
    (∃ t ∈ (Tree.parse .plain none fifthInFront).toOption,
      ∃ t' ∈ (Tree.parse .plain none fifthBehind).toOption,
        SamePatterns t t' ∧ Rearranges t t' ∧ ¬ ofTree t' = ofTree t) ∧
    ∃ t ∈ (Tree.parse .plain none fourConstants).toOption,
      ∃ t' ∈ (Tree.parse .plain none fifthBehind).toOption,
        SamePatterns t t' ∧ (∃ front new back, AddsImport t t' front new back) ∧
        ¬ (ofTree t = .action true → ofTree t' = .action true) := by
  obtain ⟨t₀, ht₀, t, ht, t', ht', hall, horder, ⟨new, -, -, hadds⟩, -, hmany₀, hmany, hmany'⟩ :=
    fifth_constant
  have hplain₀ := (hall t₀ (by simp)).2
  have hplain := (hall t (by simp)).2
  have hplain' := (hall t' (by simp)).2
  have hrole' : ofTree t' = .action false := hmany' ▸ hplain'.ofTree_eq
  refine ⟨⟨t, ht, t', ht', hplain.samePatterns hplain', horder, ?_⟩,
    t₀, ht₀, t', ht', hplain₀.samePatterns hplain', ⟨_, new, _, hadds⟩, ?_⟩
  · rw [hrole', hplain.ofTree_eq, hmany]
    nofun
  · rw [hrole', hplain₀.ofTree_eq, hmany₀]
    exact fun hkeeps => nomatch hkeeps rfl

end ModuleRole

end ScriptRefactor
