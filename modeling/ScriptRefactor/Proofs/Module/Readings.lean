import Mathlib.Data.List.Nodup
import ScriptRefactor.Module.Role
import ScriptRefactor.Proofs.Syntax.Spans

/-!
# `ScriptRefactor.Proofs.Module.Readings`: what a module says without its places

The reading of a node is the node without the bytes that it covers: what it
is, its part in the node above, what it says if it is a name or a string, and
the readings below. What a module is for depends on the reading of its tree, and
on whether two patterns occur in it (`ofTree_eq_role`).

The one thing that is asked of the bytes is how many names an import lists:
those specifiers count that lie in the span of the import. Where spans are
nested and specifiers are not empty, these are the specifiers below the import
(`listedNames_eq`).
-/

set_option autoImplicit false

namespace ScriptRefactor

namespace Syntax

/-! ### Readings -/

/-- What a node tells by itself. -/
structure Told where
  /-- What the node is. -/
  kind : Kind
  /-- The part it plays in the node above. -/
  role? : Option Role
  /-- The text of a name. -/
  name? : Option String
  /-- What stands between the quotes of a string. -/
  value? : Option String
deriving Repr

/-- Texts compared by their bytes, which is less work for the kernel. -/
def decEqText (a b : Option String) : Decidable (a = b) :=
  decidable_of_iff (a.map (·.toByteArray.data.toList) = b.map (·.toByteArray.data.toList))
    ⟨fun h => Option.map_injective (fun _ _ hbytes =>
      String.toByteArray_inj.mp (ByteArray.ext (Array.toList_inj.mp hbytes))) h, congrArg _⟩

instance : DecidableEq Told := fun a b =>
  have := decEqText a.name? b.name?
  have := decEqText a.value? b.value?
  decidable_of_iff (a.kind = b.kind ∧ a.role? = b.role? ∧ a.name? = b.name? ∧ a.value? = b.value?)
    ⟨fun ⟨hkind, hrole, hname, hvalue⟩ => by
      cases a
      cases b
      simp_all, fun h => by simp [h]⟩

/-- A node without its place. -/
inductive Reading where
  | mk (told : Told) (children : List Reading)
deriving Repr

namespace Reading

/-- What the node tells by itself. -/
def told : Reading → Told
  | .mk a _ => a

/-- The readings of the nodes directly below. -/
def children : Reading → List Reading
  | .mk _ rs => rs

mutual

/-- Readings are compared from the top down. -/
def decEq : (r s : Reading) → Decidable (r = s)
  | .mk a rs, .mk b ss =>
    if htold : a = b then
      match decEqs rs ss with
      | isTrue hchildren => isTrue (by rw [htold, hchildren])
      | isFalse hchildren => isFalse fun h => hchildren (by cases h; rfl)
    else isFalse fun h => htold (by cases h; rfl)

/-- Rows of readings are compared one by one. -/
def decEqs : (rs ss : List Reading) → Decidable (rs = ss)
  | [], [] => isTrue rfl
  | [], _ :: _ => isFalse nofun
  | _ :: _, [] => isFalse nofun
  | r :: rs, s :: ss =>
    match decEq r s, decEqs rs ss with
    | isTrue h, isTrue hrest => isTrue (by rw [h, hrest])
    | isFalse h, _ => isFalse fun heq => h (List.cons.inj heq).1
    | _, isFalse hrest => isFalse fun heq => hrest (List.cons.inj heq).2

end

instance : DecidableEq Reading := decEq

mutual

/-- The reading and all below it, parents first. -/
def preorder : Reading → List Reading
  | .mk a rs => .mk a rs :: forest rs

/-- The readings of several trees, one tree after the other. -/
def forest : List Reading → List Reading
  | [] => []
  | r :: rs => r.preorder ++ forest rs

end

/-- The reading is one of the given construct. -/
def is (r : Reading) (c : Construct) : Bool := r.told.kind = .construct c

/-- The child in the given role. -/
def child? (r : Reading) (role : Role) : Option Reading :=
  r.children.find? fun c => c.told.role? = some role

/-- The children that are constructs. -/
def namedChildren (r : Reading) : List Reading := r.children.filter fun c => c.told.kind.isNamed

/-- The module that a statement names. -/
def source? (r : Reading) : Option String := (r.child? .source).bind fun s => s.told.value?

/-- The imports of a source. -/
def importsOf (r : Reading) (source : String) : List Reading :=
  (r.preorder.filter (is · .importStatement)).filter fun s => s.source? = some source

/-- How many names are listed below. -/
def listed (r : Reading) : Nat := r.preorder.countP (is · .importSpecifier)

/-- How many names each import of a source lists. -/
def counts (r : Reading) (source : String) : List Nat := (r.importsOf source).map listed

/-- The member is a method that renders. -/
def isRender (member : Reading) : Bool :=
  member.is .methodDefinition &&
    match member.child? .name with
    | some name => name.told.name? = some "render"
    | none => false

/-- The reading is of a class that extends another one and can render. -/
def isComponentClass (r : Reading) : Bool :=
  (r.told.kind.name = "class_declaration" || r.told.kind.name = "class")
    && r.namedChildren.any (is · .classHeritage)
    && match r.child? .body with
      | some body => body.namedChildren.any isRender
      | none => false

/-- What a module with the reading is for, if it is known whether it is
connected to the state and whether it exports a reducer. -/
def role (r : Reading) (connects reduces : Bool) : ModuleRole :=
  if !(r.importsOf "react").isEmpty && r.preorder.any isComponentClass then .component connects
  else if reduces && !(r.importsOf "./constants").isEmpty then
    .action ((r.counts "./constants").getLast?.any fun n => ModuleRole.fewConstants < n)
  else .misc

/-- The readings of several trees are those of each in turn. -/
theorem forest_eq_flatMap (rs : List Reading) : forest rs = rs.flatMap preorder := by
  induction rs with
  | nil => rfl
  | cons r rs ih => rw [forest, ih, List.flatMap_cons]

/-- A reading comes first, and then what is below it. -/
theorem preorder_eq (r : Reading) : r.preorder = r :: r.children.flatMap preorder := by
  cases r with
  | mk a rs => rw [preorder, forest_eq_flatMap, children]

end Reading

/-! ### The reading of a node -/

namespace Node

/-- What a node tells by itself. -/
def told (t : Tree) (n : Node) : Told where
  kind := n.kind
  role? := n.label.role
  name? := if n.label.role = some .name then some (t.text n) else none
  value? := t.stringValue? n

mutual

/-- The node without its place. -/
def reading (t : Tree) : Node → Reading
  | .mk l cs => .mk (told t (.mk l cs)) (readings t cs)

/-- The nodes of a row without their places. -/
def readings (t : Tree) : List Node → List Reading
  | [] => []
  | n :: ns => n.reading t :: readings t ns

end

variable (t : Tree) (n : Node)

/-- What the reading tells by itself. -/
@[simp]
theorem told_reading : (n.reading t).told = n.told t := by
  cases n
  rfl

/-- The readings of a row are those of its nodes. -/
theorem readings_eq_map (ns : List Node) : readings t ns = ns.map (reading t) := by
  induction ns with
  | nil => rfl
  | cons n ns ih => rw [readings, ih, List.map_cons]

/-- Below the reading are the readings of the children. -/
@[simp]
theorem children_reading : (n.reading t).children = n.children.map (reading t) := by
  cases n with
  | mk l cs => exact readings_eq_map t cs

/-- All readings of a tree, in document order. -/
theorem preorder_reading : (n.reading t).preorder = n.preorder.map (reading t) := by
  induction n using childrenRec with
  | h l cs ih =>
      rw [Reading.preorder_eq, preorder_eq, List.map_cons, children_reading, List.map_flatMap,
        List.flatMap_map]
      exact congrArg _ (List.flatMap_congr ih)

/-- The reading is of the construct of the node. -/
@[simp]
theorem is_reading (c : Construct) : (n.reading t).is c = n.is c := by
  rw [Reading.is, told_reading]
  rfl

/-- The child of the reading in a role. -/
theorem child?_reading (role : Role) :
    (n.reading t).child? role = (n.child? role).map (reading t) := by
  rw [Reading.child?, children_reading, List.find?_map, child?]
  congr 2
  funext c
  rw [Function.comp_apply, told_reading]
  rfl

/-- The constructs among the children of the reading. -/
theorem namedChildren_reading :
    (n.reading t).namedChildren = n.namedChildren.map (reading t) := by
  rw [Reading.namedChildren, children_reading, List.filter_map, namedChildren]
  congr 2
  funext c
  rw [Function.comp_apply, told_reading]
  rfl

/-- The module that a statement names is told by its reading. -/
theorem source?_reading : (n.reading t).source? = Refactoring.sourceOf? t n := by
  rw [Reading.source?, child?_reading, Refactoring.sourceOf?]
  cases n.child? .source with
  | none => rfl
  | some s =>
      rw [Option.map_some, Option.bind_some, Option.bind_some, told_reading]
      rfl

/-- A method that renders is told by its reading. -/
theorem isRender_reading : (n.reading t).isRender = ModuleRole.isRender t n := by
  rw [Reading.isRender, ModuleRole.isRender, is_reading, child?_reading]
  cases hname : n.child? .name with
  | none => rfl
  | some name =>
      have htold : (name.told t).name? = some (t.text name) := if_pos (role_of_child? hname)
      rw [Option.map_some]
      simp only [told_reading, htold, Option.some_inj]

/-- A class that can render is told by its reading. -/
theorem isComponentClass_reading :
    (n.reading t).isComponentClass = ModuleRole.isComponentClass t n := by
  have hheritage : ∀ c : Node, ((Reading.is · .classHeritage) ∘ reading t) c
      = c.is .classHeritage := fun c => is_reading t c .classHeritage
  rw [Reading.isComponentClass, ModuleRole.isComponentClass, told_reading, namedChildren_reading,
    List.any_map, funext hheritage, child?_reading]
  cases n.child? .body with
  | none => rfl
  | some body =>
      have hrender : ∀ c : Node, (Reading.isRender ∘ reading t) c = ModuleRole.isRender t c :=
        fun c => c.isRender_reading t
      rw [Option.map_some]
      simp only [namedChildren_reading, List.any_map, funext hrender]
      rfl

/-- Below a node of a tree the numbers are all different, too. -/
theorem nodup_ids_below {root n : Node} (h : root.ids.Nodup) (hn : n ∈ root.preorder) :
    n.ids.Nodup := by
  induction root using childrenRec with
  | h l cs ih =>
      rcases mem_preorder.mp hn with rfl | ⟨c, hc, hn⟩
      · exact h
      · exact ih c hc (nodup_ids_of_child h hc) hn

end Node

/-- The imports of a tree are where a parser puts them. -/
structure Tree.PlacesImports (t : Tree) : Prop where
  /-- The spans are nested. -/
  spans : t.root.SpansNested
  /-- The nodes are told apart by their numbers. -/
  ids : t.root.ids.Nodup
  /-- A name in the list of an import is not empty, and has no import below. -/
  specifiers : ∀ n ∈ t.nodes, n.is .importSpecifier = true →
    n.start < n.stop ∧ ∀ m ∈ n.preorder, m.is .importStatement = false

instance (t : Tree) : Decidable t.PlacesImports :=
  decidable_of_iff (t.root.SpansNested ∧ t.root.ids.Nodup ∧ ∀ n ∈ t.nodes,
      n.is .importSpecifier = true → n.start < n.stop ∧ ∀ m ∈ n.preorder,
        m.is .importStatement = false)
    ⟨fun ⟨h1, h2, h3⟩ => ⟨h1, h2, h3⟩, fun h => ⟨h.spans, h.ids, h.specifiers⟩⟩

end Syntax

namespace ModuleRole

open Syntax

variable {t : Tree} {n : Node}

/-- The reading of a module. -/
def readingOf (t : Tree) : Reading := t.root.reading t

/-- The imports of a source, without their places. -/
theorem importsOf_readingOf (t : Tree) (source : String) :
    (readingOf t).importsOf source = (importsOf t source).map (Node.reading t) := by
  have hstatement : ∀ n : Node, ((Reading.is · .importStatement) ∘ Node.reading t) n
      = n.is .importStatement := fun n => n.is_reading t .importStatement
  have hsource : ∀ n : Node, ((fun s : Reading => decide (s.source? = some source))
      ∘ Node.reading t) n = Refactoring.hasSource t source n := fun n => by
    rw [Function.comp_apply, n.source?_reading t]
    rfl
  rw [Reading.importsOf, readingOf, Node.preorder_reading, List.filter_map, funext hstatement,
    List.filter_map, funext hsource]
  rfl

/-- An import lists the specifiers below it: those that lie in its span. -/
theorem listedNames_eq (ht : t.PlacesImports) (hn : n ∈ t.nodes)
    (himport : n.is .importStatement = true) :
    listedNames t n = (n.reading t).listed := by
  have hspecifier : ∀ m : Node, ((Reading.is · .importSpecifier) ∘ Node.reading t) m
      = m.is .importSpecifier := fun m => m.is_reading t .importSpecifier
  rw [listedNames, Reading.listed, Node.preorder_reading, List.countP_map, funext hspecifier,
    List.countP_eq_length_filter, List.countP_eq_length_filter]
  -- Both are lists without repetitions of the same nodes.
  have hnodes : t.nodes.Nodup := List.Nodup.of_map Node.id ht.ids
  have hbelow : n.preorder.Nodup := List.Nodup.of_map Node.id (Node.nodup_ids_below ht.ids hn)
  refine List.Perm.length_eq ((List.perm_ext_iff_of_nodup ((hnodes.filter _).filter _)
    (hbelow.filter _)).mpr fun m => ?_)
  simp only [List.mem_filter, Bool.and_eq_true, decide_eq_true_eq]
  constructor
  · rintro ⟨⟨hm, hkind⟩, hstart, hstop⟩
    obtain ⟨hproper, hnone⟩ := ht.specifiers m hm hkind
    rcases ht.spans.below_or_clear hm hn with h | h | h
    · exact ⟨h, hkind⟩
    · rw [hnone n h] at himport
      cases himport
    · omega
  · rintro ⟨hm, hkind⟩
    exact ⟨⟨Node.mem_preorder_trans hn hm, hkind⟩,
      (ht.spans.below hn).le_of_mem_preorder hm⟩

/-- How many names the imports of a source list. -/
theorem map_listedNames (ht : t.PlacesImports) (source : String) :
    (importsOf t source).map (listedNames t) = (readingOf t).counts source := by
  rw [Reading.counts, importsOf_readingOf, List.map_map]
  refine List.map_congr_left fun n hn => ?_
  obtain ⟨hn, himport⟩ := List.mem_filter.mp (List.mem_filter.mp hn).1
  exact listedNames_eq ht hn himport

/-- The last import of the constants decides. -/
theorem importsManyConstants_eq (ht : t.PlacesImports) :
    importsManyConstants t
      = ((readingOf t).counts "./constants").getLast?.any fun n => fewConstants < n := by
  rw [importsManyConstants, ← map_listedNames ht, List.getLast?_map]
  cases (importsOf t "./constants").getLast? <;> rfl

/-- What a module is for is told by its reading and the two patterns. -/
theorem ofTree_eq_role (ht : t.PlacesImports) :
    ofTree t = (readingOf t).role (occursIn t "connect($$$ARGS)")
      (occursIn t "export function reducer($$$ARGS) \x7b $$$BODY \x7d") := by
  have hclass : ∀ n : Node, (Reading.isComponentClass ∘ Node.reading t) n
      = isComponentClass t n := fun n => n.isComponentClass_reading t
  rw [ofTree, Reading.role, importsOf_readingOf, importsOf_readingOf, importsManyConstants_eq ht,
    List.isEmpty_map, List.isEmpty_map, readingOf, Node.preorder_reading, List.any_map,
    funext hclass]
  rfl

end ModuleRole

end ScriptRefactor
