import ScriptRefactor.Digest
import ScriptRefactor.Syntax.Tree
import ScriptRefactor.Table

/-!
# `ScriptRefactor.Syntax.TreeCache`: trees that were parsed before

The cache keeps the tree of each path with the digest of its text. A
tree is used again while the text has the same digest and the dialect
is the same; any other text takes its place. A path whose text could
not be parsed is remembered with the error until it parses again.
-/

set_option autoImplicit false

namespace ScriptRefactor.Syntax

/-- A tree with the digest of its text. -/
structure CachedTree where
  /-- The digest of the text. -/
  digest : UInt64
  /-- The tree. -/
  tree : Tree
deriving Repr

/-- Trees of modules by their paths. -/
structure TreeCache where
  /-- The trees. -/
  trees : Table CachedTree
  /-- The paths that could not be parsed, with the errors. -/
  failures : Table SyntaxError

namespace TreeCache

/-- A cache without trees. -/
def empty : TreeCache := ⟨.empty, .empty⟩

/-- The tree of a text, if it is kept. -/
def kept? (c : TreeCache) (dialect : Dialect) (path text : String) : Option Tree :=
  match c.trees.find? path with
  | some e => if e.digest = Digest.ofText text ∧ e.tree.dialect = dialect then some e.tree else none
  | none => none

/-- The tree of a text in a dialect. -/
def parseAs (c : TreeCache) (dialect : Dialect) (path text : String) :
    Except SyntaxError Tree × TreeCache :=
  match c.kept? dialect path text with
  | some t => (.ok t, c)
  | none =>
    match Tree.parse dialect (some path) text with
    | .ok t => (.ok t, ⟨c.trees.insert path ⟨Digest.ofText text, t⟩, c.failures.erase path⟩)
    | .error e => (.error e, ⟨c.trees.erase path, c.failures.insert path e⟩)

/-- The tree of a text in the dialect that the extension of its path
tells. -/
def parse (c : TreeCache) (path text : String) : Except SyntaxError Tree × TreeCache :=
  match Dialect.ofPath? path with
  | some dialect => c.parseAs dialect path text
  | none => (.error (.unsupported path), c)

/-- The cache without one path. -/
def invalidate (c : TreeCache) (path : String) : TreeCache :=
  ⟨c.trees.erase path, c.failures.erase path⟩

/-- A tree is kept for the path. -/
def contains (c : TreeCache) (path : String) : Bool := c.trees.contains path

/-- The number of trees kept. -/
def size (c : TreeCache) : Nat := c.trees.size

/-- The paths whose last text could not be parsed. -/
def failed (c : TreeCache) : List String := c.failures.keys

end TreeCache

end ScriptRefactor.Syntax
