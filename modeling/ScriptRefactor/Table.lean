/-!
# `ScriptRefactor.Table`: values under keys, in order

A table holds values under texts, and a key set holds texts alone.
Both list what they hold in ascending order, each key once.
-/

set_option autoImplicit false

namespace ScriptRefactor

/-! ### Tables -/

/-- Values under keys. -/
structure Table (α : Type) where
  /-- The keys with their values, in ascending order of the keys. -/
  entries : List (String × α)
deriving DecidableEq, Repr, Inhabited

namespace Table

variable {α : Type}

/-- A table that holds nothing. -/
def empty : Table α := ⟨[]⟩

/-- The value under a key. -/
def find? (t : Table α) (k : String) : Option α :=
  (t.entries.find? fun e => e.1 = k).map Prod.snd

/-- There is a value under the key. -/
def contains (t : Table α) (k : String) : Bool := t.entries.any fun e => e.1 = k

/-- The keys in ascending order. -/
def keys (t : Table α) : List String := t.entries.map Prod.fst

/-- The number of keys. -/
def size (t : Table α) : Nat := t.entries.length

/-- A value put under a key among entries in ascending order. -/
def insertEntry (k : String) (v : α) : List (String × α) → List (String × α)
  | [] => [(k, v)]
  | e :: es =>
    if k < e.1 then (k, v) :: e :: es
    else if k = e.1 then (k, v) :: es
    else e :: insertEntry k v es

/-- The table with a value put under a key; it takes the place of the
one that was there. -/
def insert (t : Table α) (k : String) (v : α) : Table α := ⟨insertEntry k v t.entries⟩

/-- The table with the keys for which `p` holds. -/
def filterKeys (t : Table α) (p : String → Bool) : Table α := ⟨t.entries.filter fun e => p e.1⟩

/-- The table without a key. -/
def erase (t : Table α) (k : String) : Table α := t.filterKeys (· ≠ k)

/-- The table with every key changed. Of two keys that become the
same, the later one counts. -/
def mapKeys (t : Table α) (f : String → String) : Table α :=
  t.entries.foldl (fun u e => u.insert (f e.1) e.2) empty

end Table

/-! ### Key sets -/

/-- A set of keys. -/
structure KeySet where
  /-- The keys in ascending order. -/
  toList : List String
deriving DecidableEq, Repr, Inhabited

namespace KeySet

/-- The set that holds nothing. -/
def empty : KeySet := ⟨[]⟩

/-- The key is in the set. -/
def contains (s : KeySet) (k : String) : Bool := s.toList.contains k

/-- A key put among keys in ascending order. -/
def insertKey (k : String) : List String → List String
  | [] => [k]
  | l :: ls => if k < l then k :: l :: ls else if k = l then l :: ls else l :: insertKey k ls

/-- The set with one more key. -/
def insert (s : KeySet) (k : String) : KeySet := ⟨insertKey k s.toList⟩

/-- The keys for which `p` holds. -/
def filter (s : KeySet) (p : String → Bool) : KeySet := ⟨s.toList.filter p⟩

/-- The set without a key. -/
def erase (s : KeySet) (k : String) : KeySet := s.filter (· ≠ k)

/-- The set of the keys of a list. -/
def ofList (keys : List String) : KeySet := keys.foldl insert empty

/-- The set with every key changed. -/
def map (s : KeySet) (f : String → String) : KeySet := ofList (s.toList.map f)

end KeySet

end ScriptRefactor
