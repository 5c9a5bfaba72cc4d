/-!
# `ScriptRefactor.Toml.Value`: values and tables of a TOML document

A document is a table. A table is opened by a header, by the keys
with dots in front of a value, or because a header names something
inside it; how it was opened decides what may still be added to it.
Nothing is ever defined twice.

* `addValue` puts a value under a key, which may have dots;
* `openTable` and `openTables` open the table of a header.
-/

set_option autoImplicit false

namespace ScriptRefactor

/-- A value of a document. -/
inductive Toml where
  /-- A text. -/
  | string (s : String)
  /-- An integer. -/
  | integer (n : Int)
  /-- A number that is no integer, or a truth value. -/
  | scalar
  /-- A date, a time or both. -/
  | moment
  /-- An array. -/
  | array (items : List Toml)
  /-- A table written in one line; nothing can be added to it. -/
  | inlineTable (entries : List (String × Toml))
  /-- A table. It is `implicit` if no header opened it, and `dotted` if
  a key with dots did. -/
  | table (implicit dotted : Bool) (entries : List (String × Toml))
  /-- The tables of a header in double brackets, the last one first. -/
  | tables (items : List (List (String × Toml)))
deriving Repr, Inhabited

namespace Toml

/-- The entries of a table. -/
abbrev Entries : Type := List (String × Toml)

/-- The value under a key. -/
def get? (es : Entries) (k : String) : Option Toml := (es.find? fun e => e.1 = k).map Prod.snd

/-- A value put under a key, in the place of the one that was there. -/
def put (es : Entries) (k : String) (v : Toml) : Entries :=
  if es.any fun e => e.1 = k then es.map fun e => if e.1 = k then (k, v) else e
  else es ++ [(k, v)]

/-- What is open for the entry of a key: whether a key with dots opened
it, and its entries. -/
abbrev Change : Type := Bool → Entries → Option Entries

/-- A change of the table on the way `path`. A key with dots opens the
tables that are missing, and enters no table that has a header; a
header enters any table. -/
def changeAt (byDots : Bool) (f : Change) (dotted : Bool) (es : Entries) :
    List String → Option Entries
  | [] => f dotted es
  | k :: path =>
    match get? es k with
    | none => (changeAt byDots f byDots [] path).map fun inner => put es k (.table true byDots inner)
    | some (.table implicit dotted inner) =>
      if byDots && !implicit then none
      else (changeAt byDots f dotted inner path).map fun inner =>
        put es k (.table implicit dotted inner)
    | some (.tables (last :: before)) =>
      (changeAt byDots f false last path).map fun last => put es k (.tables (last :: before))
    | some _ => none

/-- A new value under a key. A table opened by a key with dots takes
entries only through such keys. -/
def putNew (isSimple : Bool) (k : String) (v : Toml) : Change := fun dotted es =>
  if dotted = isSimple || (get? es k).isSome then none else some (put es k v)

/-- The entries with a value put under a key with dots. -/
def addValue (es : Entries) (path : List String) (v : Toml) : Option Entries :=
  match path.reverse with
  | k :: before => changeAt true (putNew before.isEmpty k v) false es before.reverse
  | [] => none

/-- A table opened by its header. One that was only named on the way
to others keeps its entries. -/
def openTable (es : Entries) (path : List String) : Option Entries :=
  match path.reverse with
  | k :: before =>
    changeAt false (fun _ es =>
      match get? es k with
      | none => some (put es k (.table false false []))
      | some (.table true false inner) => some (put es k (.table false false inner))
      | some _ => none) false es before.reverse
  | [] => none

/-- One more table opened by a header in double brackets. -/
def openTables (es : Entries) (path : List String) : Option Entries :=
  match path.reverse with
  | k :: before =>
    changeAt false (fun _ es =>
      match get? es k with
      | none => some (put es k (.tables [[]]))
      | some (.tables items) => some (put es k (.tables ([] :: items)))
      | some _ => none) false es before.reverse
  | [] => none

/-- A value put under a key of the table that the last header
opened. -/
def addUnder (es : Entries) (header path : List String) (v : Toml) : Option Entries :=
  changeAt false (fun _ es => addValue es path v) false es header

/-! ### Reading values -/

/-- The items of an array. -/
def items? : Toml → Option (List Toml)
  | array items => some items
  | tables items => some (items.reverse.map (table false false))
  | _ => none

/-- The entries of a table. -/
def entries? : Toml → Option Entries
  | inlineTable es | table _ _ es => some es
  | _ => none

/-- The text. -/
def string? : Toml → Option String
  | string s => some s
  | _ => none

/-- The texts of an array of texts. -/
def strings? (v : Toml) : Option (List String) := do (← v.items?).mapM string?

end Toml

end ScriptRefactor
