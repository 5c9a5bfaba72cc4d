import ScriptRefactor.Toml.Literal

/-!
# `ScriptRefactor.Toml.Document`: reading a TOML document

A document is a list of lines: a header, a key with its value, or
nothing, each with a comment behind it if one is wanted. Only a
string in three quotes and an array go on over several lines.
-/

set_option autoImplicit false

namespace ScriptRefactor.Toml

/-! ### Blanks and comments -/

/-- The text without spaces and tabs in front. -/
def dropSpace (cs : List Char) : List Char := cs.dropWhile fun c => c = ' ' || c = '\t'

/-- What follows a comment, if one starts here. -/
def dropComment : List Char → List Char
  | '#' :: cs => cs.dropWhile isPlain
  | cs => cs

/-- What follows a line break; the end of the text is one. -/
def afterBreak? : List Char → Option (List Char)
  | [] => some []
  | '\n' :: cs => some cs
  | '\r' :: '\n' :: cs => some cs
  | _ => none

/-- What follows the rest of a line, which holds no more than a
comment. -/
def afterLine? (cs : List Char) : Option (List Char) := afterBreak? (dropComment (dropSpace cs))

/-- The text without spaces, line breaks and comments in front. -/
def dropBlank : Nat → List Char → List Char
  | 0, cs => cs
  | fuel + 1, cs =>
    let rest := dropSpace cs
    if rest.isEmpty then []
    else
      match afterLine? rest with
      | some rest => dropBlank fuel rest
      | none => rest

/-! ### Keys -/

/-- A character of a key without quotes. -/
def isKeyChar (c : Char) : Bool := c.isAlphanum || c = '_' || c = '-'

/-- Reads a key without dots. -/
def readSimpleKey (cs : List Char) : Option (List Char × List Char) :=
  match cs with
  | '"' :: rest => readLine '"' 0 rest
  | '\'' :: rest => readLine '\'' 0 rest
  | _ =>
    let key := cs.takeWhile isKeyChar
    if key.isEmpty then none else some (key, cs.drop key.length)

/-- Reads a key with dots. -/
def readKey : Nat → List Char → Option (List String × List Char)
  | 0, _ => none
  | fuel + 1, cs => do
    let (key, rest) ← readSimpleKey (dropSpace cs)
    match dropSpace rest with
    | '.' :: rest => do
      let (keys, rest) ← readKey fuel rest
      return (String.ofList key :: keys, rest)
    | rest => return ([String.ofList key], rest)

/-! ### Values -/

/-- A character that ends a word. -/
def endsWord (c : Char) : Bool :=
  c = ',' || c = ']' || c = '\x7d' || c = '#' || c = '\n' || c = '\r' || c = ' ' || c = '\t'

/-- Reads a word; a date and a time may have a space between them. -/
def readWord (cs : List Char) : Option (Toml × List Char) :=
  let first := cs.takeWhile (!endsWord ·)
  let rest := cs.drop first.length
  let second := (rest.drop 1).takeWhile (!endsWord ·)
  if isDate first ∧ rest.head? = some ' ' ∧ isZonedTime second then
    some (.moment, rest.drop (1 + second.length))
  else (word? first).map (·, rest)

mutual
/-- Reads a value. -/
def readValue : Nat → List Char → Option (Toml × List Char)
  | 0, _ => none
  | fuel + 1, cs =>
    match cs with
    | '"' :: rest => (readString '"' rest).map fun (s, rest) => (.string (String.ofList s), rest)
    | '\'' :: rest => (readString '\'' rest).map fun (s, rest) => (.string (String.ofList s), rest)
    | '[' :: rest => (readItems fuel rest).map fun (items, rest) => (.array items, rest)
    | '\x7b' :: rest =>
      match dropSpace rest with
      | '\x7d' :: rest => some (.inlineTable [], rest)
      | rest => (readPairs fuel [] rest).map fun (es, rest) => (.inlineTable es, rest)
    | _ => readWord cs
/-- Reads the items of an array up to its bracket. -/
def readItems : Nat → List Char → Option (List Toml × List Char)
  | 0, _ => none
  | fuel + 1, cs =>
    match dropBlank cs.length cs with
    | ']' :: rest => some ([], rest)
    | cs => do
      let (item, rest) ← readValue fuel cs
      match dropBlank rest.length rest with
      | ',' :: rest => do
        let (items, rest) ← readItems fuel rest
        return (item :: items, rest)
      | ']' :: rest => return ([item], rest)
      | _ => none
/-- Reads the entries of a table on one line up to its brace. -/
def readPairs : Nat → Entries → List Char → Option (Entries × List Char)
  | 0, _, _ => none
  | fuel + 1, es, cs => do
    let (path, rest) ← readKey fuel cs
    match rest with
    | '=' :: rest => do
      let (value, rest) ← readValue fuel (dropSpace rest)
      let es ← addValue es path value
      match dropSpace rest with
      | ',' :: rest => readPairs fuel es rest
      | '\x7d' :: rest => return (es, rest)
      | _ => none
    | _ => none
end

/-! ### Lines -/

/-- The document read so far and the header whose table takes the next
keys. -/
abbrev State : Type := Entries × List String

/-- Reads a header behind its bracket. -/
def readHeader (fuel : Nat) (es : Entries) (cs : List Char) : Option (State × List Char) :=
  match cs with
  | '[' :: cs => do
    let (path, rest) ← readKey fuel cs
    match rest with
    | ']' :: ']' :: rest => return ((← openTables es path, path), rest)
    | _ => none
  | _ => do
    let (path, rest) ← readKey fuel cs
    match rest with
    | ']' :: rest => return ((← openTable es path, path), rest)
    | _ => none

/-- Reads a key and its value. -/
def readEntry (fuel : Nat) (s : State) (cs : List Char) : Option (State × List Char) := do
  let (path, rest) ← readKey fuel cs
  match rest with
  | '=' :: rest => do
    let (value, rest) ← readValue fuel (dropSpace rest)
    return ((← addUnder s.1 s.2 path value, s.2), rest)
  | _ => none

/-- Reads the lines of a document. -/
def readDocument : Nat → State → List Char → Option Entries
  | 0, s, _ => some s.1
  | fuel + 1, s, cs =>
    match dropBlank cs.length cs with
    | [] => some s.1
    | '[' :: rest => do
      let (s, rest) ← readHeader fuel s.1 rest
      readDocument fuel s (← afterLine? rest)
    | cs => do
      let (s, rest) ← readEntry fuel s cs
      readDocument fuel s (← afterLine? rest)

/-- The text without a byte order mark. -/
def dropMark : List Char → List Char
  | c :: cs => if c.toNat = 0xFEFF then cs else c :: cs
  | [] => []

/-- The table that a document writes, if it is one. -/
def parse? (text : String) : Option Entries :=
  let cs := dropMark text.toList
  readDocument (2 * cs.length + 2) ([], []) cs

end ScriptRefactor.Toml
