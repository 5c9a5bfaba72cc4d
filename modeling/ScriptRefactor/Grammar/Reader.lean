import ScriptRefactor.Grammar.Character
import ScriptRefactor.Syntax.Dialect
import ScriptRefactor.Syntax.Node

/-!
# `ScriptRefactor.Grammar.Reader`: reading a module token by token

A `Parser` reads a part of the text from where the reader stands and
moves the reader on, or refuses at a byte position. What counts as a
token depends on the construct around it, so there is no list of
tokens: every rule of the grammar asks for the one it expects next.

* `skipBlanks` passes white space and comments; the comments are
  kept and put into the tree once it is finished.
* `ahead` tells which token comes next; `mark`, `word` and `name`
  read one.
* `either`, `attempt?` and the loops `untilMark` and `commaList`
  combine rules. A loop goes on only while the reader moves.
-/

set_option autoImplicit false

namespace ScriptRefactor.Grammar

open Syntax

/-! ### The reader -/

/-- Where the reader stands. -/
structure Reader where
  /-- The text still to be read. -/
  rest : List Char
  /-- The bytes read so far. -/
  pos : Nat
  /-- The comments passed so far, the last one first. -/
  comments : List Node

/-- What a rule has to know about the constructs around it. -/
structure Surroundings where
  /-- The dialect of the module. -/
  dialect : Dialect
  /-- The word `in` is an operator here. It is not in the head of a
  loop. -/
  inOperator : Bool
  /-- A statement may end here, so the end of a line may end it. -/
  mayEnd : Bool
  /-- A function with an arrow may name the type of its result. Where a
  colon has to come, it may not. -/
  namesResult : Bool

/-- A rule of the grammar. A refusal says at which byte. -/
abbrev Parser (α : Type) : Type := ReaderT Surroundings (StateT Reader (Except Nat)) α

namespace Parser

/-- Runs a rule. -/
def runAt {α : Type} (p : Parser α) (s : Surroundings) (r : Reader) : Except Nat (α × Reader) :=
  (p s).run r

/-- The first rule, or where it refuses the second. The refusal that
got further is reported. -/
def either {α : Type} (p q : Parser α) : Parser α := fun s r =>
  match p s r with
  | .ok a => .ok a
  | .error i =>
    match q s r with
    | .ok a => .ok a
    | .error j => .error (max i j)

/-- The rule if it applies, else nothing is read. -/
def attempt? {α : Type} (p : Parser α) : Parser (Option α) := fun s r =>
  match p s r with
  | .ok (a, r') => .ok (some a, r')
  | .error _ => .ok (none, r)

/-- The rule applies here; nothing is read. -/
def applies {α : Type} (p : Parser α) : Parser Bool := fun s r =>
  match p s r with
  | .ok _ => .ok (true, r)
  | .error _ => .ok (false, r)

/-- The rule between brackets: `in` is an operator, and no statement
ends. -/
def enclosed {α : Type} (p : Parser α) : Parser α := fun s =>
  p { s with inOperator := true, mayEnd := false, namesResult := true }

/-- The rule where a statement may end. -/
def ending {α : Type} (p : Parser α) : Parser α := fun s =>
  p { s with inOperator := true, mayEnd := true, namesResult := true }

/-- The rule in front of a colon that has to come. -/
def beforeColon {α : Type} (p : Parser α) : Parser α := fun s =>
  p { s with inOperator := true, mayEnd := false, namesResult := false }

/-- The rule where `in` is no operator. -/
def withoutIn {α : Type} (p : Parser α) : Parser α := fun s =>
  p { s with inOperator := false, mayEnd := false }

/-- The dialect of the module. -/
def dialect : Parser Dialect := fun s r => .ok (s.dialect, r)

/-- The dialect has types. -/
def typed : Parser Bool := fun s r => .ok (s.dialect.hasTypes, r)

/-- The surroundings of the rule. -/
def surroundings : Parser Surroundings := fun s r => .ok (s, r)

/-- The text still to be read. -/
def remaining : Parser (List Char) := fun _ r => .ok (r.rest, r)

/-- The number of bytes read so far. -/
def position : Parser Nat := fun _ r => .ok (r.pos, r)

/-- Moves the reader over some text, which stands in front of the
remaining one. -/
def pass (text : List Char) : Parser Unit := fun _ r =>
  .ok ((), { r with
    rest := r.rest.drop text.length
    pos := r.pos + Text.byteSize text })

end Parser

/-! ### Between two tokens -/

/-- A block comment from behind its opening mark on: its characters
up to and with the closing mark, and the text behind it. -/
def blockComment? : List Char → Option (List Char × List Char)
  | '*' :: '/' :: rest => some (['*', '/'], rest)
  | c :: rest => (blockComment? rest).map fun (text, rest) => (c :: text, rest)
  | [] => none

/-- The comment in front of a text, and the text behind it. -/
def comment? : List Char → Option (List Char × List Char)
  | '/' :: '/' :: rest =>
    some ('/' :: '/' :: rest.takeWhile (!isLineEnd ·), rest.dropWhile (!isLineEnd ·))
  | '/' :: '*' :: rest => (blockComment? rest).map fun (text, rest) => ('/' :: '*' :: text, rest)
  | _ => none

/-- The reader behind the white space in front of it. -/
def Reader.passBlanks (r : Reader) : Reader :=
  { r with
    rest := r.rest.dropWhile isBlank
    pos := r.pos + Text.byteSize (r.rest.takeWhile isBlank) }

/-- The reader behind the comment in front of it, which it keeps. -/
def Reader.passComment? (r : Reader) : Option Reader :=
  (comment? r.rest).map fun (text, rest) =>
    { rest
      pos := r.pos + Text.byteSize text
      comments :=
        Node.leaf (.construct .comment) r.pos (String.ofList text) :: r.comments }

/-- Passes white space and at most `fuel` comments. -/
def Reader.passBetween : Nat → Reader → Reader
  | 0, r => r.passBlanks
  | fuel + 1, r =>
    match r.passBlanks.passComment? with
    | some r => r.passBetween fuel
    | none => r.passBlanks

/-- Passes white space and comments. Each comment has at least two
characters, so their number is bounded. -/
def Reader.skip (r : Reader) : Reader := r.passBetween r.rest.length

/-! ### Tokens -/

/-- The marks of more than one character, the longest first. -/
def longMarks : List (List Char) :=
  [">>>=", "...", "===", "!==", "**=", "<<=", ">>=", ">>>", "&&=", "||=", "??=", "=>", "==",
   "!=", "<=", ">=", "&&", "||", "??", "?.", "++", "--", "+=", "-=", "*=", "/=", "%=", "&=",
   "|=", "^=", "<<", ">>", "**"].map String.toList

/-- The longest mark in front of a text. The mark `?.` is not read
before a digit, where the dot belongs to a number. -/
def markAhead? (cs : List Char) : Option (List Char) :=
  match longMarks.find? fun m => Text.startsWith m cs with
  | some m =>
    if m = ['?', '.'] ∧ (cs.drop 2).head?.any isDigit then some ['?'] else some m
  | none =>
    match cs with
    | c :: _ => if marks.contains c then some [c] else none
    | [] => none

/-- What comes next. -/
inductive Ahead where
  /-- A name or a word of the language. -/
  | word (text : String)
  /-- A mark. -/
  | mark (text : String)
  /-- A number. -/
  | number
  /-- The text is finished. -/
  | finished
  /-- No token starts like this. -/
  | unknown
deriving DecidableEq, Repr

/-- The token in front of a text that starts with no white space. -/
def Ahead.of (cs : List Char) : Ahead :=
  match cs with
  | [] => .finished
  | c :: rest =>
    if isDigit c ∨ (c = '.' ∧ rest.head?.any isDigit) then .number
    else if isNameStart c then .word (String.ofList (cs.takeWhile isNameChar))
    else
      match markAhead? cs with
      | some m => .mark (String.ofList m)
      | none => .unknown

namespace Parser

/-- Passes white space and comments. -/
def skipBlanks : Parser Unit := fun _ r => .ok ((), r.skip)

/-- What comes next. -/
def ahead : Parser Ahead := fun _ r => .ok (Ahead.of r.skip.rest, r)

/-- What comes next after the next word or mark. -/
def second : Parser Ahead := fun _ r =>
  let r := r.skip
  let read :=
    match Ahead.of r.rest with
    | .word w => w.toList
    | .mark m => m.toList
    | _ => []
  .ok (Ahead.of { r with rest := r.rest.drop read.length }.skip.rest, r)

/-- Refuses, at the next token. -/
def refuse {α : Type} : Parser α := fun _ r => .error r.skip.pos

/-- Goes on only if the condition holds. -/
def require (condition : Bool) : Parser Unit := if condition then pure () else refuse

/-- Reads some text as a leaf; the reader stands in front of it. -/
def leaf (kind : Kind) (text : List Char) : Parser Node := do
  let start ← position
  pass text
  return Node.leaf kind start (String.ofList text)

/-- Reads some text as a token of that name. -/
def token (text : List Char) : Parser Node := leaf (.token (String.ofList text)) text

/-- The next token is the given mark. -/
def isMark (m : String) : Parser Bool := do return (← ahead) = .mark m

/-- The next token is the given word. -/
def isWord (w : String) : Parser Bool := do return (← ahead) = .word w

/-- Reads the given mark. -/
def mark (m : String) : Parser Node := do
  require (← isMark m)
  skipBlanks
  token m.toList

/-- Reads the given word as a token. -/
def word (w : String) : Parser Node := do
  require (← isWord w)
  skipBlanks
  token w.toList

/-- The given mark, if it comes next. -/
def mark? (m : String) : Parser (List Node) := do
  if ← isMark m then return [← mark m] else return []

/-- The given word, if it comes next. -/
def word? (w : String) : Parser (List Node) := do
  if ← isWord w then return [← word w] else return []

/-- Reads one character as a token, even if it is the front of a
longer mark. -/
def char (c : Char) : Parser Node := do
  skipBlanks
  require ((← remaining).head? = some c)
  token [c]

/-- The next character is the given one. -/
def isChar (c : Char) : Parser Bool := fun _ r => .ok (r.skip.rest.head? = some c, r)

/-- Reads any word as a name of the given construct. -/
def anyName (c : Construct) : Parser Node := do
  match ← ahead with
  | .word w => skipBlanks; leaf (.construct c) w.toList
  | _ => refuse

end Parser

/-- The words that are not names. -/
def reservedWords : List String :=
  ["break", "case", "catch", "class", "const", "continue", "debugger", "default", "delete", "do",
   "else", "export", "extends", "false", "finally", "for", "function", "if", "import", "in",
   "instanceof", "new", "null", "return", "super", "switch", "this", "throw", "true", "try",
   "typeof", "var", "void", "while", "with"]

/-- The word may be a name. -/
def isFree (w : String) : Bool := !(reservedWords.contains w)

namespace Parser

/-- The next token is a name. -/
def isNameAhead : Parser Bool := do
  match ← ahead with
  | .word w => return isFree w
  | _ => return false

/-- Reads a name of the given construct. -/
def name (c : Construct) : Parser Node := do
  require (← isNameAhead)
  anyName c

/-! ### Loops -/

/-- Applies a rule again and again, as long as it applies and the
reader moves. -/
def manyFuel {α : Type} (p : Parser α) : Nat → Parser (List α)
  | 0 => pure []
  | fuel + 1 => do
    let before ← position
    match ← attempt? p with
    | none => return []
    | some a =>
      if (← position) = before then return [a]
      else return a :: (← manyFuel p fuel)

/-- Applies a rule as often as it applies. -/
def many {α : Type} (p : Parser α) : Parser (List α) := do
  manyFuel p ((← remaining).length + 1)

/-- Changes a value by a rule again and again, until the rule has
nothing more to say. -/
def growFuel {α : Type} (p : α → Parser (Option α)) : Nat → α → Parser α
  | 0, a => pure a
  | fuel + 1, a => do
    match ← p a with
    | none => return a
    | some b => growFuel p fuel b

/-- Changes a value by a rule as long as the rule applies. -/
def grow {α : Type} (p : α → Parser (Option α)) (a : α) : Parser α := do
  growFuel p ((← remaining).length + 1) a

/-- Collects the nodes that a rule gives until it gives none. -/
def collect (p : Parser (Option (List Node))) : Parser (List Node) :=
  grow (fun nodes => do return (← p).map (nodes ++ ·)) []

/-- The rule again and again, up to a token that satisfies the
condition. A refusal of the rule is final. -/
def untilAhead (stop : Ahead → Bool) (p : Parser (List Node)) : Parser (List Node) :=
  collect do if stop (← ahead) then return none else return some (← p)

/-- The rule again and again, up to a mark that ends the list. -/
def untilMark (m : String) (p : Parser (List Node)) : Parser (List Node) :=
  untilAhead (fun a => a = .mark m || a = .finished) p

/-- One item of a list and the comma behind it; the comma may be
missing in front of the mark that ends the list. -/
def listItem (m : String) (p : Parser (List Node)) : Parser (List Node) := do
  let item ← p
  if ← isMark m then return item
  return item ++ [← mark ","]

/-- Items separated by commas up to the mark that ends the list. A
comma may follow the last item. -/
def commaList (m : String) (p : Parser (List Node)) : Parser (List Node) :=
  untilMark m (listItem m p)

/-- Items separated by commas, some of which may be left out. -/
def sparseList (m : String) (p : Parser (List Node)) : Parser (List Node) :=
  untilMark m do if ← isMark "," then return [← mark ","] else listItem m p

/-- One item or more, separated by commas. -/
def commaSeparated (p : Parser (List Node)) : Parser (List Node) := do
  let first ← p
  let more ← collect do
    if ← isMark "," then
      let comma ← mark ","
      return some (comma :: (← p))
    else return none
  return first ++ more

/-- A list in brackets: the opening mark, what the rule gives, and
the closing mark. -/
def bracketed (opening closing : String) (p : Parser (List Node)) : Parser (List Node) := do
  let first ← mark opening
  let inside ← enclosed p
  return first :: inside ++ [← mark closing]

end Parser

end ScriptRefactor.Grammar
