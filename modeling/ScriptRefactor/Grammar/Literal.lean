import ScriptRefactor.Grammar.LineEnd

/-!
# `ScriptRefactor.Grammar.Literal`: strings, templates, numbers, patterns

A string holds its quotes as tokens, and between them runs of plain
characters and escape sequences; a line does not end inside it. A
template may hold substitutions and ends of lines. In markup a quoted
value knows no escapes, but character references.

A regular expression and a division start alike; the rule for the
former is asked for only where an operand is expected.
-/

set_option autoImplicit false

namespace ScriptRefactor.Grammar

open Syntax

/-! ### Escapes -/

/-- The characters at the front that satisfy a condition, at most
`limit` of them. -/
def takeAtMost (limit : Nat) (p : Char → Bool) (cs : List Char) : List Char :=
  (cs.take limit).takeWhile p

/-- An octal digit. -/
def isOctalDigit (c : Char) : Bool := '0' ≤ c && c ≤ '7'

/-- The escape sequence in front of a text, its backslash
included. -/
def escape? : List Char → Option (List Char)
  | '\\' :: 'x' :: rest =>
    let digits := takeAtMost 2 isHexDigit rest
    if digits.length = 2 then some ('\\' :: 'x' :: digits) else none
  | '\\' :: 'u' :: '\x7b' :: rest =>
    let digits := rest.takeWhile isHexDigit
    if digits ≠ [] ∧ (rest.dropWhile isHexDigit).head? = some '\x7d' then
      some ('\\' :: 'u' :: '\x7b' :: digits ++ ['\x7d'])
    else none
  | '\\' :: 'u' :: rest =>
    let digits := takeAtMost 4 isHexDigit rest
    if digits.length = 4 then some ('\\' :: 'u' :: digits) else none
  | '\\' :: '\r' :: '\n' :: _ => some ['\\', '\r', '\n']
  | '\\' :: c :: rest =>
    if isOctalDigit c then some ('\\' :: takeAtMost 3 isOctalDigit (c :: rest))
    else some ['\\', c]
  | _ => none

/-- The character reference in front of a text. -/
def reference? : List Char → Option (List Char)
  | '&' :: '#' :: x :: rest =>
    if x = 'x' ∨ x = 'X' then
      let digits := takeAtMost 6 isHexDigit rest
      if digits ≠ [] ∧ (rest.drop digits.length).head? = some ';' then
        some ('&' :: '#' :: x :: digits ++ [';'])
      else none
    else
      let digits := takeAtMost 5 isDigit (x :: rest)
      if digits ≠ [] ∧ ((x :: rest).drop digits.length).head? = some ';' then
        some ('&' :: '#' :: digits ++ [';'])
      else none
  | '&' :: rest =>
    let letters := takeAtMost 30 isLetter rest
    if letters ≠ [] ∧ (rest.drop letters.length).head? = some ';' then
      some ('&' :: letters ++ [';'])
    else none
  | _ => none

/-! ### Numbers -/

/-- Digits of a kind, with single underscores between them. -/
def digits (p : Char → Bool) : List Char → List Char
  | [] => []
  | '_' :: c :: rest => if p c then '_' :: c :: digits p rest else []
  | c :: rest => if p c then c :: digits p rest else []

/-- Digits in which no underscore comes first. -/
def digitRun (p : Char → Bool) (cs : List Char) : List Char :=
  if cs.head?.any p then digits p cs else []

/-- The exponent in front of a text. -/
def exponent (cs : List Char) : List Char :=
  match cs with
  | e :: rest =>
    if e = 'e' ∨ e = 'E' then
      let sign := takeAtMost 1 (fun c => c = '+' || c = '-') rest
      let run := digitRun isDigit (rest.drop sign.length)
      if run = [] then [] else e :: sign ++ run
    else []
  | [] => []

/-- The number in front of a text. -/
def numberAhead (cs : List Char) : List Char :=
  let prefixed (x : Char) (p : Char → Bool) (rest : List Char) : List Char :=
    let run := '0' :: x :: digitRun p rest
    if (cs.drop run.length).head? = some 'n' then run ++ ['n'] else run
  match cs with
  | '0' :: 'x' :: rest => prefixed 'x' isHexDigit rest
  | '0' :: 'X' :: rest => prefixed 'X' isHexDigit rest
  | '0' :: 'o' :: rest => prefixed 'o' isOctalDigit rest
  | '0' :: 'O' :: rest => prefixed 'O' isOctalDigit rest
  | '0' :: 'b' :: rest => prefixed 'b' (fun c => c = '0' || c = '1') rest
  | '0' :: 'B' :: rest => prefixed 'B' (fun c => c = '0' || c = '1') rest
  | _ =>
    let whole := digitRun isDigit cs
    match cs.drop whole.length with
    | 'n' :: _ => whole ++ ['n']
    | '.' :: rest =>
      let fraction := digitRun isDigit rest
      let read := whole ++ '.' :: fraction
      read ++ exponent (cs.drop read.length)
    | rest => whole ++ exponent rest

/-! ### Regular expressions -/

/-- The pattern of a regular expression up to its closing slash;
`inSet` holds between square brackets, where a slash closes
nothing. -/
def regexBody? (inSet : Bool) : List Char → Option (List Char)
  | [] => none
  | ['\\'] => none
  | '\\' :: c :: rest =>
    if c = '\n' then none else (regexBody? inSet rest).map fun t => '\\' :: c :: t
  | c :: rest =>
    if c = '\n' then none
    else if c = '/' && !inSet then some []
    else (regexBody? (if c = '[' then true else if c = ']' then false else inSet) rest).map (c :: ·)

namespace Parser

/-- The pieces between two quotes: runs of plain characters and
escapes. -/
def stringPiece (quote : Char) : Parser (Option (List Node)) := do
  let rest ← remaining
  let plain := rest.takeWhile fun c => c ≠ quote ∧ c ≠ '\\' ∧ c ≠ '\n' ∧ c ≠ '\r'
  if plain ≠ [] then return some [← leaf (.construct .stringFragment) plain]
  match escape? rest with
  | some text => return some [← leaf (.construct .escapeSequence) text]
  | none => return none

/-- Reads one character that must come next, without passing
blanks. -/
def immediate (c : Char) : Parser Node := do
  require ((← remaining).head? = some c)
  token [c]

/-- A quoted string. -/
def string : Parser Node := do
  skipBlanks
  let quote ← do
    match (← remaining).head? with
    | some c => if c = '"' || c = '\'' then pure c else refuse
    | none => refuse
  let opening ← token [quote]
  let pieces ← collect (stringPiece quote)
  return Node.branch .string (opening :: pieces ++ [← immediate quote])

/-- A quote comes next. -/
def isStringAhead : Parser Bool := do
  match ← ahead with
  | .mark m => return m = "\"" || m = "'"
  | _ => return false

/-- A character reference, or a run of characters up to one, in a
quoted value of markup. -/
def markupPiece (quote : Char) : Parser (Option (List Node)) := do
  let rest ← remaining
  match reference? rest with
  | some text => return some [← leaf (.construct .htmlCharacterReference) text]
  | none =>
    let plain := rest.takeWhile fun c => c ≠ quote ∧ c ≠ '&'
    let run := if plain = [] ∧ rest.head? = some '&' then ['&'] else plain
    if run = [] then return none
    return some [← leaf (.construct .stringFragment) run]

/-- A quoted value in markup. -/
def markupString : Parser Node := do
  skipBlanks
  let quote ← do
    match (← remaining).head? with
    | some c => if c = '"' || c = '\'' then pure c else refuse
    | none => refuse
  let opening ← token [quote]
  let pieces ← collect (markupPiece quote)
  return Node.branch .string (opening :: pieces ++ [← immediate quote])

/-- A number. -/
def number : Parser Node := do
  skipBlanks
  leaf (.construct .number) (numberAhead (← remaining))

/-- A regular expression. -/
def regex : Parser Node := do
  skipBlanks
  match ← remaining with
  | '/' :: rest =>
    match regexBody? false rest with
    | some body =>
      require (body ≠ [])
      let opening ← token ['/']
      let pattern ← leaf (.construct .regexPattern) body
      let closing ← token ['/']
      let flags := (← remaining).takeWhile fun c => 'a' ≤ c && c ≤ 'z'
      let flags ← if flags = [] then pure [] else do
        pure [← leaf (.construct .regexFlags) flags]
      return Node.branch .regex ([opening, pattern, closing] ++ flags)
    | none => refuse
  | _ => refuse

/-- Characters of a template that are neither an escape nor a
substitution nor its end. -/
def templateRun : List Char → List Char
  | '$' :: '\x7b' :: _ => []
  | c :: rest => if c = '\x60' || c = '\\' then [] else c :: templateRun rest
  | [] => []

/-- One piece of a template; `inside` reads what a substitution holds
and `whole` is the construct that a substitution is. -/
def templatePiece (whole : Construct) (inside : Parser Node) : Parser (Option (List Node)) := do
  let rest ← remaining
  match rest with
  | '$' :: '\x7b' :: _ =>
    let opening ← token ['$', '\x7b']
    let held ← enclosed inside
    let closing ← mark "\x7d"
    return some [Node.branch whole [opening, held, closing]]
  | _ =>
    let run := templateRun rest
    if run ≠ [] then return some [← leaf (.construct .stringFragment) run]
    match escape? rest with
    | some text => return some [← leaf (.construct .escapeSequence) text]
    | none => return none

/-- A template string; `inside` reads what a substitution holds. -/
def template (c whole : Construct) (inside : Parser Node) : Parser Node := do
  let opening ← mark "\x60"
  let pieces ← collect (templatePiece whole inside)
  return Node.branch c (opening :: pieces ++ [← immediate '\x60'])

end Parser

end ScriptRefactor.Grammar
