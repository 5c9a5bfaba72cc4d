import ScriptRefactor.Text.Basic
import ScriptRefactor.Toml.Value

/-!
# `ScriptRefactor.Toml.Literal`: strings, numbers and dates of TOML

A string stands between quotes: double ones allow escapes, single
ones do not, and three of either kind allow line breaks. Any other
value that is neither an array nor a table is a word, and its form
tells what it is: a truth value, an integer in one of four bases, a
number with a fraction or an exponent, a date or a time.
-/

set_option autoImplicit false

namespace ScriptRefactor.Toml

/-! ### Strings -/

/-- A character that a string on one line may hold. -/
def isPlain (c : Char) : Bool := c = '\t' || (' ' ≤ c && c.toNat ≠ 127)

/-- The value of a hexadecimal digit. -/
def hexValue? (c : Char) : Option Nat :=
  if '0' ≤ c ∧ c ≤ '9' then some (c.toNat - '0'.toNat)
  else if 'a' ≤ c ∧ c ≤ 'f' then some (c.toNat - 'a'.toNat + 10)
  else if 'A' ≤ c ∧ c ≤ 'F' then some (c.toNat - 'A'.toNat + 10)
  else none

/-- The number that hexadecimal digits write. -/
def hexNumber? (cs : List Char) : Option Nat :=
  cs.foldlM (fun n c => (hexValue? c).map (16 * n + ·)) 0

/-- The character of a number. -/
def charOf? (n : Nat) : Option Char := if n.isValidChar then some (Char.ofNat n) else none

/-- The character of an escape that takes `n` hexadecimal digits, with
the number of characters read. -/
def numbered? (n : Nat) (cs : List Char) : Option (Char × Nat) :=
  if (cs.take n).length = n then
    ((hexNumber? (cs.take n)).bind charOf?).map fun c => (c, n + 1)
  else none

/-- The character of an escape, what follows the `\` being given, with
the number of characters read. -/
def escape? : List Char → Option (Char × Nat)
  | 'b' :: _ => some (Char.ofNat 8, 1)
  | 't' :: _ => some ('\t', 1)
  | 'n' :: _ => some ('\n', 1)
  | 'f' :: _ => some (Char.ofNat 12, 1)
  | 'r' :: _ => some ('\r', 1)
  | '"' :: _ => some ('"', 1)
  | '\\' :: _ => some ('\\', 1)
  | 'u' :: cs => numbered? 4 cs
  | 'U' :: cs => numbered? 8 cs
  | _ => none

/-- The rest of a list, with the characters in front put before what
was read of it. -/
def also (c : Char) (r : Option (List Char × List Char)) : Option (List Char × List Char) :=
  r.map fun (inside, rest) => (c :: inside, rest)

/-- Reads a string on one line up to its quote; `skip` characters
belong to an escape. -/
def readLine (quote : Char) : Nat → List Char → Option (List Char × List Char)
  | _, [] => none
  | skip + 1, _ :: cs => readLine quote skip cs
  | 0, c :: cs =>
    if c = quote then some ([], cs)
    else if c = '\\' ∧ quote = '"' then
      match escape? cs with
      | some (e, n) => also e (readLine quote n cs)
      | none => none
    else if isPlain c then also c (readLine quote 0 cs)
    else none

/-- The number of characters that a `\` at the end of a line takes
away: up to the next character that is no blank. -/
def blankRun? (cs : List Char) : Option Nat :=
  let spaces := cs.takeWhile fun c => c = ' ' || c = '\t'
  let rest := cs.drop spaces.length
  if rest.head? = some '\n' ∨ rest.take 2 = ['\r', '\n'] then
    some (cs.takeWhile fun c => c = ' ' || c = '\t' || c = '\n' || c = '\r').length
  else none

/-- Reads a string over lines up to its three quotes, of which up to
two more may stand in front. -/
def readLines (quote : Char) : Nat → List Char → Option (List Char × List Char)
  | _, [] => none
  | skip + 1, _ :: cs => readLines quote skip cs
  | 0, c :: cs =>
    if c = quote ∧ cs.take 2 = [quote, quote] then
      let more := ((cs.drop 2).takeWhile (· = quote)).length
      if more ≤ 2 then some (List.replicate more quote, cs.drop (2 + more)) else none
    else if c = '\\' ∧ quote = '"' then
      match escape? cs, blankRun? cs with
      | some (e, n), _ => also e (readLines quote n cs)
      | none, some n => readLines quote n cs
      | none, none => none
    else if c = '\n' then also c (readLines quote 0 cs)
    else if c = '\r' then
      if cs.head? = some '\n' then also '\n' (readLines quote 1 cs) else none
    else if isPlain c then also c (readLines quote 0 cs)
    else none

/-- The text without a line break in front. -/
def dropBreak : List Char → List Char
  | '\n' :: cs => cs
  | '\r' :: '\n' :: cs => cs
  | cs => cs

/-- Reads a string whose first quote was read. -/
def readString (quote : Char) (cs : List Char) : Option (List Char × List Char) :=
  if cs.take 2 = [quote, quote] then readLines quote 0 (dropBreak (cs.drop 2))
  else readLine quote 0 cs

/-! ### Words -/

/-- The digits of a number of a base, without the underscores between
them. -/
def digits? (base : Nat) : List Char → Option (List Nat)
  | [] => none
  | [c] => (digit? c).map ([·])
  | c :: '_' :: cs => do return (← digit? c) :: (← digits? base cs)
  | c :: cs => do return (← digit? c) :: (← digits? base cs)
where
  /-- The value of a digit. -/
  digit? (c : Char) : Option Nat := (hexValue? c).bind fun n => if n < base then some n else none

/-- The number that digits of a base write. -/
def natural? (base : Nat) (cs : List Char) : Option Nat :=
  (digits? base cs).map fun ds => ds.foldl (fun n d => base * n + d) 0

/-- The decimal number that digits write; it has no zero in front. -/
def decimal? (cs : List Char) : Option Nat :=
  if cs.head? = some '0' ∧ cs ≠ ['0'] then none else natural? 10 cs

/-- The sign in front of a word and what follows it. -/
def sign : List Char → Bool × List Char
  | '-' :: cs => (true, cs)
  | '+' :: cs => (false, cs)
  | cs => (false, cs)

/-- The integer that a word writes. -/
def integer? (cs : List Char) : Option Int :=
  match cs with
  | '0' :: 'x' :: ds => (natural? 16 ds).map Int.ofNat
  | '0' :: 'o' :: ds => (natural? 8 ds).map Int.ofNat
  | '0' :: 'b' :: ds => (natural? 2 ds).map Int.ofNat
  | _ =>
    let (negative, ds) := sign cs
    (decimal? ds).map fun n => if negative then -(n : Int) else n

/-- The integers that fit 64 bits. -/
def fits (n : Int) : Bool := -9223372036854775808 ≤ n && n ≤ 9223372036854775807

/-- The text in front of the first character for which `p` holds, and
the text behind it. -/
def cutAtChar? (p : Char → Bool) (cs : List Char) : Option (List Char × List Char) :=
  match cs.dropWhile (!p ·) with
  | _ :: rest => some (cs.takeWhile (!p ·), rest)
  | [] => none

/-- The word is an exponent: digits behind a sign. -/
def isExponent (cs : List Char) : Bool := (natural? 10 (sign cs).2).isSome

/-- The word is a number with a fraction or an exponent. -/
def isFloat (cs : List Char) : Bool :=
  let cs := (sign cs).2
  let isE (c : Char) : Bool := c = 'e' || c = 'E'
  let (mantissa, exponent?) := match cutAtChar? isE cs with
    | some (m, e) => (m, some e)
    | none => (cs, none)
  let goodExponent := match exponent? with
    | some e => isExponent e
    | none => true
  cs = "inf".toList || cs = "nan".toList || goodExponent &&
    match cutAtChar? (· = '.') mantissa with
    | some (whole, fraction) => (decimal? whole).isSome && (natural? 10 fraction).isSome
    | none => exponent?.isSome && (decimal? mantissa).isSome

/-- The number that exactly `n` digits write. -/
def fixed? (n : Nat) (cs : List Char) : Option Nat :=
  if cs.length = n ∧ cs.all Char.isDigit then natural? 10 cs else none

/-- The number of days of a month. -/
def daysIn (year month : Nat) : Nat :=
  if month = 2 then
    if year % 4 = 0 ∧ (year % 100 ≠ 0 ∨ year % 400 = 0) then 29 else 28
  else if month = 4 ∨ month = 6 ∨ month = 9 ∨ month = 11 then 30
  else 31

/-- The word is a date. -/
def isDate (cs : List Char) : Bool :=
  match (Text.splitOn '-' cs) with
  | [y, m, d] =>
    match fixed? 4 y, fixed? 2 m, fixed? 2 d with
    | some y, some m, some d => 1 ≤ m && m ≤ 12 && 1 ≤ d && d ≤ daysIn y m
    | _, _, _ => false
  | _ => false

/-- The word is a time of a day. -/
def isTime (cs : List Char) : Bool :=
  let (main, goodFraction) := match cutAtChar? (· = '.') cs with
    | some (main, fraction) => (main, !fraction.isEmpty && fraction.all Char.isDigit)
    | none => (cs, true)
  goodFraction &&
    match Text.splitOn ':' main with
    | [h, m, s] =>
      match fixed? 2 h, fixed? 2 m, fixed? 2 s with
      | some h, some m, some s => h ≤ 23 && m ≤ 59 && s ≤ 60
      | _, _, _ => false
    | _ => false

/-- The word is a time of a day, with the distance from universal time
if it is given. -/
def isZonedTime (cs : List Char) : Bool :=
  isTime cs ||
    match cs.reverse with
    | 'Z' :: before | 'z' :: before => isTime before.reverse
    | _ =>
      match cutAtChar? (fun c => c = '+' || c = '-') cs with
      | some (time, zone) =>
        isTime time &&
          match Text.splitOn ':' zone with
          | [h, m] =>
            match fixed? 2 h, fixed? 2 m with
            | some h, some m => h ≤ 23 && m ≤ 59
            | _, _ => false
          | _ => false
      | none => false

/-- The word is a date, a time or both. -/
def isMoment (cs : List Char) : Bool :=
  isDate cs || isTime cs ||
    (isDate (cs.take 10) && (["T", "t", " "].map String.toList).contains ((cs.drop 10).take 1)
      && isZonedTime (cs.drop 11))

/-- The value that a word writes. -/
def word? (cs : List Char) : Option Toml :=
  if cs = "true".toList ∨ cs = "false".toList then some .scalar
  else
    match integer? cs with
    | some n => if fits n then some (.integer n) else none
    | none => if isFloat cs then some .scalar else if isMoment cs then some .moment else none

end ScriptRefactor.Toml
