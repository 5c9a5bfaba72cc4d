import ScriptRefactor.Text.Basic

/-!
# `ScriptRefactor.Text.Utf8`: reading bytes as text

A file is binary if a zero byte stands among its first 8192 bytes.
Any other file is text: each well-formed UTF-8 sequence is its
character, and each longest beginning of a well-formed sequence that
does not go on is one replacement character. Line breaks are
normalized to a lone line feed.

* `decode` reads the bytes, `decodeText?` adds the binary check and
  the line breaks.
* `isWellFormed` tells whether a replacement character had to be
  put in.
-/

set_option autoImplicit false

namespace ScriptRefactor.Text.Utf8

/-! ### One sequence -/

/-- What stands at the front of a list of bytes: a character, or a
beginning that does not go on; `length` bytes belong to it. -/
structure Step where
  /-- The character, if the bytes are well formed. -/
  char? : Option Char
  /-- How many bytes were read. -/
  length : Nat

/-- A byte that continues a sequence. -/
def isContinuation (b : UInt8) : Bool := 0x80 ≤ b && b ≤ 0xBF

/-- The six bits that a continuation byte carries. -/
def bits (b : UInt8) : Nat := b.toNat % 64

/-- The range of second bytes that may follow the first byte of a
longer sequence: it excludes spellings that are too long, surrogates
and numbers past the last character. -/
def secondRange (b : UInt8) : UInt8 × UInt8 :=
  if b = 0xE0 then (0xA0, 0xBF)
  else if b = 0xED then (0x80, 0x9F)
  else if b = 0xF0 then (0x90, 0xBF)
  else if b = 0xF4 then (0x80, 0x8F)
  else (0x80, 0xBF)

/-- The second byte may follow the first. -/
def isSecond (first second : UInt8) : Bool :=
  (secondRange first).1 ≤ second && second ≤ (secondRange first).2

/-- Reads the sequence that starts with `first`. -/
def step (first : UInt8) (rest : List UInt8) : Step :=
  if first < 0x80 then ⟨some (Char.ofNat first.toNat), 1⟩
  else if 0xC2 ≤ first && first ≤ 0xDF then
    match rest with
    | b :: _ =>
      if isContinuation b then ⟨some (Char.ofNat (first.toNat % 32 * 64 + bits b)), 2⟩
      else ⟨none, 1⟩
    | [] => ⟨none, 1⟩
  else if 0xE0 ≤ first && first ≤ 0xEF then
    match rest with
    | b :: c :: _ =>
      if !isSecond first b then ⟨none, 1⟩
      else if isContinuation c then
        ⟨some (Char.ofNat ((first.toNat % 16 * 64 + bits b) * 64 + bits c)), 3⟩
      else ⟨none, 2⟩
    | [b] => ⟨none, if isSecond first b then 2 else 1⟩
    | [] => ⟨none, 1⟩
  else if 0xF0 ≤ first && first ≤ 0xF4 then
    match rest with
    | b :: c :: d :: _ =>
      if !isSecond first b then ⟨none, 1⟩
      else if !isContinuation c then ⟨none, 2⟩
      else if isContinuation d then
        ⟨some (Char.ofNat (((first.toNat % 8 * 64 + bits b) * 64 + bits c) * 64 + bits d)), 4⟩
      else ⟨none, 3⟩
    | [b, c] =>
      ⟨none, if !isSecond first b then 1 else if isContinuation c then 3 else 2⟩
    | [b] => ⟨none, if isSecond first b then 2 else 1⟩
    | [] => ⟨none, 1⟩
  else ⟨none, 1⟩

/-! ### A whole file -/

/-- The sequences of a list of bytes, of which the first `skip` were
read with the sequence before them. -/
def steps : Nat → List UInt8 → List (Option Char)
  | _, [] => []
  | skip + 1, _ :: bs => steps skip bs
  | 0, b :: bs => (step b bs).char? :: steps ((step b bs).length - 1) bs

/-- The text of the bytes, with a replacement character for each
sequence that is not well formed. -/
def decode (bytes : List UInt8) : String :=
  String.ofList ((steps 0 bytes).map fun c => c.getD (Char.ofNat 0xFFFD))

/-- Every byte belongs to a well-formed sequence. -/
def isWellFormed (bytes : List UInt8) : Bool := (steps 0 bytes).all Option.isSome

/-- Every carriage return with a line feed behind it is dropped. -/
def foldBreaks : List Char → List Char
  | [] => []
  | c :: cs => if c = '\r' ∧ cs.head? = some '\n' then foldBreaks cs else c :: foldBreaks cs

/-- The text with line feeds for its line breaks. A carriage return
that no line feed follows stays. -/
def foldLineBreaks (text : String) : String := String.ofList (foldBreaks text.toList)

/-- A zero byte stands among the first 8192 bytes. -/
def isBinary (bytes : List UInt8) : Bool := (bytes.take 8192).any (· == 0)

/-- The text of a file, unless it is binary. -/
def decodeText? (bytes : List UInt8) : Option String :=
  if isBinary bytes then none else some (foldLineBreaks (decode bytes))

end ScriptRefactor.Text.Utf8
