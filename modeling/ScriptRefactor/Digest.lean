/-!
# `ScriptRefactor.Digest`: a 64-bit digest of bytes

The XXH3 digest with seed 0. How the bytes are mixed depends on how
many there are: up to 3, 8 or 16 bytes are read as one or two
overlapping words, up to 240 in pieces of 16 bytes, and longer inputs
in stripes of 64 bytes that feed eight lanes.
-/

set_option autoImplicit false

namespace ScriptRefactor.Digest

/-! ### Constants -/

/-- The bytes that key the mixing. -/
def secret : Array UInt8 := #[
  0xb8, 0xfe, 0x6c, 0x39, 0x23, 0xa4, 0x4b, 0xbe, 0x7c, 0x01, 0x81, 0x2c, 0xf7, 0x21, 0xad, 0x1c,
  0xde, 0xd4, 0x6d, 0xe9, 0x83, 0x90, 0x97, 0xdb, 0x72, 0x40, 0xa4, 0xa4, 0xb7, 0xb3, 0x67, 0x1f,
  0xcb, 0x79, 0xe6, 0x4e, 0xcc, 0xc0, 0xe5, 0x78, 0x82, 0x5a, 0xd0, 0x7d, 0xcc, 0xff, 0x72, 0x21,
  0xb8, 0x08, 0x46, 0x74, 0xf7, 0x43, 0x24, 0x8e, 0xe0, 0x35, 0x90, 0xe6, 0x81, 0x3a, 0x26, 0x4c,
  0x3c, 0x28, 0x52, 0xbb, 0x91, 0xc3, 0x00, 0xcb, 0x88, 0xd0, 0x65, 0x8b, 0x1b, 0x53, 0x2e, 0xa3,
  0x71, 0x64, 0x48, 0x97, 0xa2, 0x0d, 0xf9, 0x4e, 0x38, 0x19, 0xef, 0x46, 0xa9, 0xde, 0xac, 0xd8,
  0xa8, 0xfa, 0x76, 0x3f, 0xe3, 0x9c, 0x34, 0x3f, 0xf9, 0xdc, 0xbb, 0xc7, 0xc7, 0x0b, 0x4f, 0x1d,
  0x8a, 0x51, 0xe0, 0x4b, 0xcd, 0xb4, 0x59, 0x31, 0xc8, 0x9f, 0x7e, 0xc9, 0xd9, 0x78, 0x73, 0x64,
  0xea, 0xc5, 0xac, 0x83, 0x34, 0xd3, 0xeb, 0xc3, 0xc5, 0x81, 0xa0, 0xff, 0xfa, 0x13, 0x63, 0xeb,
  0x17, 0x0d, 0xdd, 0x51, 0xb7, 0xf0, 0xda, 0x49, 0xd3, 0x16, 0x55, 0x26, 0x29, 0xd4, 0x68, 0x9e,
  0x2b, 0x16, 0xbe, 0x58, 0x7d, 0x47, 0xa1, 0xfc, 0x8f, 0xf8, 0xb8, 0xd1, 0x7a, 0xd0, 0x31, 0xce,
  0x45, 0xcb, 0x3a, 0x8f, 0x95, 0x16, 0x04, 0x28, 0xaf, 0xd7, 0xfb, 0xca, 0xbb, 0x4b, 0x40, 0x7e]

/-- The primes of 32 bits. -/
def prime32 : Nat → UInt64
  | 1 => 0x9E3779B1
  | 2 => 0x85EBCA77
  | _ => 0xC2B2AE3D

/-- The primes of 64 bits. -/
def prime64 : Nat → UInt64
  | 1 => 0x9E3779B185EBCA87
  | 2 => 0xC2B2AE3D27D4EB4F
  | 3 => 0x165667B19E3779F9
  | 4 => 0x85EBCA77C2B2AE63
  | _ => 0x27D4EB2F165667C5

/-! ### Words -/

/-- The byte at a position. -/
def byteAt (bytes : Array UInt8) (i : Nat) : UInt64 := ((bytes[i]?).getD 0).toUInt64

/-- The number that `n` bytes write, the lowest one first. -/
def word (bytes : Array UInt8) (i : Nat) : Nat → UInt64
  | 0 => 0
  | n + 1 => byteAt bytes i ||| (word bytes (i + 1) n <<< 8)

/-- The number of 32 bits at a position. -/
def word32 (bytes : Array UInt8) (i : Nat) : UInt64 := word bytes i 4

/-- The number of 64 bits at a position. -/
def word64 (bytes : Array UInt8) (i : Nat) : UInt64 := word bytes i 8

/-- The bytes of a number in the other order. -/
def swapBytes (n : UInt64) : UInt64 :=
  (List.range 8).foldl (fun m i => (m <<< 8) ||| ((n >>> (8 * i).toUInt64) &&& 0xFF)) 0

/-- The bits turned to the left. -/
def rotate (n k : UInt64) : UInt64 := (n <<< k) ||| (n >>> (64 - k))

/-- The two halves of the product of 128 bits, combined. -/
def foldProduct (a b : UInt64) : UInt64 :=
  let product := a.toNat * b.toNat
  (product % Nat.pow 2 64).toUInt64 ^^^ (product / Nat.pow 2 64).toUInt64

/-! ### Mixing -/

/-- The last mixing of short inputs. -/
def avalancheShort (h : UInt64) : UInt64 :=
  let h := (h ^^^ (h >>> 33)) * prime64 2
  let h := (h ^^^ (h >>> 29)) * prime64 3
  h ^^^ (h >>> 32)

/-- The last mixing of long inputs. -/
def avalanche (h : UInt64) : UInt64 :=
  let h := (h ^^^ (h >>> 37)) * 0x165667919E3779F9
  h ^^^ (h >>> 32)

/-- The last mixing of inputs of 4 to 8 bytes. -/
def avalancheWord (h length : UInt64) : UInt64 :=
  let h := (h ^^^ rotate h 49 ^^^ rotate h 24) * 0x9FB21C651E98DF25
  let h := (h ^^^ ((h >>> 35) + length)) * 0x9FB21C651E98DF25
  h ^^^ (h >>> 28)

/-- Sixteen bytes mixed with the secret from a position on. -/
def mix16 (bytes : Array UInt8) (i key : Nat) : UInt64 :=
  foldProduct (word64 bytes i ^^^ word64 secret key)
    (word64 bytes (i + 8) ^^^ word64 secret (key + 8))

/-! ### Short inputs -/

/-- The digest of at most 16 bytes. -/
def ofAtMost16 (bytes : Array UInt8) : UInt64 :=
  let n := bytes.size
  let length := n.toUInt64
  if n = 0 then avalancheShort (word64 secret 56 ^^^ word64 secret 64)
  else if n ≤ 3 then
    let combined := (byteAt bytes 0 <<< 16) ||| (byteAt bytes (n / 2) <<< 24)
      ||| byteAt bytes (n - 1) ||| (length <<< 8)
    avalancheShort (combined ^^^ (word32 secret 0 ^^^ word32 secret 4))
  else if n ≤ 8 then
    let combined := word32 bytes (n - 4) + (word32 bytes 0 <<< 32)
    avalancheWord (combined ^^^ (word64 secret 8 ^^^ word64 secret 16)) length
  else
    let low := word64 bytes 0 ^^^ (word64 secret 24 ^^^ word64 secret 32)
    let high := word64 bytes (n - 8) ^^^ (word64 secret 40 ^^^ word64 secret 48)
    avalanche (length + swapBytes low + high + foldProduct low high)

/-- The digest of 17 to 128 bytes: pairs of pieces from both ends. -/
def ofAtMost128 (bytes : Array UInt8) : UInt64 :=
  let n := bytes.size
  let pairs := (n - 1) / 32 + 1
  avalanche ((List.range pairs).foldl (fun h i =>
    h + mix16 bytes (16 * i) (32 * i) + mix16 bytes (n - 16 * (i + 1)) (32 * i + 16))
    (n.toUInt64 * prime64 1))

/-- The digest of 129 to 240 bytes: all pieces, and the last one
again. -/
def ofAtMost240 (bytes : Array UInt8) : UInt64 :=
  let n := bytes.size
  let first := (List.range 8).foldl (fun h i => h + mix16 bytes (16 * i) (16 * i))
    (n.toUInt64 * prime64 1)
  let others := (List.range (n / 16 - 8)).foldl (fun h i =>
    h + mix16 bytes (16 * (i + 8)) (16 * i + 3)) (avalanche first)
  avalanche (others + mix16 bytes (n - 16) 119)

/-! ### Long inputs -/

/-- The eight lanes. -/
abbrev Lanes : Type := Array UInt64

/-- The lanes in the beginning. -/
def Lanes.start : Lanes :=
  #[prime32 3, prime64 1, prime64 2, prime64 3, prime64 4, prime32 2, prime64 5, prime32 1]

/-- A lane. -/
def Lanes.lane (l : Lanes) (i : Nat) : UInt64 := (l[i]?).getD 0

/-- A stripe of 64 bytes fed into the lanes: each word goes into the
neighbour of its lane, and the product of its keyed halves into the
lane. -/
def Lanes.feed (l : Lanes) (bytes : Array UInt8) (i key : Nat) : Lanes :=
  (Array.range 8).map fun k =>
    let keyed := word64 bytes (i + 8 * k) ^^^ word64 secret (key + 8 * k)
    let neighbour := if k % 2 = 0 then k + 1 else k - 1
    l.lane k + word64 bytes (i + 8 * neighbour) + (keyed &&& (0xFFFFFFFF : UInt64)) * (keyed >>> 32)

/-- Stripes from a position on fed into the lanes. -/
def Lanes.feedStripes (l : Lanes) (bytes : Array UInt8) (i stripes : Nat) : Lanes :=
  (List.range stripes).foldl (fun l k => l.feed bytes (i + 64 * k) (8 * k)) l

/-- The lanes stirred after a block. -/
def Lanes.stir (l : Lanes) : Lanes :=
  (Array.range 8).map fun k =>
    let a := l.lane k
    ((a ^^^ (a >>> 47)) ^^^ word64 secret (128 + 8 * k)) * prime32 1

/-- The lanes as one number. -/
def Lanes.merge (l : Lanes) (length : UInt64) : UInt64 :=
  avalanche ((List.range 4).foldl (fun h i =>
    h + foldProduct (l.lane (2 * i) ^^^ word64 secret (11 + 16 * i))
      (l.lane (2 * i + 1) ^^^ word64 secret (19 + 16 * i))) (length * prime64 1))

/-- The digest of more than 240 bytes. A block has 16 stripes; the
last 64 bytes make a stripe of their own. -/
def ofLong (bytes : Array UInt8) : UInt64 :=
  let n := bytes.size
  let blocks := (n - 1) / 1024
  let l := (List.range blocks).foldl (fun l b => (l.feedStripes bytes (1024 * b) 16).stir)
    Lanes.start
  let l := l.feedStripes bytes (1024 * blocks) ((n - 1 - 1024 * blocks) / 64)
  (l.feed bytes (n - 64) 121).merge n.toUInt64

/-! ### Any input -/

/-- The digest of some bytes. -/
def ofBytes (bytes : Array UInt8) : UInt64 :=
  if bytes.size ≤ 16 then ofAtMost16 bytes
  else if bytes.size ≤ 128 then ofAtMost128 bytes
  else if bytes.size ≤ 240 then ofAtMost240 bytes
  else ofLong bytes

/-- The digest of the bytes of a text. -/
def ofText (text : String) : UInt64 :=
  ofBytes (text.toList.flatMap String.utf8EncodeChar).toArray

/-- A hexadecimal digit. -/
def hexDigit (n : Nat) : Char := if n < 10 then Char.ofNat (48 + n) else Char.ofNat (87 + n)

/-- A digest in sixteen hexadecimal digits. -/
def hex (h : UInt64) : String :=
  String.ofList ((List.range 16).map fun i => hexDigit (h.toNat / Nat.pow 16 (15 - i) % 16))

end ScriptRefactor.Digest
