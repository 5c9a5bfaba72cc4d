import ScriptRefactor.Proofs.Text.Floor
import ScriptRefactor.Proofs.Text.Utf8

/-!
# `ScriptRefactor.Proofs.Text.Bytes`: positions among the bytes of a text

A text is stored as its UTF-8 bytes, and where a character starts can only be
seen on the bytes themselves: the first byte of a character continues
nothing, and all others do (`utf8EncodeChar_eq_cons`). So a position between
two characters is one at an end or in front of a byte that continues nothing
(`isCharBoundary_encode_iff`), and a line feed is a byte of its own
(`getElem?_encode_eq_lineFeed_iff`).
-/

set_option autoImplicit false

namespace ScriptRefactor.Text

open Utf8

/-- The bytes of a text. -/
def encode (cs : List Char) : List UInt8 := cs.flatMap String.utf8EncodeChar

/-- The bytes can be cut at the index: it is one of their ends, or the byte
behind it continues no character. -/
def isCharBoundary (bytes : List UInt8) (i : Nat) : Bool :=
  i = 0 ||
    match bytes[i]? with
    | some b => !isContinuation b
    | none => i = bytes.length

/-! ### The bytes of a character -/

/-- The first byte of a character does not continue one, and the others
do. -/
theorem utf8EncodeChar_eq_cons (c : Char) :
    ∃ first others, String.utf8EncodeChar c = first :: others ∧ isContinuation first = false ∧
      ∀ b ∈ others, isContinuation b = true := by
  have hv := val_range c
  rw [String.utf8EncodeChar]
  generalize c.val.toNat = v at hv
  have hfirst : ∀ n, n < 0x80 ∨ 0xC0 ≤ n → n < 256 → isContinuation (UInt8.ofNat n) = false := by
    intro n hn hlt
    rw [Bool.eq_false_iff, ne_eq, isContinuation_iff, toNat_ofNat_of_lt hlt]
    omega
  -- By the number of bytes; all but the first carry six bits.
  by_cases h1 : v ≤ 0x7f
  · exact ⟨_, [], if_pos h1, hfirst _ (by omega) (by omega), by simp⟩
  · simp only [if_neg h1]
    by_cases h2 : v ≤ 0x7ff
    · refine ⟨_, [_], if_pos h2, hfirst _ (by omega) (by omega), ?_⟩
      simp [-UInt8.ofNat_add, isContinuation_ofNat]
    · simp only [if_neg h2]
      by_cases h3 : v ≤ 0xffff
      · refine ⟨_, [_, _], if_pos h3, hfirst _ (by omega) (by omega), ?_⟩
        simp [-UInt8.ofNat_add, isContinuation_ofNat]
      · refine ⟨_, [_, _, _], if_neg h3, hfirst _ (by omega) (by omega), ?_⟩
        simp [-UInt8.ofNat_add, isContinuation_ofNat]

/-- Only the line feed starts with its byte. -/
theorem eq_lineFeed_of_utf8EncodeChar {c : Char} {others : List UInt8}
    (h : String.utf8EncodeChar c = 10 :: others) : c = '\n' := by
  obtain ⟨first, others, hbytes, hstep⟩ := step_utf8EncodeChar c
  obtain ⟨rfl, -⟩ := List.cons.inj (h.symm.trans hbytes)
  -- A byte below 128 is read as a character of its own.
  have hread := (step_one (by decide) (others ++ [])).symm.trans (hstep [])
  exact Option.some.inj (congrArg Step.char? hread).symm

/-! ### The bytes of a text -/

@[simp] theorem encode_nil : encode [] = [] := rfl

@[simp] theorem encode_cons (c : Char) (cs : List Char) :
    encode (c :: cs) = String.utf8EncodeChar c ++ encode cs := rfl

@[simp] theorem encode_append (as bs : List Char) : encode (as ++ bs) = encode as ++ encode bs :=
  List.flatMap_append

@[simp] theorem length_encode (cs : List Char) : (encode cs).length = byteSize cs := by
  induction cs with
  | nil => rfl
  | cons c cs ih => rw [encode_cons, List.length_append, ih, String.length_utf8EncodeChar,
      byteSize_cons]

theorem isWellFormed_encode (cs : List Char) : isWellFormed (encode cs) = true := by
  rw [isWellFormed, encode, steps_flatMap_utf8EncodeChar]
  simp

/-- The bytes behind a part of a text are those of the rest. -/
theorem getElem?_encode_append (as bs : List Char) (i : Nat) :
    (encode (as ++ bs))[byteSize as + i]? = (encode bs)[i]? := by
  rw [encode_append, List.getElem?_append_right (by simp), length_encode, Nat.add_sub_cancel_left]

/-- The bytes of a text can be cut between two characters, and nowhere
else. -/
theorem isCharBoundary_encode_iff {cs : List Char} {i : Nat} :
    isCharBoundary (encode cs) i = true ↔
      ∃ before after, cs = before ++ after ∧ byteSize before = i := by
  constructor
  · intro h
    have hcut := cutBefore_fst_append_snd cs i
    refine ⟨_, _, hcut.symm, ?_⟩
    rcases Nat.lt_or_eq_of_le (floorPos_le cs i) with hlt | heq
    case inr => exact heq
    obtain ⟨k, hk⟩ := Nat.exists_eq_add_of_lt hlt
    have hbyte := getElem?_encode_append (cutBefore cs i).1 (cutBefore cs i).2 (k + 1)
    rw [hcut, ← Nat.add_assoc, ← floorPos, ← hk] at hbyte
    rw [isCharBoundary, Bool.or_eq_true, decide_eq_true_eq, or_iff_right (by omega), hbyte] at h
    cases hrest : (cutBefore cs i).2 with
    | nil =>
        -- Past the end.
        have hsize := congrArg byteSize hcut
        rw [hrest, List.append_nil] at hsize
        simp only [hrest, encode_nil, List.getElem?_nil, length_encode, decide_eq_true_eq] at h
        exact hsize.trans h.symm
    | cons c rest =>
        -- Inside the next character.
        obtain ⟨first, others, hchar, -, hothers⟩ := utf8EncodeChar_eq_cons c
        have hnext := lt_floorPos_add hrest
        have hlen := String.length_utf8EncodeChar c
        rw [hchar, List.length_cons] at hlen
        have hin : k < others.length := by omega
        rw [hrest, encode_cons, hchar, List.cons_append, List.getElem?_cons_succ,
          List.getElem?_append_left hin, List.getElem?_eq_getElem hin] at h
        simp [hothers _ (List.getElem_mem hin)] at h
  · rintro ⟨before, after, rfl, rfl⟩
    have hbyte := getElem?_encode_append before after 0
    rw [Nat.add_zero] at hbyte
    rw [isCharBoundary, hbyte]
    cases after with
    | nil => simp
    | cons c after =>
        obtain ⟨first, others, hchar, hfirst, -⟩ := utf8EncodeChar_eq_cons c
        simp [hchar, hfirst]

theorem isCharBoundary_floorPos (cs : List Char) (n : Nat) :
    isCharBoundary (encode cs) (floorPos cs n) = true :=
  isCharBoundary_encode_iff.mpr ⟨_, _, (cutBefore_fst_append_snd cs n).symm, rfl⟩

/-- The bytes are cut where the text is. -/
theorem take_floorPos_encode (cs : List Char) (n : Nat) :
    (encode cs).take (floorPos cs n) = encode (cutBefore cs n).1 := by
  have hcut := congrArg encode (cutBefore_fst_append_snd cs n)
  rw [encode_append] at hcut
  rw [← hcut, floorPos, ← length_encode, List.take_left]

theorem drop_floorPos_encode (cs : List Char) (n : Nat) :
    (encode cs).drop (floorPos cs n) = encode (cutBefore cs n).2 := by
  have hcut := congrArg encode (cutBefore_fst_append_snd cs n)
  rw [encode_append] at hcut
  rw [← hcut, floorPos, ← length_encode, List.drop_left]

/-- The byte of a line feed is one, wherever it stands. -/
theorem getElem?_encode_eq_lineFeed_iff {text : String} {i : Nat} :
    (encode text.toList)[i]? = some 10 ↔ hasCharAt text i '\n' = true := by
  rw [hasCharAt_iff]
  constructor
  · intro h
    have hcut : isCharBoundary (encode text.toList) i = true := by
      rw [isCharBoundary, h]
      simp [isContinuation]
    obtain ⟨before, after, htext, rfl⟩ := isCharBoundary_encode_iff.mp hcut
    rw [htext, ← Nat.add_zero (byteSize before), getElem?_encode_append] at h
    cases after with
    | nil => cases h
    | cons c after =>
        obtain ⟨first, others, hchar, -, -⟩ := utf8EncodeChar_eq_cons c
        rw [encode_cons, hchar, List.cons_append, List.getElem?_cons_zero] at h
        obtain rfl := Option.some.inj h
        obtain rfl := eq_lineFeed_of_utf8EncodeChar hchar
        exact ⟨before, after, htext, rfl⟩
  · rintro ⟨before, after, htext, rfl⟩
    rw [htext, ← Nat.add_zero (byteSize before), getElem?_encode_append]
    rfl

end ScriptRefactor.Text
