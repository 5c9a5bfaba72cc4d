import Mathlib.Tactic.SplitIfs
import ScriptRefactor.Text.Utf8

/-!
# `ScriptRefactor.Proofs.Text.Utf8`: what is written is read again

A text written as UTF-8 is read back character by character
(`decode_flatMap_utf8EncodeChar`): the encoding of a character is one
step of the reader, whatever follows it (`step_utf8EncodeChar`). So a
file holds the text that was written to it, up to its line breaks
(`decodeText?_flatMap_utf8EncodeChar`). It keeps its line breaks if no
line feed follows a carriage return (`foldLineBreaks_eq_self`).
-/

set_option autoImplicit false

namespace ScriptRefactor.Text.Utf8

/-! ### Bytes by their numbers -/

/-- A continuation byte lies between 128 and 191. -/
theorem isContinuation_iff (b : UInt8) :
    isContinuation b = true ↔ 0x80 ≤ b.toNat ∧ b.toNat ≤ 0xBF := by
  simp [isContinuation, UInt8.le_iff_toNat_le]

/-- The bounds of a second byte, by the number of the first. -/
theorem isSecond_iff (a b : UInt8) : isSecond a b = true ↔
    (if a.toNat = 0xE0 then 0xA0 else if a.toNat = 0xF0 then 0x90 else 0x80) ≤ b.toNat ∧
      b.toNat ≤ (if a.toNat = 0xED then 0x9F else if a.toNat = 0xF4 then 0x8F else 0xBF) := by
  simp only [isSecond, secondRange, Bool.and_eq_true, decide_eq_true_eq, UInt8.le_iff_toNat_le,
    ← UInt8.toNat_inj]
  simp only [UInt8.reduceToNat]
  split_ifs <;> simp_all

/-- A number that fits in a byte is the number of its byte. -/
theorem toNat_ofNat_of_lt {n : Nat} (h : n < 256) : (UInt8.ofNat n).toNat = n := by
  simp [h]

/-- The last six bits of a number go into a continuation byte. -/
theorem isContinuation_ofNat (n : Nat) :
    isContinuation (UInt8.ofNat (n % 64 + 128)) = true := by
  rw [isContinuation_iff, toNat_ofNat_of_lt (by omega)]
  omega

/-- A continuation byte carries the six bits that went into it. -/
theorem bits_ofNat (n : Nat) : bits (UInt8.ofNat (n % 64 + 128)) = n % 64 := by
  rw [bits, toNat_ofNat_of_lt (by omega)]
  omega

/-! ### Sequences by their length -/

/-- A byte below 128 is a character. -/
theorem step_one {a : UInt8} (ha : a.toNat < 0x80) (rest : List UInt8) :
    step a rest = ⟨some (Char.ofNat a.toNat), 1⟩ := by
  have hlow : a < 0x80 := by simpa [UInt8.lt_iff_toNat_lt] using ha
  simp [step, hlow]

/-- A sequence of two bytes. -/
theorem step_two {a b : UInt8} (ha : 0xC2 ≤ a.toNat) (ha' : a.toNat ≤ 0xDF)
    (hb : isContinuation b = true) (rest : List UInt8) :
    step a (b :: rest) = ⟨some (Char.ofNat (a.toNat % 32 * 64 + bits b)), 2⟩ := by
  have hhigh : ¬ a < 0x80 := by simp [UInt8.lt_iff_toNat_lt]; omega
  have hfirst : 0xC2 ≤ a := by simpa [UInt8.le_iff_toNat_le] using ha
  have hlast : a ≤ 0xDF := by simpa [UInt8.le_iff_toNat_le] using ha'
  simp [step, hhigh, hfirst, hlast, hb]

/-- A sequence of three bytes. -/
theorem step_three {a b c : UInt8} (ha : 0xE0 ≤ a.toNat) (ha' : a.toNat ≤ 0xEF)
    (hb : isSecond a b = true) (hc : isContinuation c = true) (rest : List UInt8) :
    step a (b :: c :: rest) =
      ⟨some (Char.ofNat ((a.toNat % 16 * 64 + bits b) * 64 + bits c)), 3⟩ := by
  have hhigh : ¬ a < 0x80 := by simp [UInt8.lt_iff_toNat_lt]; omega
  have hlong : ¬ a ≤ 0xDF := by simp [UInt8.le_iff_toNat_le]; omega
  have hfirst : 0xE0 ≤ a := by simpa [UInt8.le_iff_toNat_le] using ha
  have hlast : a ≤ 0xEF := by simpa [UInt8.le_iff_toNat_le] using ha'
  simp [step, hhigh, hlong, hfirst, hlast, hb, hc]

/-- A sequence of four bytes. -/
theorem step_four {a b c d : UInt8} (ha : 0xF0 ≤ a.toNat) (ha' : a.toNat ≤ 0xF4)
    (hb : isSecond a b = true) (hc : isContinuation c = true) (hd : isContinuation d = true)
    (rest : List UInt8) :
    step a (b :: c :: d :: rest) =
      ⟨some (Char.ofNat (((a.toNat % 8 * 64 + bits b) * 64 + bits c) * 64 + bits d)), 4⟩ := by
  have hhigh : ¬ a < 0x80 := by simp [UInt8.lt_iff_toNat_lt]; omega
  have hlong : ¬ a ≤ 0xDF := by simp [UInt8.le_iff_toNat_le]; omega
  have hlonger : ¬ a ≤ 0xEF := by simp [UInt8.le_iff_toNat_le]; omega
  have hfirst : 0xF0 ≤ a := by simpa [UInt8.le_iff_toNat_le] using ha
  have hlast : a ≤ 0xF4 := by simpa [UInt8.le_iff_toNat_le] using ha'
  simp [step, hhigh, hlong, hlonger, hfirst, hlast, hb, hc, hd]

/-! ### Reading what was written -/

/-- The number of a character, below the surrogates or above them. -/
theorem val_range (c : Char) :
    c.val.toNat < 0xD800 ∨ 0xDFFF < c.val.toNat ∧ c.val.toNat < 0x110000 :=
  c.valid

/-- The bytes of a character are one sequence, whatever follows
them. -/
theorem step_utf8EncodeChar (c : Char) :
    ∃ first others, String.utf8EncodeChar c = first :: others ∧
      ∀ rest, step first (others ++ rest) = ⟨some c, others.length + 1⟩ := by
  have hv := val_range c
  have hc : Char.ofNat c.val.toNat = c := Char.ofNat_toNat c
  rw [String.utf8EncodeChar]
  generalize c.val.toNat = v at hv hc
  -- By the number of bytes; the bounds of the second byte say that no shorter form exists.
  by_cases h1 : v ≤ 0x7f
  · refine ⟨_, [], if_pos h1, fun rest => ?_⟩
    have ha : (UInt8.ofNat v).toNat = v := toNat_ofNat_of_lt (by omega)
    rw [step_one (by omega), ha, hc]
    rfl
  · simp only [if_neg h1]
    by_cases h2 : v ≤ 0x7ff
    · refine ⟨_, [_], if_pos h2, fun rest => ?_⟩
      have ha : (UInt8.ofNat (v / 64 % 32 + 0xc0)).toNat = v / 64 + 0xc0 := by
        rw [toNat_ofNat_of_lt (by omega)]; omega
      rw [List.cons_append, step_two (by omega) (by omega) (isContinuation_ofNat v), ha, bits_ofNat,
        show (v / 64 + 0xc0) % 32 * 64 + v % 64 = v by omega, hc]
      rfl
    · simp only [if_neg h2]
      by_cases h3 : v ≤ 0xffff
      · refine ⟨_, [_, _], if_pos h3, fun rest => ?_⟩
        have ha : (UInt8.ofNat (v / 4096 % 16 + 0xe0)).toNat = v / 4096 + 0xe0 := by
          rw [toNat_ofNat_of_lt (by omega)]; omega
        have hb : (UInt8.ofNat (v / 64 % 64 + 0x80)).toNat = v / 64 % 64 + 0x80 :=
          toNat_ofNat_of_lt (by omega)
        have hsecond : isSecond (UInt8.ofNat (v / 4096 % 16 + 0xe0))
            (UInt8.ofNat (v / 64 % 64 + 0x80)) = true := by
          rw [isSecond_iff, ha, hb]
          split_ifs <;> omega
        rw [List.cons_append, List.cons_append, step_three (by omega) (by omega) hsecond
          (isContinuation_ofNat v), ha, bits_ofNat, bits_ofNat,
          show ((v / 4096 + 0xe0) % 16 * 64 + v / 64 % 64) * 64 + v % 64 = v by omega, hc]
        rfl
      · refine ⟨_, [_, _, _], if_neg h3, fun rest => ?_⟩
        have ha : (UInt8.ofNat (v / 262144 % 8 + 0xf0)).toNat = v / 262144 + 0xf0 := by
          rw [toNat_ofNat_of_lt (by omega)]; omega
        have hb : (UInt8.ofNat (v / 4096 % 64 + 0x80)).toNat = v / 4096 % 64 + 0x80 :=
          toNat_ofNat_of_lt (by omega)
        have hsecond : isSecond (UInt8.ofNat (v / 262144 % 8 + 0xf0))
            (UInt8.ofNat (v / 4096 % 64 + 0x80)) = true := by
          rw [isSecond_iff, ha, hb]
          split_ifs <;> omega
        rw [List.cons_append, List.cons_append, List.cons_append,
          step_four (by omega) (by omega) hsecond (isContinuation_ofNat (v / 64))
            (isContinuation_ofNat v), ha, bits_ofNat, bits_ofNat, bits_ofNat,
          show (((v / 262144 + 0xf0) % 8 * 64 + v / 4096 % 64) * 64 + v / 64 % 64) * 64 + v % 64 = v
            by omega, hc]
        rfl

/-- The bytes that were read with the sequence before them are passed
over. -/
theorem steps_skip (read rest : List UInt8) : steps read.length (read ++ rest) = steps 0 rest := by
  induction read with
  | nil => rfl
  | cons b bs ih => exact ih

/-- The sequences of a written text are its characters. -/
theorem steps_flatMap_utf8EncodeChar (cs : List Char) :
    steps 0 (cs.flatMap String.utf8EncodeChar) = cs.map some := by
  induction cs with
  | nil => rfl
  | cons c cs ih =>
      obtain ⟨first, others, hbytes, hstep⟩ := step_utf8EncodeChar c
      rw [List.flatMap_cons, hbytes, List.cons_append, steps, hstep, Nat.add_sub_cancel,
        steps_skip, ih, List.map_cons]

/-- A text that is written is read again. -/
theorem decode_flatMap_utf8EncodeChar (cs : List Char) :
    decode (cs.flatMap String.utf8EncodeChar) = String.ofList cs := by
  rw [decode, steps_flatMap_utf8EncodeChar, List.map_map]
  exact congrArg String.ofList (List.map_id cs)

/-- A file is written and read with the same text, up to its line
breaks, unless a zero byte makes it binary. -/
theorem decodeText?_flatMap_utf8EncodeChar (cs : List Char) :
    decodeText? (cs.flatMap String.utf8EncodeChar) =
      if isBinary (cs.flatMap String.utf8EncodeChar) then none
      else some (foldLineBreaks (String.ofList cs)) := by
  rw [decodeText?, decode_flatMap_utf8EncodeChar]

/-! ### Line breaks -/

/-- Where no line feed follows a carriage return, nothing is folded. -/
theorem foldBreaks_eq_self {cs : List Char} (h : ¬ ['\r', '\n'] <:+: cs) : foldBreaks cs = cs := by
  induction cs with
  | nil => rfl
  | cons c cs ih =>
      rw [foldBreaks, if_neg, ih fun hcs => h (hcs.trans (List.suffix_cons c cs).isInfix)]
      rintro ⟨rfl, hhead⟩
      obtain ⟨rest, rfl⟩ := List.head?_eq_some_iff.mp hhead
      exact h ⟨[], rest, rfl⟩

/-- So it is with a text. -/
theorem foldLineBreaks_eq_self {text : String} (h : ¬ ['\r', '\n'] <:+: text.toList) :
    foldLineBreaks text = text := by
  rw [foldLineBreaks, foldBreaks_eq_self h, String.ofList_toList]

end ScriptRefactor.Text.Utf8
