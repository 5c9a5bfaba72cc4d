import Mathlib.Data.List.Infix
import ScriptRefactor.Proofs.Text.Utf8

/-!
# `ScriptRefactor.Proofs.Text.FoldedBreaks`: line breaks that are left

Folding drops the carriage return of each line break. A carriage return
that stood before the dropped one then stands before the line feed. So the
folded text has a carriage return before a line feed exactly if two of them
stood there (`break_foldBreaks_iff`), and only then it can be folded again
(`foldLineBreaks_eq_self_iff`).

The bytes of a file tell which of both it is. A byte below 128 ends the
sequence before it, whatever this is, and no other byte is read as such a
character; so the characters of a row of such bytes are read where the bytes
stand, and nowhere else (`ascii_infix_decode_iff`).
-/

set_option autoImplicit false

namespace ScriptRefactor.Text

/-- A line feed of the text has a carriage return before it. -/
def HasReturnBreak (text : String) : Prop := ['\r', '\n'] <:+: text.toList

/-- A line feed of the text has two carriage returns before it. -/
def HasDoubleReturn (text : String) : Prop := ['\r', '\r', '\n'] <:+: text.toList

instance (text : String) : Decidable (HasReturnBreak text) :=
  inferInstanceAs (Decidable (_ <:+: _))

instance (text : String) : Decidable (HasDoubleReturn text) :=
  inferInstanceAs (Decidable (_ <:+: _))

namespace Utf8

/-! ### Folding -/

/-- A break at the front of some characters. -/
theorem break_prefix_iff (c : Char) (cs : List Char) :
    ['\r', '\n'] <+: c :: cs ↔ c = '\r' ∧ cs.head? = some '\n' := by
  cases cs with
  | nil => simp
  | cons d ds => simp [eq_comm]

/-- Folding leaves out some characters. -/
theorem foldBreaks_sublist (cs : List Char) : (foldBreaks cs).Sublist cs := by
  induction cs with
  | nil => exact .slnil
  | cons c cs ih =>
      rw [foldBreaks]
      split
      · exact ih.cons c
      · exact ih.cons_cons c

/-- A line feed comes first behind folding if it did before, or behind a
carriage return that is dropped. -/
theorem head?_foldBreaks_iff (cs : List Char) :
    (foldBreaks cs).head? = some '\n' ↔ cs.head? = some '\n' ∨ ['\r', '\n'] <+: cs := by
  cases cs with
  | nil => simp [foldBreaks]
  | cons c cs =>
      rw [foldBreaks, break_prefix_iff]
      split
      · -- What follows the dropped character is a line feed, which stays.
        rename_i hdrop
        obtain ⟨rest, rfl⟩ := List.head?_eq_some_iff.mp hdrop.2
        simp [foldBreaks, hdrop.1]
      · rename_i hkeep
        simp [hkeep]

/-- A break is left where two carriage returns stood before the line
feed. -/
theorem break_foldBreaks_iff (cs : List Char) :
    ['\r', '\n'] <:+: foldBreaks cs ↔ ['\r', '\r', '\n'] <:+: cs := by
  induction cs with
  | nil => simp [foldBreaks]
  | cons c cs ih =>
      rw [foldBreaks, List.infix_cons_iff, List.cons_prefix_cons]
      split
      · -- Behind the dropped character comes a line feed, so no second carriage return.
        rename_i hdrop
        obtain ⟨rest, rfl⟩ := List.head?_eq_some_iff.mp hdrop.2
        rw [ih]
        simp
      · rename_i hkeep
        rw [List.infix_cons_iff, break_prefix_iff, ih, head?_foldBreaks_iff]
        have hfirst : ¬ (c = '\r' ∧ cs.head? = some '\n') := hkeep
        tauto

/-- Characters that folding leaves as they are have no breaks. -/
theorem foldBreaks_eq_self_iff (cs : List Char) :
    foldBreaks cs = cs ↔ ¬ ['\r', '\n'] <:+: cs := by
  refine ⟨fun h => ?_, foldBreaks_eq_self⟩
  induction cs with
  | nil => simp
  | cons c cs ih =>
      rw [foldBreaks] at h
      split at h
      · -- With a character dropped, less is left.
        have hlength := (foldBreaks_sublist cs).length_le
        rw [h, List.length_cons] at hlength
        omega
      · rename_i hkeep
        rw [List.infix_cons_iff, break_prefix_iff, not_or]
        exact ⟨hkeep, ih (List.cons.inj h).2⟩

/-- A folded text has a break exactly if the text has a double return. -/
theorem hasReturnBreak_foldLineBreaks_iff (text : String) :
    HasReturnBreak (foldLineBreaks text) ↔ HasDoubleReturn text := by
  rw [HasReturnBreak, foldLineBreaks, String.toList_ofList]
  exact break_foldBreaks_iff text.toList

/-- A text that folding leaves as it is has no breaks. -/
theorem foldLineBreaks_eq_self_iff (text : String) :
    foldLineBreaks text = text ↔ ¬ HasReturnBreak text := by
  rw [← String.toList_inj, foldLineBreaks, String.toList_ofList]
  exact foldBreaks_eq_self_iff text.toList

/-! ### Bytes below 128 -/

/-- A byte below 128 continues no sequence. -/
theorem isContinuation_of_ascii {a : UInt8} (ha : a.toNat < 0x80) : isContinuation a = false := by
  rw [Bool.eq_false_iff, Ne, isContinuation_iff]
  omega

/-- A byte below 128 is no second byte. -/
theorem isSecond_of_ascii {a : UInt8} (ha : a.toNat < 0x80) (first : UInt8) :
    isSecond first a = false := by
  rw [Bool.eq_false_iff, Ne, isSecond_iff]
  rintro ⟨hlow, -⟩
  split_ifs at hlow <;> omega

/-- A byte below 128 ends the bytes of a sequence, as the end of the file
does. -/
theorem step_append_ascii {a : UInt8} (ha : a.toNat < 0x80) (first : UInt8)
    (before more : List UInt8) : step first (before ++ a :: more) = step first before := by
  have hcont := isContinuation_of_ascii ha
  have hsecond := isSecond_of_ascii ha first
  -- At most three bytes behind the first one are looked at.
  rcases before with _ | ⟨b, _ | ⟨c, _ | ⟨e, before⟩⟩⟩
  · rcases more with _ | ⟨m, _ | ⟨n, more⟩⟩ <;> simp [step, hcont, hsecond]
  · cases hb : isSecond first b <;> cases more <;> simp [step, hcont, hb]
  · cases hb : isSecond first b <;> cases hc : isContinuation c <;> simp [step, hcont, hb, hc]
  · rfl

/-- The bytes behind the first one that belong to its sequence are
there. -/
theorem length_step_le (first : UInt8) (rest : List UInt8) :
    (step first rest).length ≤ rest.length + 1 := by
  rcases rest with _ | ⟨b, _ | ⟨c, _ | ⟨e, rest⟩⟩⟩ <;>
    simp only [step] <;> split_ifs <;> simp

/-- The bits of the first two bytes are not all zero: what is shorter is
written with less bytes. -/
theorem pos_of_isSecond {first second : UInt8} (h : isSecond first second = true) :
    (0xE0 ≤ first.toNat ∧ first.toNat ≤ 0xEF → 0x20 ≤ first.toNat % 16 * 64 + bits second) ∧
      (0xF0 ≤ first.toNat ∧ first.toNat ≤ 0xF4 → 0x10 ≤ first.toNat % 8 * 64 + bits second) := by
  rw [isSecond_iff] at h
  rw [bits]
  constructor <;> intro hfirst <;> split_ifs at h <;> omega

/-- A sequence of more than one byte is read as a character from 128 on, if
it is well formed. -/
theorem exists_of_step_high {first : UInt8} (hfirst : 0x80 ≤ first.toNat) {rest : List UInt8}
    {c : Char} (h : (step first rest).char? = some c) : ∃ n, 0x80 ≤ n ∧ Char.ofNat n = c := by
  have hhigh : ¬ first < 0x80 := by simpa [UInt8.lt_iff_toNat_lt] using hfirst
  rw [step.eq_def, if_neg hhigh] at h
  simp only [Bool.and_eq_true, decide_eq_true_eq, UInt8.le_iff_toNat_le, UInt8.reduceToNat] at h
  -- By the length that the first byte tells; a sequence cut short is no character.
  split at h
  · split at h
    · split at h
      · exact ⟨_, by omega, Option.some.inj h⟩
      · cases h
    · cases h
  · split at h
    · rename_i hthree
      split at h
      · rename_i second third _
        cases hsecond : isSecond first second with
        | false => simp [hsecond] at h
        | true =>
            have hbits := (pos_of_isSecond hsecond).1 hthree
            cases hthird : isContinuation third with
            | false => simp [hsecond, hthird] at h
            | true =>
                simp only [hsecond, hthird] at h
                exact ⟨_, by omega, Option.some.inj h⟩
      · cases h
      · cases h
    · split at h
      · rename_i hfour
        split at h
        · rename_i second third fourth _
          cases hsecond : isSecond first second with
          | false => simp [hsecond] at h
          | true =>
              have hbits := (pos_of_isSecond hsecond).2 hfour
              cases hthird : isContinuation third with
              | false => simp [hsecond, hthird] at h
              | true =>
                  cases hfourth : isContinuation fourth with
                  | false => simp [hsecond, hthird, hfourth] at h
                  | true =>
                      simp only [hsecond, hthird, hfourth] at h
                      exact ⟨_, by omega, Option.some.inj h⟩
        · cases h
        · cases h
        · cases h
      · cases h

/-- The number of a character other than the first one. -/
theorem eq_toNat_of_ofNat {n : Nat} {c : Char} (h : Char.ofNat n = c) (hc : c.toNat ≠ 0) :
    n = c.toNat := by
  subst h
  by_cases hvalid : n.isValidChar
  · rw [Char.ofNat, dif_pos hvalid]
    rfl
  · rw [Char.ofNat, dif_neg hvalid] at hc
    exact absurd rfl hc

/-- Only a byte below 128 is read as a character below 128; the zero byte is
left out. -/
theorem eq_of_step_ascii {first : UInt8} {rest : List UInt8} {c : Char}
    (h : (step first rest).char? = some c) (hc : c.toNat ≠ 0) (hc' : c.toNat < 0x80) :
    first.toNat = c.toNat := by
  rcases Nat.lt_or_ge first.toNat 0x80 with hlow | hhigh
  · rw [step_one hlow] at h
    exact eq_toNat_of_ofNat (Option.some.inj h) hc
  · -- The number of a longer sequence is too great.
    obtain ⟨n, hn, hchar⟩ := exists_of_step_high hhigh h
    have hsame := eq_toNat_of_ofNat hchar hc
    omega

/-! ### Rows of such bytes -/

/-- The sequences before a byte below 128 and behind it. -/
theorem steps_append_ascii {a : UInt8} (ha : a.toNat < 0x80) (before more : List UInt8) {skip : Nat}
    (hskip : skip ≤ before.length) :
    steps skip (before ++ a :: more) =
      steps skip before ++ some (Char.ofNat a.toNat) :: steps 0 more := by
  induction before generalizing skip with
  | nil =>
      obtain rfl : skip = 0 := Nat.le_zero.mp hskip
      rw [List.nil_append, steps.eq_def]
      simp [step_one ha, steps]
  | cons b before ih =>
      cases skip with
      | succ skip => exact ih (Nat.le_of_succ_le_succ hskip)
      | zero =>
          -- The sequence of `b` ends before the byte.
          have hlength := length_step_le b before
          rw [List.cons_append, steps, step_append_ascii ha, ih (by omega)]
          rfl

/-- A character below 128 was read from its byte, and the bytes behind it are
read as what comes behind the character. -/
theorem exists_of_steps_ascii {c : Char} (hc : c.toNat ≠ 0) (hc' : c.toNat < 0x80)
    {bytes : List UInt8} {skip : Nat} {left right : List (Option Char)}
    (h : steps skip bytes = left ++ some c :: right) :
    ∃ before a more, bytes = before ++ a :: more ∧ (skip = 0 → left = [] → before = []) ∧
      a.toNat = c.toNat ∧ steps 0 more = right := by
  induction bytes generalizing skip left with
  | nil =>
      cases skip <;> exact absurd h (by simp [steps])
  | cons b bytes ih =>
      cases skip with
      | succ skip =>
          obtain ⟨before, a, more, rfl, -, ha, hmore⟩ := ih h
          exact ⟨b :: before, a, more, rfl, fun h => absurd h (Nat.succ_ne_zero skip), ha, hmore⟩
      | zero =>
          rw [steps] at h
          cases left with
          | nil =>
              -- The byte itself is read as the character, and nothing else with it.
              obtain ⟨hchar, hright⟩ := List.cons.inj h
              have hb := eq_of_step_ascii hchar hc hc'
              rw [step_one (hb ▸ hc')] at hright
              exact ⟨[], b, bytes, rfl, fun _ _ => rfl, hb, hright⟩
          | cons first left =>
              obtain ⟨before, a, more, rfl, -, ha, hmore⟩ := ih (List.cons.inj h).2
              exact ⟨b :: before, a, more, rfl, fun _ h => absurd h (List.cons_ne_nil first left),
                ha, hmore⟩

/-- The byte of a character below 128. -/
def asciiByte (c : Char) : UInt8 := UInt8.ofNat c.toNat

/-- The byte has the number of the character. -/
theorem toNat_asciiByte {c : Char} (hc : c.toNat < 0x80) : (asciiByte c).toNat = c.toNat :=
  toNat_ofNat_of_lt (by omega)

/-- Such characters come first where their bytes come first. -/
theorem ascii_prefix_steps_iff {row : List Char} (hrow : ∀ c ∈ row, c.toNat ≠ 0 ∧ c.toNat < 0x80)
    (bytes : List UInt8) :
    row.map some <+: steps 0 bytes ↔ row.map asciiByte <+: bytes := by
  induction row generalizing bytes with
  | nil => simp
  | cons c row ih =>
      obtain ⟨⟨hc, hc'⟩, hrow⟩ := List.forall_mem_cons.mp hrow
      have hbyte := toNat_asciiByte hc'
      -- A byte below 0x80 is decoded at once, and decoding goes on as from the start.
      have hfirst : ∀ more, steps 0 (asciiByte c :: more) = some c :: steps 0 more := fun more => by
        simpa [hbyte, steps, Char.ofNat_toNat] using
          steps_append_ascii (hbyte.trans_lt hc') [] more (Nat.le_refl 0)
      rw [List.map_cons, List.map_cons]
      constructor
      · rintro ⟨right, h⟩
        -- A decoded character below 0x80 comes from its byte, with nothing in front of it.
        obtain ⟨before, a, more, rfl, hbefore, ha, hmore⟩ :=
          exists_of_steps_ascii hc hc' (h.symm.trans (List.nil_append _).symm)
        obtain rfl := hbefore rfl rfl
        obtain rfl : asciiByte c = a := UInt8.toNat_inj.mp (hbyte.trans ha.symm)
        rw [List.nil_append, List.cons_prefix_cons]
        exact ⟨rfl, (ih hrow more).mp ⟨right, hmore.symm⟩⟩
      · rintro ⟨more, rfl⟩
        rw [List.cons_append, hfirst, List.cons_prefix_cons]
        exact ⟨rfl, (ih hrow _).mpr (List.prefix_append _ more)⟩

/-- Such characters stand in a row where their bytes do. -/
theorem ascii_infix_steps_iff {row : List Char} (hrow : ∀ c ∈ row, c.toNat ≠ 0 ∧ c.toNat < 0x80)
    (bytes : List UInt8) :
    row.map some <:+: steps 0 bytes ↔ row.map asciiByte <:+: bytes := by
  cases row with
  | nil => simp
  | cons c row =>
      obtain ⟨⟨hc, hc'⟩, hrest⟩ := List.forall_mem_cons.mp hrow
      have hbyte := toNat_asciiByte hc'
      constructor
      · rintro ⟨left, right, h⟩
        rw [List.append_assoc, List.map_cons, List.cons_append] at h
        obtain ⟨before, a, more, rfl, -, ha, hmore⟩ := exists_of_steps_ascii hc hc' h.symm
        obtain rfl : asciiByte c = a := UInt8.toNat_inj.mp (hbyte.trans ha.symm)
        obtain ⟨after, rfl⟩ := (ascii_prefix_steps_iff hrest more).mp ⟨right, hmore.symm⟩
        exact ⟨before, after, by simp⟩
      · rintro ⟨before, after, rfl⟩
        rw [List.append_assoc, List.map_cons, List.map_cons, List.cons_append,
          steps_append_ascii (hbyte.trans_lt hc') before _ (Nat.zero_le _), hbyte, Char.ofNat_toNat]
        obtain ⟨right, h⟩ := (ascii_prefix_steps_iff hrest (row.map asciiByte ++ after)).mpr
          (List.prefix_append _ after)
        exact ⟨steps 0 before, right, by simp [← h]⟩

/-- Where the replacement character is not asked for, what is read as it does
not count. -/
theorem infix_map_getD_iff {replacement : Char} {row : List Char} (hrow : replacement ∉ row)
    (read : List (Option Char)) :
    row <:+: read.map (·.getD replacement) ↔ row.map some <:+: read := by
  rw [List.infix_map_iff]
  constructor
  · rintro ⟨part, hinfix, rfl⟩
    have hsome : ∀ c? ∈ part, some (c?.getD replacement) = c? := by
      rintro (_ | c) hc
      · exact absurd (List.mem_map_of_mem hc) hrow
      · rfl
    have hsame : (part.map (·.getD replacement)).map some = part := by
      rw [List.map_map]
      exact (List.map_congr_left hsome).trans (List.map_id part)
    rwa [hsame]
  · intro hinfix
    exact ⟨row.map some, hinfix, by simp [Function.comp_def]⟩

/-- Such characters stand in the text of a file where their bytes do. -/
theorem ascii_infix_decode_iff {row : List Char} (hrow : ∀ c ∈ row, c.toNat ≠ 0 ∧ c.toNat < 0x80)
    (bytes : List UInt8) : row <:+: (decode bytes).toList ↔ row.map asciiByte <:+: bytes := by
  have hreplacement : Char.ofNat 0xFFFD ∉ row := fun hmem => absurd (hrow _ hmem).2 (by decide)
  rw [decode, String.toList_ofList, infix_map_getD_iff hreplacement, ascii_infix_steps_iff hrow]

/-- A file has a double return in its text where three bytes tell it. -/
theorem hasDoubleReturn_decode_iff (bytes : List UInt8) :
    HasDoubleReturn (decode bytes) ↔ [13, 13, 10] <:+: bytes :=
  ascii_infix_decode_iff (by simp) bytes

/-- The text that is read from a file has a break exactly if the file has a
double return. -/
theorem hasReturnBreak_of_decodeText? {bytes : List UInt8} {text : String}
    (h : decodeText? bytes = some text) : HasReturnBreak text ↔ [13, 13, 10] <:+: bytes := by
  unfold decodeText? at h
  split at h
  · cases h
  · cases h
    rw [hasReturnBreak_foldLineBreaks_iff, hasDoubleReturn_decode_iff]

end Utf8

end ScriptRefactor.Text
