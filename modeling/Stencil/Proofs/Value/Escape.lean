import Stencil.Value.Display

/-!
# Reading escapes back

What an escaped byte string stands for can be read off it byte by byte: a backslash says
whether a second one or three octal digits follow.  So the escaped text is told apart from
every other one, and it consists of printable ASCII, tabs and newlines.
-/

namespace Stencil
namespace Escape

/-!
# Decoding
-/

def isOctalDigit (b : UInt8) : Bool :=
  0x30 ≤ b && b ≤ 0x37

def octalValue (b c d : UInt8) : Nat :=
  64 * (b.toNat - Byte.zero.toNat) + 8 * (c.toNat - Byte.zero.toNat) +
    (d.toNat - Byte.zero.toNat)

/-- Reads a doubled backslash as one, a backslash with three octal digits as the byte that
they denote, and any other byte as itself. -/
def decode? : Bytes → Option Bytes
  | [] => some []
  | b :: rest =>
    if b = Byte.backslash then
      match rest with
      | [] => none
      | c :: more =>
        if c = Byte.backslash then (decode? more).map (Byte.backslash :: ·)
        else
          match more with
          | d :: e :: behind =>
            if isOctalDigit c && isOctalDigit d && isOctalDigit e &&
              octalValue c d e < 256 then
              (decode? behind).map ((octalValue c d e).toUInt8 :: ·)
            else none
          | _ => none
    else (decode? rest).map (b :: ·)

theorem decode?_plain {b : UInt8} (h : b ≠ Byte.backslash) (rest : Bytes) :
    decode? (b :: rest) = (decode? rest).map (b :: ·) := by
  rw [decode?.eq_def]
  exact if_neg h

theorem decode?_doubled (rest : Bytes) :
    decode? (Byte.backslash :: Byte.backslash :: rest) =
      (decode? rest).map (Byte.backslash :: ·) := by
  rw [decode?.eq_def]
  exact (if_pos rfl).trans (if_pos rfl)

theorem toNat_octalDigit (n : Nat) : (octalDigit n).toNat = 48 + n % 8 := by
  rw [octalDigit, UInt8.toNat_add]
  simp [Byte.zero]
  omega

theorem isOctalDigit_octalDigit (n : Nat) : isOctalDigit (octalDigit n) = true := by
  simp only [isOctalDigit, Bool.and_eq_true, decide_eq_true_eq, UInt8.le_iff_toNat_le,
    toNat_octalDigit]
  constructor
  · exact Nat.le_add_right 48 _
  · have hdigit := Nat.mod_lt n (show 0 < 8 by decide)
    exact Nat.add_le_add_left (Nat.le_of_lt_succ hdigit) 48

theorem octalValue_octalDigit (b : UInt8) :
    octalValue (octalDigit (b.toNat / 64)) (octalDigit (b.toNat / 8)) (octalDigit b.toNat) =
      b.toNat := by
  have hbyte := b.toNat_lt
  simp only [octalValue, toNat_octalDigit, Byte.zero, UInt8.reduceToNat]
  omega

theorem octalDigit_ne_backslash (n : Nat) : octalDigit n ≠ Byte.backslash := by
  intro h
  have hdigit := isOctalDigit_octalDigit n
  rw [h] at hdigit
  cases hdigit

theorem decode?_octal (b : UInt8) (rest : Bytes) :
    decode? (Byte.backslash :: octalDigit (b.toNat / 64) :: octalDigit (b.toNat / 8) ::
        octalDigit b.toNat :: rest) =
      (decode? rest).map (b :: ·) := by
  rw [decode?.eq_def]
  simp only [if_true, if_neg (octalDigit_ne_backslash _), isOctalDigit_octalDigit,
    octalValue_octalDigit, Bool.and_self, decide_eq_true b.toNat_lt]
  rw [Nat.toUInt8_eq, UInt8.ofNat_toNat]

theorem decode?_byte_append (b : UInt8) (rest : Bytes) :
    decode? (byte b ++ rest) = (decode? rest).map (b :: ·) := by
  unfold byte
  split
  · rename_i hbackslash
    rw [hbackslash]
    exact decode?_doubled rest
  · rename_i hbackslash
    split
    · exact decode?_plain hbackslash rest
    · exact decode?_octal b rest

theorem decode?_encode (bytes : Bytes) : decode? (encode bytes) = some bytes := by
  induction bytes with
  | nil =>
      rfl
  | cons b rest ih =>
      have hcons : encode (b :: rest) = byte b ++ encode rest := rfl
      rw [hcons, decode?_byte_append, ih]
      rfl

/-!
# Printable text
-/

theorem isPlain_octalDigit (n : Nat) : isPlain (octalDigit n) = true := by
  have hdigit := isOctalDigit_octalDigit n
  simp only [isOctalDigit, Bool.and_eq_true, decide_eq_true_eq,
    UInt8.le_iff_toNat_le] at hdigit
  simp only [isPlain, Bool.or_eq_true, Bool.and_eq_true, decide_eq_true_eq,
    UInt8.le_iff_toNat_le]
  right
  constructor
  · exact Nat.le_trans (by decide) hdigit.left
  · exact Nat.le_trans hdigit.right (by decide)

theorem isPlain_of_mem_byte {b c : UInt8} (h : c ∈ byte b) : isPlain c = true := by
  have hbackslash : isPlain Byte.backslash = true := by decide
  unfold byte at h
  split at h
  · simp only [List.mem_cons, List.not_mem_nil, or_false, or_self] at h
    rw [h]
    exact hbackslash
  · split at h
    · rename_i hplain
      rw [List.mem_singleton.mp h]
      exact hplain
    · simp only [List.mem_cons, List.not_mem_nil, or_false] at h
      rcases h with rfl | rfl | rfl | rfl
      · exact hbackslash
      · exact isPlain_octalDigit _
      · exact isPlain_octalDigit _
      · exact isPlain_octalDigit _

theorem isPlain_of_mem_encode {bytes : Bytes} {c : UInt8} (h : c ∈ encode bytes) :
    isPlain c = true := by
  rcases List.mem_flatMap.mp h with ⟨b, _, hc⟩
  exact isPlain_of_mem_byte hc

theorem isPlain_iff (b : UInt8) :
    isPlain b = true ↔
      b = Byte.tab ∨ b = Byte.newline ∨ (0x20 ≤ b.toNat ∧ b.toNat ≤ 0x7E) := by
  simp only [isPlain, Bool.or_eq_true, Bool.and_eq_true, decide_eq_true_eq, beq_iff_eq,
    UInt8.le_iff_toNat_le, or_assoc]
  exact Iff.rfl

end Escape

/-!
# The theorem
-/

/-- The text of a string can be read back, so that different strings have different texts,
and it consists of tabs, newlines and printable ASCII. -/
theorem display_string_lossless [Addressing] (bytes : Bytes) :
    (Value.string bytes).display = Escape.encode bytes ∧
      Escape.decode? (Escape.encode bytes) = some bytes ∧
      (∀ other, Escape.encode bytes = Escape.encode other → bytes = other) ∧
      ∀ c ∈ Escape.encode bytes,
        c = Byte.tab ∨ c = Byte.newline ∨ (0x20 ≤ c.toNat ∧ c.toNat ≤ 0x7E) := by
  refine ⟨?_, Escape.decode?_encode bytes, ?_, ?_⟩
  · exact (List.flatMap_def ..).symm
  · intro other h
    have hread := Escape.decode?_encode bytes
    rw [h, Escape.decode?_encode] at hread
    exact (Option.some.inj hread).symm
  · intro c hc
    exact (Escape.isPlain_iff c).mp (Escape.isPlain_of_mem_encode hc)

/-- An escape before digits and a doubled backslash before what looks like an escape. -/
example : Escape.encode [0x01, 0x31, 0x5C, 0x30, 0x30, 0x31, 0xFF] =
    Bytes.ofText "\\0011\\\\001\\377" := by
  decide

end Stencil
