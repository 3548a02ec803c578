import Stencil.Bytes.Utf8

/-!
# Validity is being an encoding

The decoder accepts a byte string exactly when it is the UTF-8 encoding of some
characters, and then it finds these characters.
-/

namespace Stencil
namespace Utf8

/-!
# Leading bytes
-/

theorem lead_one {b : UInt8} (h : b.toNat ≤ 0x7F) :
    lead b = ([some (Char.ofNat b.toNat)], none) := by
  have hb : b ≤ 0x7F := UInt8.le_iff_toNat_le.mpr h
  simp [lead, hb]

theorem lead_two {b : UInt8} (hlow : 0xC2 ≤ b.toNat) (hhigh : b.toNat ≤ 0xDF) :
    lead b = ([], some ⟨1, 0x80, 0xBF, b.toNat - 0xC0⟩) := by
  unfold lead
  simp only [UInt8.le_iff_toNat_le, UInt8.reduceToNat]
  rw [if_neg (by omega), if_pos (by omega)]

theorem lead_three {b : UInt8} (hlow : 0xE0 ≤ b.toNat) (hhigh : b.toNat ≤ 0xEF) :
    lead b =
      ([], some ⟨2, if b.toNat = 0xE0 then 0xA0 else 0x80,
        if b.toNat = 0xED then 0x9F else 0xBF,
        b.toNat - 0xE0⟩) := by
  unfold lead
  simp only [UInt8.le_iff_toNat_le, ← UInt8.toNat_inj, UInt8.reduceToNat]
  rw [if_neg (by omega), if_neg (by omega)]
  by_cases hfirst : b.toNat = 0xE0
  · simp [hfirst]
  · by_cases hsurrogate : b.toNat = 0xED
    · simp [hsurrogate]
    · rw [if_neg hfirst, if_neg hsurrogate, if_pos (by omega), if_neg hfirst,
        if_neg hsurrogate]

theorem lead_four {b : UInt8} (hlow : 0xF0 ≤ b.toNat) (hhigh : b.toNat ≤ 0xF4) :
    lead b =
      ([], some ⟨3, if b.toNat = 0xF0 then 0x90 else 0x80,
        if b.toNat = 0xF4 then 0x8F else 0xBF,
        b.toNat - 0xF0⟩) := by
  unfold lead
  simp only [UInt8.le_iff_toNat_le, ← UInt8.toNat_inj, UInt8.reduceToNat]
  rw [if_neg (by omega), if_neg (by omega), if_neg (by omega), if_neg (by omega),
    if_neg (by omega)]
  by_cases hfirst : b.toNat = 0xF0
  · simp [hfirst]
  · by_cases hlast : b.toNat = 0xF4
    · simp [hlast]
    · rw [if_neg hfirst, if_neg hlast, if_pos (by omega), if_neg hfirst, if_neg hlast]

theorem lead_other {b : UInt8}
    (h : 0x7F < b.toNat ∧ b.toNat < 0xC2 ∨ 0xF4 < b.toNat) : lead b = ([none], none) := by
  unfold lead
  simp only [UInt8.le_iff_toNat_le, ← UInt8.toNat_inj, UInt8.reduceToNat]
  rw [if_neg (by omega), if_neg (by omega), if_neg (by omega), if_neg (by omega),
    if_neg (by omega), if_neg (by omega), if_neg (by omega), if_neg (by omega)]

/-!
# Continuation bytes
-/

theorem decodeFrom_lead (b : UInt8) (rest : Bytes) :
    decodeFrom none (b :: rest) = (lead b).1 ++ decodeFrom (lead b).2 rest := rfl

theorem decodeFrom_last {low high b : UInt8} (hlow : low.toNat ≤ b.toNat)
    (hhigh : b.toNat ≤ high.toNat) (code : Nat) (rest : Bytes) :
    decodeFrom (some ⟨1, low, high, code⟩) (b :: rest) =
      some (Char.ofNat (64 * code + (b.toNat - 0x80))) :: decodeFrom none rest := by
  simp [decodeFrom, step, UInt8.le_iff_toNat_le, hlow, hhigh]

theorem decodeFrom_more {low high b : UInt8} (hlow : low.toNat ≤ b.toNat)
    (hhigh : b.toNat ≤ high.toNat) (owed code : Nat) (rest : Bytes) :
    decodeFrom (some ⟨owed + 2, low, high, code⟩) (b :: rest) =
      decodeFrom (some ⟨owed + 1, 0x80, 0xBF, 64 * code + (b.toNat - 0x80)⟩) rest := by
  simp [decodeFrom, step, UInt8.le_iff_toNat_le, hlow, hhigh]

theorem exists_continuation {p : Pending} {bytes : Bytes}
    (h : (decodeFrom (some p) bytes).all Option.isSome = true) :
    ∃ b rest, bytes = b :: rest ∧ p.low.toNat ≤ b.toNat ∧ b.toNat ≤ p.high.toNat := by
  cases bytes with
  | nil =>
      simp [decodeFrom] at h
  | cons b rest =>
      by_cases hwithin : p.low ≤ b ∧ b ≤ p.high
      · simp only [UInt8.le_iff_toNat_le] at hwithin
        exact ⟨b, rest, rfl, hwithin.left, hwithin.right⟩
      · simp [decodeFrom, step, hwithin] at h

/-!
# Decoding an encoding
-/

theorem toNat_byte {n : Nat} (h : n < 256) : (UInt8.ofNat n).toNat = n := by
  rw [UInt8.toNat_ofNat', Nat.mod_eq_of_lt h]

theorem decodeFrom_two {n : Nat} (hlow : 0x7F < n) (hhigh : n ≤ 0x7FF) (rest : Bytes) :
    decodeFrom none (UInt8.ofNat (n / 64 % 32 + 0xC0) :: UInt8.ofNat (n % 64 + 0x80) :: rest) =
      some (Char.ofNat n) :: decodeFrom none rest := by
  have hb := toNat_byte (show n / 64 % 32 + 0xC0 < 256 by omega)
  have hlast := toNat_byte (show n % 64 + 0x80 < 256 by omega)
  have hcode : 64 * (n / 64 % 32 + 0xC0 - 0xC0) + (n % 64 + 0x80 - 0x80) = n := by omega
  rw [decodeFrom_lead, lead_two (by omega) (by omega), hb, List.nil_append,
    decodeFrom_last (by simp; omega) (by simp; omega), hlast, hcode]

theorem decodeFrom_three {n : Nat} (hlow : 0x7FF < n) (hhigh : n ≤ 0xFFFF)
    (hvalid : n.isValidChar) (rest : Bytes) :
    decodeFrom none (UInt8.ofNat (n / 4096 % 16 + 0xE0) :: UInt8.ofNat (n / 64 % 64 + 0x80) ::
        UInt8.ofNat (n % 64 + 0x80) :: rest) =
      some (Char.ofNat n) :: decodeFrom none rest := by
  have hb := toNat_byte (show n / 4096 % 16 + 0xE0 < 256 by omega)
  have hsecond := toNat_byte (show n / 64 % 64 + 0x80 < 256 by omega)
  have hlast := toNat_byte (show n % 64 + 0x80 < 256 by omega)
  have hcode : 64 * (64 * (n / 4096 % 16 + 0xE0 - 0xE0) + (n / 64 % 64 + 0x80 - 0x80)) +
      (n % 64 + 0x80 - 0x80) = n := by
    omega
  unfold Nat.isValidChar at hvalid
  rw [decodeFrom_lead, lead_three (by omega) (by omega), hb, List.nil_append,
    decodeFrom_more (by split <;> simp <;> omega) (by split <;> simp <;> omega), hsecond,
    decodeFrom_last (by simp; omega) (by simp; omega), hlast, hcode]

theorem decodeFrom_four {n : Nat} (hlow : 0xFFFF < n) (hvalid : n.isValidChar) (rest : Bytes) :
    decodeFrom none (UInt8.ofNat (n / 262144 % 8 + 0xF0) ::
      UInt8.ofNat (n / 4096 % 64 + 0x80) ::
        UInt8.ofNat (n / 64 % 64 + 0x80) :: UInt8.ofNat (n % 64 + 0x80) :: rest) =
      some (Char.ofNat n) :: decodeFrom none rest := by
  unfold Nat.isValidChar at hvalid
  have hb := toNat_byte (show n / 262144 % 8 + 0xF0 < 256 by omega)
  have hsecond := toNat_byte (show n / 4096 % 64 + 0x80 < 256 by omega)
  have hthird := toNat_byte (show n / 64 % 64 + 0x80 < 256 by omega)
  have hlast := toNat_byte (show n % 64 + 0x80 < 256 by omega)
  have hcode :
      64 * (64 * (64 * (n / 262144 % 8 + 0xF0 - 0xF0) + (n / 4096 % 64 + 0x80 - 0x80)) +
        (n / 64 % 64 + 0x80 - 0x80)) + (n % 64 + 0x80 - 0x80) = n := by
    omega
  rw [decodeFrom_lead, lead_four (by omega) (by omega), hb, List.nil_append,
    decodeFrom_more (by split <;> simp <;> omega) (by split <;> simp <;> omega), hsecond,
    decodeFrom_more (by simp; omega) (by simp; omega), hthird,
    decodeFrom_last (by simp; omega) (by simp; omega), hlast, hcode]

theorem decodeFrom_encodeChar (c : Char) (rest : Bytes) :
    decodeFrom none (String.utf8EncodeChar c ++ rest) = some c :: decodeFrom none rest := by
  have hvalid : c.val.toNat.isValidChar := c.valid
  have hchar : Char.ofNat c.val.toNat = c := Char.ofNat_toNat c
  unfold String.utf8EncodeChar
  generalize c.val.toNat = n at hvalid hchar
  rw [← hchar]
  by_cases hone : n ≤ 0x7F
  · have hb := toNat_byte (show n < 256 by omega)
    rw [if_pos hone, List.cons_append, decodeFrom_lead, lead_one (by omega), hb]
    rfl
  · rw [if_neg hone]
    by_cases htwo : n ≤ 0x7FF
    · rw [if_pos htwo]
      exact decodeFrom_two (by omega) htwo rest
    · rw [if_neg htwo]
      by_cases hthree : n ≤ 0xFFFF
      · rw [if_pos hthree]
        exact decodeFrom_three (by omega) hthree hvalid rest
      · rw [if_neg hthree]
        exact decodeFrom_four (by omega) hvalid rest

theorem decode_encode (chars : List Char) : decode (encode chars) = chars.map some := by
  induction chars with
  | nil =>
      rfl
  | cons c chars ih =>
      unfold decode encode at ih ⊢
      rw [List.flatMap_cons, decodeFrom_encodeChar, ih, List.map_cons]

/-!
# Encoding what was decoded
-/

theorem encodeChar_ofNat {n : Nat} (h : n.isValidChar) :
    String.utf8EncodeChar (Char.ofNat n) =
      if n ≤ 0x7F then [UInt8.ofNat n]
      else if n ≤ 0x7FF then [UInt8.ofNat (n / 64 % 32 + 0xC0), UInt8.ofNat (n % 64 + 0x80)]
      else if n ≤ 0xFFFF then
        [UInt8.ofNat (n / 4096 % 16 + 0xE0), UInt8.ofNat (n / 64 % 64 + 0x80),
          UInt8.ofNat (n % 64 + 0x80)]
      else
        [UInt8.ofNat (n / 262144 % 8 + 0xF0), UInt8.ofNat (n / 4096 % 64 + 0x80),
          UInt8.ofNat (n / 64 % 64 + 0x80), UInt8.ofNat (n % 64 + 0x80)] := by
  have hval : (Char.ofNat n).val.toNat = n := by
    unfold Char.ofNat
    rw [dif_pos h]
    rfl
  unfold String.utf8EncodeChar
  rw [hval]

theorem ofNat_eq_of_toNat {n : Nat} {b : UInt8} (h : n = b.toNat) : UInt8.ofNat n = b := by
  rw [h, UInt8.ofNat_toNat]

theorem within_continuation {p q : Prop} [Decidable p] [Decidable q] {low high : UInt8}
    {n : Nat} (hlow : (if p then low else 0x80).toNat ≤ n)
    (hhigh : n ≤ (if q then high else 0xBF).toNat) (hleast : 0x80 ≤ low.toNat)
    (hgreatest : high.toNat ≤ 0xBF) : 0x80 ≤ n ∧ n ≤ 0xBF := by
  constructor
  · split at hlow
    · exact Nat.le_trans hleast hlow
    · exact hlow
  · split at hhigh
    · exact Nat.le_trans hhigh hgreatest
    · exact hhigh

/-- Every character that is found valid is followed by bytes that are. -/
def StartsChar (bytes : Bytes) : Prop :=
  ∃ c more, bytes = String.utf8EncodeChar c ++ more ∧
    (decodeFrom none more).all Option.isSome = true

theorem startsChar_one {b : UInt8} {rest : Bytes} (hb : b.toNat ≤ 0x7F)
    (h : (decodeFrom none (b :: rest)).all Option.isSome = true) : StartsChar (b :: rest) := by
  rw [decodeFrom_lead, lead_one hb] at h
  refine ⟨Char.ofNat b.toNat, rest, ?_, by simpa using h⟩
  rw [encodeChar_ofNat (Or.inl (by omega)), if_pos hb, UInt8.ofNat_toNat]
  rfl

theorem startsChar_two {b : UInt8} {rest : Bytes} (hlow : 0xC2 ≤ b.toNat)
    (hhigh : b.toNat ≤ 0xDF) (h : (decodeFrom none (b :: rest)).all Option.isSome = true) :
    StartsChar (b :: rest) := by
  rw [decodeFrom_lead, lead_two hlow hhigh, List.nil_append] at h
  rcases exists_continuation h with ⟨last, more, rfl, hlastLow, hlastHigh⟩
  rw [decodeFrom_last hlastLow hlastHigh] at h
  simp only [UInt8.reduceToNat] at hlastLow hlastHigh
  refine ⟨Char.ofNat (64 * (b.toNat - 0xC0) + (last.toNat - 0x80)), more, ?_, by simpa using h⟩
  rw [encodeChar_ofNat (Or.inl (by omega)), if_neg (by omega), if_pos (by omega),
    ofNat_eq_of_toNat (show _ = b.toNat by omega),
    ofNat_eq_of_toNat (show _ = last.toNat by omega)]
  rfl

theorem startsChar_three {b : UInt8} {rest : Bytes} (hlow : 0xE0 ≤ b.toNat)
    (hhigh : b.toNat ≤ 0xEF) (h : (decodeFrom none (b :: rest)).all Option.isSome = true) :
    StartsChar (b :: rest) := by
  rw [decodeFrom_lead, lead_three hlow hhigh, List.nil_append] at h
  rcases exists_continuation h with ⟨second, behind, rfl, hsecondLow, hsecondHigh⟩
  rw [decodeFrom_more hsecondLow hsecondHigh] at h
  rcases exists_continuation h with ⟨last, more, rfl, hlastLow, hlastHigh⟩
  rw [decodeFrom_last hlastLow hlastHigh] at h
  have hfirst : b.toNat = 0xE0 → 0xA0 ≤ second.toNat := by
    intro heq
    simpa [heq] using hsecondLow
  have hsurrogate : b.toNat = 0xED → second.toNat ≤ 0x9F := by
    intro heq
    simpa [heq] using hsecondHigh
  have hsecond : 0x80 ≤ second.toNat ∧ second.toNat ≤ 0xBF :=
    within_continuation hsecondLow hsecondHigh (by decide) (by decide)
  simp only [UInt8.reduceToNat] at hlastLow hlastHigh
  refine ⟨Char.ofNat (64 * (64 * (b.toNat - 0xE0) + (second.toNat - 0x80)) +
    (last.toNat - 0x80)), more, ?_, by simpa using h⟩
  have hvalid : Nat.isValidChar
      (64 * (64 * (b.toNat - 0xE0) + (second.toNat - 0x80)) + (last.toNat - 0x80)) := by
    unfold Nat.isValidChar
    omega
  rw [encodeChar_ofNat hvalid, if_neg (by omega), if_neg (by omega), if_pos (by omega),
    ofNat_eq_of_toNat (show _ = b.toNat by omega),
    ofNat_eq_of_toNat (show _ = second.toNat by omega),
    ofNat_eq_of_toNat (show _ = last.toNat by omega)]
  rfl

theorem startsChar_four {b : UInt8} {rest : Bytes} (hlow : 0xF0 ≤ b.toNat)
    (hhigh : b.toNat ≤ 0xF4) (h : (decodeFrom none (b :: rest)).all Option.isSome = true) :
    StartsChar (b :: rest) := by
  rw [decodeFrom_lead, lead_four hlow hhigh, List.nil_append] at h
  rcases exists_continuation h with ⟨second, behind, rfl, hsecondLow, hsecondHigh⟩
  rw [decodeFrom_more hsecondLow hsecondHigh] at h
  rcases exists_continuation h with ⟨third, behind, rfl, hthirdLow, hthirdHigh⟩
  rw [decodeFrom_more hthirdLow hthirdHigh] at h
  rcases exists_continuation h with ⟨last, more, rfl, hlastLow, hlastHigh⟩
  rw [decodeFrom_last hlastLow hlastHigh] at h
  have hfirst : b.toNat = 0xF0 → 0x90 ≤ second.toNat := by
    intro heq
    simpa [heq] using hsecondLow
  have hbound : b.toNat = 0xF4 → second.toNat ≤ 0x8F := by
    intro heq
    simpa [heq] using hsecondHigh
  have hsecond : 0x80 ≤ second.toNat ∧ second.toNat ≤ 0xBF :=
    within_continuation hsecondLow hsecondHigh (by decide) (by decide)
  simp only [UInt8.reduceToNat] at hthirdLow hthirdHigh hlastLow hlastHigh
  refine ⟨Char.ofNat (64 * (64 * (64 * (b.toNat - 0xF0) + (second.toNat - 0x80)) +
    (third.toNat - 0x80)) + (last.toNat - 0x80)), more, ?_, by simpa using h⟩
  have hvalid : Nat.isValidChar (64 * (64 * (64 * (b.toNat - 0xF0) + (second.toNat - 0x80)) +
      (third.toNat - 0x80)) + (last.toNat - 0x80)) := by
    unfold Nat.isValidChar
    omega
  rw [encodeChar_ofNat hvalid, if_neg (by omega), if_neg (by omega), if_neg (by omega),
    ofNat_eq_of_toNat (show _ = b.toNat by omega),
    ofNat_eq_of_toNat (show _ = second.toNat by omega),
    ofNat_eq_of_toNat (show _ = third.toNat by omega),
    ofNat_eq_of_toNat (show _ = last.toNat by omega)]
  rfl

theorem startsChar_of_valid {b : UInt8} {rest : Bytes}
    (h : (decodeFrom none (b :: rest)).all Option.isSome = true) : StartsChar (b :: rest) := by
  by_cases hone : b.toNat ≤ 0x7F
  · exact startsChar_one hone h
  · by_cases hother : b.toNat < 0xC2 ∨ 0xF4 < b.toNat
    · rw [decodeFrom_lead, lead_other (by omega)] at h
      simp at h
    · by_cases htwo : b.toNat ≤ 0xDF
      · exact startsChar_two (by omega) htwo h
      · by_cases hthree : b.toNat ≤ 0xEF
        · exact startsChar_three (by omega) hthree h
        · exact startsChar_four (by omega) (by omega) h

theorem exists_encode_of_valid (bytes : Bytes)
    (h : (decodeFrom none bytes).all Option.isSome = true) :
    ∃ chars, bytes = encode chars := by
  match bytes with
  | [] =>
      exact ⟨[], rfl⟩
  | b :: rest =>
      rcases startsChar_of_valid h with ⟨c, more, hsplit, hmore⟩
      rcases exists_encode_of_valid more hmore with ⟨chars, hchars⟩
      refine ⟨c :: chars, ?_⟩
      rw [hsplit, hchars, encode, encode, List.flatMap_cons]
termination_by bytes.length
decreasing_by
  have hpositive := Char.utf8Size_pos c
  have hlength := congrArg List.length hsplit
  simp only [List.length_append, String.length_utf8EncodeChar] at hlength
  simp only [List.length_cons] at hlength ⊢
  omega

theorem isValid_iff_exists_encode (bytes : Bytes) :
    isValid bytes = true ↔ ∃ chars, bytes = encode chars := by
  constructor
  · intro h
    exact exists_encode_of_valid bytes h
  · rintro ⟨chars, rfl⟩
    rw [isValid, decode_encode]
    simp

end Utf8
end Stencil
