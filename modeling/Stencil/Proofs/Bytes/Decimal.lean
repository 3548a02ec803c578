import Mathlib.Data.List.Basic
import Stencil.Bytes
import Stencil.Number

/-!
# Decimal numerals

The numeral of a number consists of digits, is as long as the number needs, and is read
back as that number.
-/

namespace Stencil
namespace Bytes

theorem decimal_ne_nil (n : Nat) : decimal n ≠ [] := by
  rw [decimal, ne_eq, List.map_eq_nil_iff]
  exact Nat.toDigits_ne_nil

theorem length_decimal_le {n : Nat} (h : n < Number.unsignedBound) :
    (decimal n).length ≤ 20 := by
  rw [decimal, List.length_map, Nat.length_toDigits_le_iff (by decide) (by decide)]
  exact Nat.lt_trans h (by decide)

theorem isDigit_of_mem_toDigits {n : Nat} {c : Char} (hc : c ∈ Nat.toDigits 10 n) :
    48 ≤ c.toNat ∧ c.toNat ≤ 57 := by
  have hdigit := Nat.isDigit_of_mem_toDigits (by decide) (by decide) hc
  simpa [Char.isDigit, UInt32.le_iff_toNat_le] using hdigit

theorem toNat_toUInt8 {c : Char} (h : c.toNat ≤ 57) : c.toUInt8.toNat = c.toNat := by
  show c.toNat % 256 = c.toNat
  omega

theorem isDigit_of_mem_decimal {n : Nat} {b : UInt8} (hb : b ∈ decimal n) :
    Byte.isDigit b = true := by
  rcases List.mem_map.mp hb with ⟨c, hc, rfl⟩
  have hdigit := isDigit_of_mem_toDigits hc
  have hbyte := toNat_toUInt8 hdigit.right
  simp only [Byte.isDigit, Bool.and_eq_true, decide_eq_true_eq, UInt8.le_iff_toNat_le, hbyte]
  exact hdigit

theorem digitsValue_map {digits : List Char} (h : ∀ c ∈ digits, c.toNat ≤ 57) :
    digitsValue (digits.map Char.toUInt8) = Nat.ofDigitChars 10 digits 0 := by
  rw [digitsValue, Nat.ofDigitChars, List.foldl_map]
  apply List.foldl_ext
  intro value c hc
  rw [toNat_toUInt8 (h c hc)]
  rfl

theorem digitsValue_decimal (n : Nat) : digitsValue (decimal n) = n := by
  rw [decimal, digitsValue_map]
  · exact Nat.ofDigitChars_ten_toDigits
  · intro c hc
    exact (isDigit_of_mem_toDigits hc).right

end Bytes
end Stencil
