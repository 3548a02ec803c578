/-!
# Byte strings

Keys, paths, string values, template sources and output are strings of bytes, which need
not be text.  This module fixes their type, names the bytes that the formats single out,
and writes and reads decimal numerals.
-/

namespace Stencil

abbrev Bytes := List UInt8

/-!
# Named bytes
-/

namespace Byte

abbrev tab : UInt8 := 0x09
abbrev newline : UInt8 := 0x0A
abbrev space : UInt8 := 0x20
abbrev hash : UInt8 := 0x23
abbrev dash : UInt8 := 0x2D
abbrev dot : UInt8 := 0x2E
abbrev zero : UInt8 := 0x30
abbrev equals : UInt8 := 0x3D
abbrev openBracket : UInt8 := 0x5B
abbrev backslash : UInt8 := 0x5C
abbrev closeBracket : UInt8 := 0x5D
abbrev underscore : UInt8 := 0x5F
abbrev openBrace : UInt8 := 0x7B
abbrev closeBrace : UInt8 := 0x7D
abbrev tilde : UInt8 := 0x7E

def isDigit (b : UInt8) : Bool :=
  0x30 ≤ b && b ≤ 0x39

def isLetter (b : UInt8) : Bool :=
  (0x41 ≤ b && b ≤ 0x5A) || (0x61 ≤ b && b ≤ 0x7A)

/-- Upper-case ASCII letters become lower-case ones, all other bytes stay. -/
def toLower (b : UInt8) : UInt8 :=
  if 0x41 ≤ b && b ≤ 0x5A then b + 0x20 else b

end Byte

namespace Bytes

def ofText (text : String) : Bytes :=
  text.toList.flatMap String.utf8EncodeChar

/-- The text before and after the first `b`, when there is one. -/
def cutAt (b : UInt8) (bytes : Bytes) : Option (Bytes × Bytes) :=
  if b ∈ bytes then
    some (bytes.takeWhile (· != b), (bytes.dropWhile (· != b)).drop 1)
  else
    none

def countNewlines (bytes : Bytes) : Nat :=
  bytes.count Byte.newline

/-!
# Decimal numerals
-/

def decimal (n : Nat) : Bytes :=
  (Nat.toDigits 10 n).map Char.toUInt8

def decimalInt (i : Int) : Bytes :=
  if i < 0 then Byte.dash :: decimal i.natAbs else decimal i.natAbs

/-- The number that a string of decimal digits denotes. -/
def digitsValue (digits : Bytes) : Nat :=
  digits.foldl (fun value b => 10 * value + (b.toNat - Byte.zero.toNat)) 0

end Bytes

end Stencil
