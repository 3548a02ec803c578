import Stencil.Bytes.Utf8
import Stencil.Document
import Stencil.Json.Numeral
import Stencil.Log

/-!
# JSON

Reads a JSON text.  The text is UTF-8 without a byte order mark, arrays and objects are
nested less than 128 deep, and escaped surrogates come in pairs.
-/

namespace Stencil
namespace Json

def isBlank (b : UInt8) : Bool :=
  b == 0x20 || b == 0x09 || b == 0x0A || b == 0x0D

def skipBlank (bytes : Bytes) : Bytes :=
  bytes.dropWhile isBlank

def expect (word : Bytes) (bytes : Bytes) : Option Bytes :=
  if word.isPrefixOf bytes then some (bytes.drop word.length) else none

/-!
# Strings
-/

def quote : UInt8 := 0x22

def hexDigit? (b : UInt8) : Option Nat :=
  if Byte.isDigit b then some (b.toNat - 0x30)
  else if 0x61 ≤ b && b ≤ 0x66 then some (b.toNat - 0x61 + 10)
  else if 0x41 ≤ b && b ≤ 0x46 then some (b.toNat - 0x41 + 10)
  else none

def hex4? : Bytes → Option (Nat × Bytes)
  | a :: b :: c :: d :: rest => do
    let a ← hexDigit? a
    let b ← hexDigit? b
    let c ← hexDigit? c
    let d ← hexDigit? d
    some (((a * 16 + b) * 16 + c) * 16 + d, rest)
  | _ => none

def isHighSurrogate (n : Nat) : Bool :=
  0xD800 ≤ n && n ≤ 0xDBFF

def isLowSurrogate (n : Nat) : Bool :=
  0xDC00 ≤ n && n ≤ 0xDFFF

def codePoint (n : Nat) : Bytes :=
  String.utf8EncodeChar (Char.ofNat n)

/-- The character of an escape by number, a pair of surrogates making one. -/
def unicodeEscape (bytes : Bytes) : Option (Bytes × Bytes) := do
  let (n, rest) ← hex4? bytes
  if isHighSurrogate n then
    let rest ← expect [0x5C, 0x75] rest
    let (low, rest) ← hex4? rest
    if isLowSurrogate low then
      some (codePoint (0x10000 + (n - 0xD800) * 0x400 + (low - 0xDC00)), rest)
    else none
  else if isLowSurrogate n then none
  else some (codePoint n, rest)

def escape : Bytes → Option (Bytes × Bytes)
  | [] => none
  | b :: rest =>
    if b = quote ∨ b = Byte.backslash ∨ b = 0x2F then some ([b], rest)
    else if b = 0x62 then some ([0x08], rest)
    else if b = 0x66 then some ([0x0C], rest)
    else if b = 0x6E then some ([0x0A], rest)
    else if b = 0x72 then some ([0x0D], rest)
    else if b = 0x74 then some ([0x09], rest)
    else if b = 0x75 then unicodeEscape rest
    else none

/-- Reads on through a string to its closing quote: its content, and
what follows the quote. -/
def stringFrom : Nat → Log UInt8 → Bytes → Option (Bytes × Bytes)
  | 0, _, _ => none
  | _, _, [] => none
  | fuel + 1, content, b :: rest =>
    if b = quote then some (content.toList, rest)
    else if b = Byte.backslash then do
      let (bytes, rest) ← escape rest
      stringFrom fuel (content.append bytes) rest
    else if b < 0x20 then none
    else stringFrom fuel (content.append [b]) rest

def string (bound : Nat) (bytes : Bytes) : Option (Bytes × Bytes) :=
  stringFrom bound .empty bytes

/-!
# Values
-/

def comma : UInt8 := 0x2C

def colon : UInt8 := 0x3A

/-- Containers are nested fewer than this many levels deep. -/
def depthBound : Nat := 128

mutual

/-- The value at the start of a text, with `depth` bounding the levels of
containers.  Every two steps read a byte at least, so that as many steps are
left as there are bytes. -/
def value : Nat → Nat → Bytes → Option (Document × Bytes)
  | 0, _, _ => none
  | fuel + 1, depth, bytes =>
    match bytes with
    | [] => none
    | b :: rest =>
      if b = quote then (string fuel rest).map fun r => (.string r.1, r.2)
      else if b = Byte.openBracket then
        if depth ≤ 1 then none
        else match skipBlank rest with
          | [] => none
          | c :: rest =>
            if c = Byte.closeBracket then some (.array [], rest)
            else (items fuel (depth - 1) (c :: rest)).map fun r => (.array r.1, r.2)
      else if b = Byte.openBrace then
        if depth ≤ 1 then none
        else match skipBlank rest with
          | [] => none
          | c :: rest =>
            if c = Byte.closeBrace then some (.object .empty, rest)
            else (members fuel (depth - 1) .empty (c :: rest)).map fun r => (.object r.1, r.2)
      else if b = Numeral.minus ∨ Byte.isDigit b then do
        let (numeral, rest) ← Numeral.read (b :: rest)
        let number ← numeral.number
        some (.number number, rest)
      else if b = 0x6E then (expect (Bytes.ofText "null") (b :: rest)).map (.null, ·)
      else if b = 0x74 then (expect (Bytes.ofText "true") (b :: rest)).map (.bool true, ·)
      else if b = 0x66 then (expect (Bytes.ofText "false") (b :: rest)).map (.bool false, ·)
      else none

/-- The elements of an array up to its closing bracket. -/
def items : Nat → Nat → Bytes → Option (List Document × Bytes)
  | 0, _, _ => none
  | fuel + 1, depth, bytes => do
    let (item, rest) ← value fuel depth bytes
    match skipBlank rest with
    | [] => none
    | c :: rest =>
      if c = Byte.closeBracket then some ([item], rest)
      else if c = comma then do
        let (more, rest) ← items fuel depth (skipBlank rest)
        some (item :: more, rest)
      else none

/-- The object with the members read so far and those up to its closing brace. -/
def members : Nat → Nat → Dict Document → Bytes → Option (Dict Document × Bytes)
  | 0, _, _, _ => none
  | fuel + 1, depth, object, bytes => do
    let rest ← expect [quote] bytes
    let (key, rest) ← string fuel rest
    let rest ← expect [colon] (skipBlank rest)
    let (member, rest) ← value fuel depth (skipBlank rest)
    let object := object.put key member
    match skipBlank rest with
    | [] => none
    | c :: rest =>
      if c = Byte.closeBrace then some (object, rest)
      else if c = comma then members fuel depth object (skipBlank rest)
      else none

end

def parse (bytes : Bytes) : Option Document := do
  if !Utf8.isValid bytes then none
  else
    let (document, rest) ← value (2 * bytes.length + 2) depthBound (skipBlank bytes)
    if (skipBlank rest).isEmpty then some document else none

end Json
end Stencil
