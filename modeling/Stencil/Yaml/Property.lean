import Stencil.Log
import Stencil.Yaml.Cursor
import Stencil.Yaml.Token

/-!
# Directives and node properties

Directives before a document, and the anchors, aliases and tags of nodes.  The parameter
`bound` of a reader is the number of characters left, or more.
-/

namespace Stencil
namespace Yaml

/-!
# Tags
-/

namespace Tag

/-- Characters of a tag; inside of angle brackets or in a directive
also the `flow` ones. -/
def isUriChar (flow : Bool) (c : Char) : Bool :=
  isWordChar c || ";/?:@&=+$.%!~*'()".toList.contains c || (flow && ",[]".toList.contains c)

def encodedLength? (first : UInt8) : Option Nat :=
  if first < 0x80 then some 1
  else if 0xC0 ≤ first ∧ first < 0xE0 then some 2
  else if 0xE0 ≤ first ∧ first < 0xF0 then some 3
  else if 0xF0 ≤ first ∧ first < 0xF8 then some 4
  else none

def escapedByte? (c : Cursor) : Option (UInt8 × Cursor) :=
  match c.rest with
  | '%' :: a :: b :: _ => do
    let high ← hexDigit? a
    let low ← hexDigit? b
    some ((16 * high + low).toUInt8, c.skip 3)
  | _ => none

def escapedBytes : Nat → Cursor → Option (Bytes × Cursor)
  | 0, c => some ([], c)
  | n + 1, c => do
    let (b, c) ← escapedByte? c
    if 0x80 ≤ b ∧ b < 0xC0 then
      let (more, c) ← escapedBytes n c
      some (b :: more, c)
    else none

/-- A run of escaped bytes as long as its first one says.  The bytes need
not encode a character. -/
def escapedRun (c : Cursor) : Option (Bytes × Cursor) := do
  let (first, c) ← escapedByte? c
  let length ← encodedLength? first
  let (more, c) ← escapedBytes (length - 1) c
  some (first :: more, c)

/-- Reads on through the characters of a tag. -/
def uriFrom (flow : Bool) : Nat → Log UInt8 → Cursor → Option (Bytes × Cursor)
  | 0, bytes, c => some (bytes.toList, c)
  | fuel + 1, bytes, c =>
    match c.peek with
    | none => some (bytes.toList, c)
    | some char =>
      if char = '%' then do
        let (run, c) ← escapedRun c
        uriFrom flow fuel (bytes.append run) c
      else if isUriChar flow char then
        uriFrom flow fuel (bytes.append [char.toUInt8]) (c.skip 1)
      else some (bytes.toList, c)

def uri (bound : Nat) (flow : Bool) (c : Cursor) : Option (Bytes × Cursor) :=
  uriFrom flow bound .empty c

/-- A zero byte, which only an escape can bring in, ends a tag. -/
def untilZero (bytes : Bytes) : Bytes :=
  bytes.takeWhile (· != 0)

def bare : Bytes := Bytes.ofText "!"

def handle (c : Cursor) : Option (List Char × Cursor) :=
  if c.sees '!' then
    let (word, c) := (c.skip 1).takeWhile isWordChar
    if c.sees '!' then some ('!' :: word ++ ['!'], c.skip 1) else some ('!' :: word, c)
  else none

def isNamedHandle (handle : List Char) : Bool :=
  1 < handle.length && handle.getLast? == some '!'

/-- The handle and the suffix of a tag that is not in angle brackets. -/
def shorthand (bound : Nat) (c : Cursor) : Option (Token × Cursor) := do
  let (handle, c) ← handle c
  let (bytes, c) ← uri bound false c
  if isNamedHandle handle then
    if bytes.isEmpty then none else some (.tag handle (untilZero bytes), c)
  else
    let suffix := untilZero ((handle.drop 1).map Char.toUInt8 ++ bytes)
    if suffix.isEmpty then some (.tag [] bare, c) else some (.tag ['!'] suffix, c)

def verbatim (bound : Nat) (c : Cursor) : Option (Token × Cursor) := do
  let (bytes, c) ← uri bound true c
  if !bytes.isEmpty ∧ c.sees '>' then some (.tag [] (untilZero bytes), c.skip 1) else none

/-- The tag at the cursor, which blank space has to follow, or a comma in a flow
collection. -/
def read (bound : Nat) (inFlow : Bool) (c : Cursor) : Option (Token × Cursor) := do
  let (tag, c) ← if c.peekAt 1 = some '<' then verbatim bound (c.skip 2) else shorthand bound c
  if isBlankOrEnd c.peek ∨ (inFlow ∧ c.sees ',') then some (tag, c) else none

end Tag

/-!
# Anchors and aliases
-/

namespace Anchor

/-- The name behind an indicator, up to blank space or an indicator that may follow it. -/
def name (c : Cursor) : Option (List Char × Cursor) :=
  let (name, c) := (c.skip 1).takeWhile isWordChar
  if name.isEmpty then none
  else if isBlankOrEnd c.peek ∨ c.peek.any ("?:,]\x7d%@`".toList.contains ·) then
    some (name, c)
  else none

end Anchor

/-!
# Directives
-/

namespace Directive

/-- A number of at most nine digits. -/
def number (c : Cursor) : Option (Nat × Cursor) :=
  let (digits, c) := c.takeWhile Char.isDigit
  if digits.isEmpty ∨ 9 < digits.length then none else some (Nat.ofDigitChars 10 digits 0, c)

def version (c : Cursor) : Option (Token × Cursor) := do
  let (major, c) ← number (c.skipWhile isBlank)
  if c.sees '.' then
    let (minor, c) ← number (c.skip 1)
    some (.versionDirective major minor, c)
  else none

def tag (bound : Nat) (c : Cursor) : Option (Token × Cursor) := do
  let (handle, c) ← Tag.handle (c.skipWhile isBlank)
  if (handle = ['!'] ∨ Tag.isNamedHandle handle) ∧ c.peek.any isBlank then
    let (bytes, c) ← Tag.uri bound true (c.skipWhile isBlank)
    if !bytes.isEmpty ∧ isBlankOrEnd c.peek then
      some (.tagDirective handle (Tag.untilZero bytes), c)
    else none
  else none

/-- The directive at a percent sign, to the end of its line. -/
def read (bound : Nat) (c : Cursor) : Option (Token × Cursor) := do
  let (name, c) := (c.skip 1).takeWhile isWordChar
  let (token, c) ←
    if !isBlankOrEnd c.peek then none
    else if name = "YAML".toList then version c
    else if name = "TAG".toList then tag bound c
    else none
  let c ← c.skipLineEnd
  some (token, c)

end Directive
end Yaml
end Stencil
