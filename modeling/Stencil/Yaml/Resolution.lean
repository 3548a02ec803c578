import Stencil.Bytes.Utf8
import Stencil.Document
import Stencil.Yaml.Character
import Stencil.Yaml.Node

/-!
# Resolution

The document that a tree of nodes denotes.  A plain scalar without a tag is nothing, a
truth value, a number or a text, by its form; aliases are replaced by what they stand for.
-/

namespace Stencil
namespace Yaml

/-!
# Scalars
-/

namespace Plain

def isNull (text : List Char) : Bool :=
  ["~", "null", "Null", "NULL"].any (·.toList == text)

def bool? (text : List Char) : Option Bool :=
  if ["true", "True", "TRUE"].any (·.toList == text) then some true
  else if ["false", "False", "FALSE"].any (·.toList == text) then some false
  else none

def after? (lead text : List Char) : Option (List Char) :=
  if lead.isPrefixOf text then some (text.drop lead.length) else none

def isSign (c : Char) : Bool :=
  c == '+' || c == '-'

/-- Integers of 128 signed bits are not below the negative of this bound. -/
def signedBound : Nat := 0x80000000000000000000000000000000

/-- Integers of 128 unsigned bits are below this bound, at which
larger numbers are cut off. -/
def unsignedBound : Nat := 0x100000000000000000000000000000000

def natural? (base : Nat) (digits : List Char) : Option Nat :=
  if digits.isEmpty then none
  else digits.foldlM (fun value c =>
    match hexDigit? c with
    | some d => if d < base then some (min (base * value + d) unsignedBound) else none
    | none => none) 0

/-- Decimal digits that start with a zero but are not just that, perhaps behind a sign. -/
def isPadded (text : List Char) : Bool :=
  let digits := if text.head?.any isSign then text.drop 1 else text
  1 < digits.length && digits.head? == some '0' && digits.all Char.isDigit

def magnitude? (text : List Char) : Option Nat :=
  let marked := [("0x", 16), ("0o", 8), ("0b", 2)].findSome? fun (mark, base) =>
    (after? mark.toList text).bind (natural? base)
  marked <|> natural? 10 text

def integer? (text : List Char) : Option Int :=
  if isPadded text then none
  else
    match text with
    | '-' :: rest => do
      let n ← magnitude? rest
      if n ≤ signedBound then some (-(n : Int)) else none
    | '+' :: rest => do
      let n ← magnitude? rest
      if n < unsignedBound then some (n : Int) else none
    | _ => do
      let n ← magnitude? text
      if n < unsignedBound then some (n : Int) else none

/-- The digits of a mantissa and how many of them are behind its point. -/
def mantissa? (text : List Char) : Option (List Char × Nat) :=
  let whole := text.takeWhile Char.isDigit
  match text.dropWhile Char.isDigit with
  | [] => if whole.isEmpty then none else some (whole, 0)
  | '.' :: fraction =>
    if fraction.all Char.isDigit ∧ !(whole.isEmpty ∧ fraction.isEmpty) then
      some (whole ++ fraction, fraction.length)
    else none
  | _ => none

def exponent? (text : List Char) : Option Int :=
  match text with
  | '-' :: digits => (natural? 10 digits).map fun n => -(n : Int)
  | '+' :: digits => (natural? 10 digits).map fun n => (n : Int)
  | digits => (natural? 10 digits).map fun n => (n : Int)

/-- Numbers halfway between two of floating point have fewer digits than this. -/
def digitBound : Nat := 800

/-- A significand and a power of ten for digits of any number.  Of the digits
behind the bound it only matters whether they are zeros, so that a single other
digit may stand for them. -/
def scaled (digits : List Char) (exponent : Int) : Nat × Int :=
  let digits := digits.dropWhile (· == '0')
  let rest := digits.drop digitBound
  let significand := Nat.ofDigitChars 10 (digits.take digitBound) 0
  if rest.all (· == '0') then (significand, exponent + rest.length)
  else (10 * significand + 1, exponent + rest.length - 1)

/-- Exponents far beyond the range of floating point need not be told apart. -/
def decimal? (negative : Bool) (digits : List Char) (exponent : Int) : Option Binary64 :=
  let (significand, exponent) := scaled digits exponent
  if significand = 0 then some (.zero negative)
  else if 400 < exponent then none
  else if exponent < -((digitBound : Int) + 400) then some (.zero negative)
  else Binary64.ofDecimal negative significand exponent

def double? (text : List Char) : Option Binary64 :=
  let negative := text.head? == some '-'
  let unsigned := if text.head?.any isSign then text.drop 1 else text
  let mantissa := unsigned.takeWhile fun c => c != 'e' && c != 'E'
  let rest := unsigned.drop mantissa.length
  match mantissa? mantissa, rest with
  | some (digits, places), [] => decimal? negative digits (-(places : Int))
  | some (digits, places), _ :: power =>
    (exponent? power).bind fun e => decimal? negative digits (e - places)
  | none, _ => none

/-- The values that are no numbers of a document. -/
def isSpecial (text : List Char) : Bool :=
  let unsigned := if text.head? = some '+' then text.drop 1 else text
  [".inf", ".Inf", ".INF"].any (·.toList == unsigned) ||
    ["-.inf", "-.Inf", "-.INF", ".nan", ".NaN", ".NAN"].any (·.toList == text)

def integerDocument (value : Int) : Option Document :=
  if Number.fits value then some (.number (.integer value)) else none

def doubleDocument? (text : List Char) : Option Document :=
  if isSpecial text then some .null
  else (double? text).map fun x => .number (.double x)

def resolve (text : List Char) : Option Document :=
  if text.isEmpty ∨ isNull text then some .null
  else
    match bool? text, integer? text with
    | some b, _ => some (.bool b)
    | none, some value => integerDocument value
    | none, none =>
      let asText := Document.string (Utf8.encode text)
      if isPadded text then some asText else some ((doubleDocument? text).getD asText)

end Plain

namespace Tag

def coreTag (name : String) : Bytes :=
  Bytes.ofText ("tag:yaml.org,2002:" ++ name)

def exclamationMark : UInt8 := 0x21

/-- Tags that are not global; those that are text call for types that are not known
here. -/
def isLocal (tag : Bytes) : Bool :=
  tag.head? == some exclamationMark

def isForeign (tag : Bytes) : Bool :=
  isLocal tag && Utf8.isValid tag

end Tag

/-- The document that a scalar denotes: by its tag, or by its form if it is plain.  A
local tag that is not text does not count. -/
def resolveScalar (tag : Option Bytes) (plain : Bool) (text : List Char) : Option Document :=
  let asText := Document.string (Utf8.encode text)
  let byForm := if plain then Plain.resolve text else some asText
  match tag with
  | none => byForm
  | some tag =>
    if Tag.isForeign tag then none
    else if Tag.isLocal tag then byForm
    else if tag = Tag.coreTag "bool" then (Plain.bool? text).map .bool
    else if tag = Tag.coreTag "int" then (Plain.integer? text).bind Plain.integerDocument
    else if tag = Tag.coreTag "float" then Plain.doubleDocument? text
    else if tag = Tag.coreTag "null" then if Plain.isNull text then some .null else none
    else some asText

/-!
# Trees
-/

/-- Looks through an alias, of which a limited number of `jumps` is left. -/
def dereference (r : Reader) (node : Node) (jumps : Nat) : Option (Node × Nat) :=
  match node, jumps with
  | .alias _, 0 => none
  | .alias number, jumps + 1 => (r.target? number).map (·, jumps)
  | node, jumps => some (node, jumps)

def resolveKey (r : Reader) (key : Node) (jumps : Nat) : Option (Bytes × Nat) :=
  match dereference r key jumps with
  | some (.scalar _ _ text, jumps) => some (Utf8.encode text, jumps)
  | _ => none

def resolveItems (resolve : Node → Nat → Option (Document × Nat)) :
    List Node → Nat → Option (List Document × Nat)
  | [], jumps => some ([], jumps)
  | item :: rest, jumps => do
    let (document, jumps) ← resolve item jumps
    let (documents, jumps) ← resolveItems resolve rest jumps
    some (document :: documents, jumps)

def resolvePairs (r : Reader) (resolve : Node → Nat → Option (Document × Nat))
    (object : Dict Document) : List (Node × Node) → Nat → Option (Dict Document × Nat)
  | [], jumps => some (object, jumps)
  | (key, value) :: rest, jumps => do
    let (key, jumps) ← resolveKey r key jumps
    let (document, jumps) ← resolve value jumps
    resolvePairs r resolve (object.put key document) rest jumps

/-- The document of a tree whose collections are nested at most `depth` levels deep. -/
def resolveNode (r : Reader) : Nat → Node → Nat → Option (Document × Nat)
  | depth, node, jumps => do
    let (node, jumps) ← dereference r node jumps
    match node, depth with
    | .scalar tag plain text, _ => (resolveScalar tag plain text).map (·, jumps)
    | .sequence tag items, depth + 1 =>
      if tag.any Tag.isForeign then none
      else (resolveItems (resolveNode r depth) items jumps).map fun (items, jumps) =>
        (.array items, jumps)
    | .mapping tag pairs, depth + 1 =>
      if tag.any Tag.isForeign then none
      else (resolvePairs r (resolveNode r depth) .empty pairs jumps).map fun (object, jumps) =>
        (.object object, jumps)
    | _, _ => none

end Yaml
end Stencil
