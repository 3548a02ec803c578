import Stencil.Log
import Stencil.Yaml.Cursor

/-!
# Scalars

The texts of quoted, plain and block scalars.  Blank space inside a scalar keeps its
spaces within a line; across lines it is folded.  The parameter `bound` of a reader is
greater than the number of characters left.
-/

namespace Stencil
namespace Yaml

/-!
# Blank space
-/

/-- Blank space between two parts of a scalar: the spaces, or once a line was broken the
first break and all further ones. -/
structure Gap where
  spaces : Log Char := .empty
  broken : Bool := false
  firstBreak : List Char := []
  moreBreaks : Log Char := .empty

namespace Gap

/-- What the space contributes to the scalar: a single line break becomes a space. -/
def text (g : Gap) : List Char :=
  if !g.broken then g.spaces.toList
  else if g.firstBreak = ['\n'] then
    if g.moreBreaks.size = 0 then [' '] else g.moreBreaks.toList
  else g.firstBreak ++ g.moreBreaks.toList

/-- Reads on through blank space.  After a break, tabs may stand only
from column `margin` on. -/
def read (margin : Nat) : Nat → Gap → Cursor → Option (Gap × Cursor)
  | 0, g, c => some (g, c)
  | fuel + 1, g, c =>
    match c.peek with
    | none => some (g, c)
    | some char =>
      if isBlank char then
        if g.broken ∧ c.column < margin ∧ char = '\t' then none
        else if g.broken then read margin fuel g (c.skip 1)
        else read margin fuel { g with spaces := g.spaces.append [char] } (c.skip 1)
      else if isBreak char then
        let (kept, next) := c.takeBreak
        if g.broken then
          read margin fuel { g with moreBreaks := g.moreBreaks.append kept } next
        else
          read margin fuel { g with spaces := .empty, broken := true, firstBreak := kept } next
      else some (g, c)

end Gap

/-!
# Quoted scalars
-/

namespace Quoted

def hexNumber (digits : List Char) : Option Nat :=
  digits.foldlM (fun value c => (hexDigit? c).map (16 * value + ·)) 0

def numbered (count : Nat) (c : Cursor) : Option (List Char × Cursor) := do
  let digits := c.rest.take count
  let value ← if digits.length = count then hexNumber digits else none
  if (0xD800 ≤ value ∧ value ≤ 0xDFFF) ∨ 0x10FFFF < value then none
  else some ([Char.ofNat value], c.skip count)

def escape (c : Cursor) : Option (List Char × Cursor) := do
  let char ← c.peek
  let next := c.skip 1
  match char with
  | '0' => some (['\x00'], next)
  | 'a' => some (['\x07'], next)
  | 'b' => some (['\x08'], next)
  | 't' => some (['\t'], next)
  | '\t' => some (['\t'], next)
  | 'n' => some (['\n'], next)
  | 'v' => some (['\x0B'], next)
  | 'f' => some (['\x0C'], next)
  | 'r' => some (['\r'], next)
  | 'e' => some (['\x1B'], next)
  | ' ' => some ([' '], next)
  | '"' => some (['"'], next)
  | '/' => some (['/'], next)
  | '\\' => some (['\\'], next)
  | 'N' => some (['\u0085'], next)
  | '_' => some (['\u00A0'], next)
  | 'L' => some (['\u2028'], next)
  | 'P' => some (['\u2029'], next)
  | 'x' => numbered 2 next
  | 'u' => numbered 4 next
  | 'U' => numbered 8 next
  | _ => none

def mark (single : Bool) : Char :=
  if single then '\'' else '"'

/-- The part up to blank space or the closing quote, and whether it
ends in an escaped break. -/
def part (single : Bool) : Nat → Log Char → Cursor → Option (Log Char × Bool × Cursor)
  | 0, text, c => some (text, false, c)
  | fuel + 1, text, c =>
    match c.peek with
    | none => some (text, false, c)
    | some char =>
      if isBlank char ∨ isBreak char then some (text, false, c)
      else if single ∧ char = '\'' ∧ c.peekAt 1 = some '\'' then
        part single fuel (text.append ['\'']) (c.skip 2)
      else if char = mark single then some (text, false, c)
      else if !single ∧ char = '\\' then
        if (c.peekAt 1).any isBreak then some (text, true, (c.skip 1).skipBreak)
        else do
          let (chars, next) ← escape (c.skip 1)
          part single fuel (text.append chars) next
      else part single fuel (text.append [char]) (c.skip 1)

/-- Reads parts and the space between them up to the closing quote. -/
def parts (single : Bool) (bound : Nat) :
    Nat → Log Char → Cursor → Option (List Char × Cursor)
  | 0, _, _ => none
  | fuel + 1, text, c => do
    if c.atDocumentMarker ∨ c.peek.isNone then none
    else
      let (text, escaped, c) ← part single bound text c
      if c.sees (mark single) then some (text.toList, c.skip 1)
      else
        let (gap, c) ← Gap.read 0 bound { broken := escaped } c
        parts single bound fuel (text.append gap.text) c

def read (bound : Nat) (single : Bool) (c : Cursor) : Option (List Char × Cursor) :=
  parts single bound bound .empty (c.skip 1)

end Quoted

/-!
# Plain scalars
-/

namespace Plain

/-- The part up to blank space or an indicator that ends the scalar. -/
def part (inFlow : Bool) : Nat → Log Char → Cursor → Option (List Char × Cursor)
  | 0, text, c => some (text.toList, c)
  | fuel + 1, text, c =>
    match c.peek with
    | none => some (text.toList, c)
    | some char =>
      let next := c.peekAt 1
      if isBlank char ∨ isBreak char then some (text.toList, c)
      else if inFlow ∧ char = ':' ∧ next.any (fun n => n == '?' || isFlowIndicator n) then none
      else if char = ':' ∧ isBlankOrEnd next then some (text.toList, c)
      else if inFlow ∧ isFlowIndicator char then some (text.toList, c)
      else part inFlow fuel (text.append [char]) (c.skip 1)

/-- Reads parts and the space between them, where `gap` is the space before the cursor.
The last component tells whether the scalar ends behind a line break. -/
def parts (inFlow : Bool) (margin bound : Nat) :
    Nat → Log Char → Gap → Cursor → Option (List Char × Cursor × Bool)
  | 0, _, _, _ => none
  | fuel + 1, text, gap, c => do
    if c.atDocumentMarker ∨ c.sees '#' then some (text.toList, c, gap.broken)
    else
      let (chars, next) ← part inFlow bound .empty c
      let broken := gap.broken && chars.isEmpty
      let text := if chars.isEmpty then text else text.append (gap.text ++ chars)
      match next.peek with
      | none => some (text.toList, next, broken)
      | some char =>
        if isBlank char ∨ isBreak char then
          let (gap, next) ← Gap.read margin bound {} next
          if !inFlow ∧ next.column < margin then some (text.toList, next, gap.broken)
          else parts inFlow margin bound fuel text gap next
        else some (text.toList, next, broken)

/-- The plain scalar at the cursor; outside of flow collections its
lines start at `margin`. -/
def read (bound : Nat) (inFlow : Bool) (margin : Nat) (c : Cursor) :
    Option (List Char × Cursor × Bool) :=
  parts inFlow margin bound bound .empty {} c

end Plain

/-!
# Block scalars
-/

namespace Block

inductive Chomping where
  | strip
  | clip
  | keep
  deriving DecidableEq, Repr

def chomping? (c : Cursor) : Option Chomping :=
  if c.sees '+' then some .keep else if c.sees '-' then some .strip else none

def increment? (c : Cursor) : Option Nat :=
  match c.peek with
  | some char => if char.isDigit then some (char.toNat - '0'.toNat) else none
  | none => none

/-- The indicators of a header in either order; an increment is not zero. -/
def header (c : Cursor) : Option (Chomping × Option Nat × Cursor) :=
  match chomping? c with
  | some chomping =>
    let c := c.skip 1
    match increment? c with
    | some 0 => none
    | some n => some (chomping, some n, c.skip 1)
    | none => some (chomping, none, c)
  | none =>
    match increment? c with
    | some 0 => none
    | some n =>
      let c := c.skip 1
      match chomping? c with
      | some chomping => some (chomping, some n, c.skip 1)
      | none => some (.clip, some n, c)
    | none => some (.clip, none, c)

/-- Whether an indentation is not known yet or not reached. -/
def short (indent : Option Nat) (column : Nat) : Bool :=
  match indent with
  | some indent => column < indent
  | none => true

/-- Reads empty lines up to the first that is not: the breaks, the greatest column, and
the cursor behind the indentation. -/
def breaks (indent : Option Nat) :
    Nat → Log Char → Nat → Cursor → Option (List Char × Nat × Cursor)
  | 0, _, _, _ => none
  | fuel + 1, text, widest, c =>
    let spaces := match indent with
      | some indent => (c.rest.take (indent - c.column)).takeWhile (· == ' ')
      | none => c.rest.takeWhile (· == ' ')
    let c := c.skip spaces.length
    let widest := max widest c.column
    if short indent c.column ∧ c.sees '\t' then none
    else if c.peek.any isBreak then
      let (kept, next) := c.takeBreak
      breaks indent fuel (text.append kept) widest next
    else some (text.toList, widest, c)

/-- The lines of a scalar from the cursor on, which is behind their indentation: the text
so far, the break before the line and the empty lines after it, and whether the line
before was indented further. -/
def lines (literal : Bool) (indent bound : Nat) :
    Nat → Log Char → List Char → List Char → Bool → Cursor →
      Option (List Char × List Char × List Char × Cursor)
  | 0, _, _, _, _, _ => none
  | fuel + 1, text, before, empty, indented, c =>
    if c.column = indent ∧ c.peek.isSome then do
      let deeper := c.peek.any isBlank
      let joined :=
        if !literal ∧ before.head? = some '\n' ∧ !indented ∧ !deeper then
          if empty.isEmpty then [' '] else []
        else before
      let (chars, next) := c.takeWhile fun char => !isBreak char
      let (break_, next) := next.takeBreak
      let (more, _, next) ← breaks (some indent) bound .empty 0 next
      lines literal indent bound fuel (text.append (joined ++ empty ++ chars)) break_
        more deeper next
    else some (text.toList, before, empty, c)

/-- The block scalar at its indicator, inside a block that is indented by `parent`. -/
def read (bound : Nat) (literal : Bool) (parent : Int) (c : Cursor) :
    Option (List Char × Cursor) := do
  let (chomping, increment, c) ← header (c.skip 1)
  let c ← c.skipLineEnd
  let given := increment.map fun n => if 0 ≤ parent then parent.toNat + n else n
  let (empty, widest, c) ← breaks given bound .empty 0 c
  let indent := given.getD (max widest (max (parent + 1) 1).toNat)
  let (text, last, trailing, c) ← lines literal indent bound bound .empty [] empty false c
  match chomping with
  | .strip => some (text, c)
  | .clip => some (text ++ last, c)
  | .keep => some (text ++ last ++ trailing, c)

end Block
end Yaml
end Stencil
