import Stencil.Yaml.Property
import Stencil.Yaml.Scalar

/-!
# Scanning

Cuts a YAML text into tokens.  Indentation opens and closes blocks.  Whether a scalar is a
key shows only at the colon behind it, so that its token, and the start of its mapping,
are put in afterwards; such a key lies on one line and is at most 1024 bytes long.  The
parameter `bound` of a reader is greater than the number of characters left.
-/

namespace Stencil
namespace Yaml

/-- A place where a key may have started: how many tokens there were, and the position. -/
structure KeyStart where
  /-- A line at the indentation of its block has to be a key. -/
  required : Bool
  tokens : Nat
  index : Nat
  line : Nat
  column : Nat

structure Scanner where
  cursor : Cursor
  tokens : Array Token := #[]
  /-- The column of the current block, below zero outside of all blocks. -/
  indent : Int := -1
  /-- The columns of the blocks around it, innermost first. -/
  outer : List Int := []
  keyAllowed : Bool := true
  /-- The possible key outside of flow collections and in each of
  them, innermost first. -/
  keys : List (Option KeyStart) := [none]

namespace Scanner

def inFlow (s : Scanner) : Bool :=
  !(s.keys.drop 1).isEmpty

def emit (s : Scanner) (token : Token) : Scanner :=
  { s with tokens := s.tokens.push token }

def skip (s : Scanner) (n : Nat) : Scanner :=
  { s with cursor := s.cursor.skip n }

def allowKey (s : Scanner) (allowed : Bool) : Scanner :=
  { s with keyAllowed := allowed }

def column (s : Scanner) : Int :=
  s.cursor.column

/-!
# Keys
-/

def setKey (s : Scanner) (key : Option KeyStart) : Scanner :=
  { s with keys := key :: s.keys.drop 1 }

/-- Gives up the possible key of the innermost collection, unless it is required. -/
def dropKey (s : Scanner) : Option Scanner :=
  match s.keys with
  | some key :: _ => if key.required then none else some (s.setKey none)
  | _ => some s

/-- Notes that a key may start here. -/
def noteKey (s : Scanner) : Option Scanner :=
  if s.keyAllowed then do
    let c := s.cursor
    let required := !s.inFlow && s.indent == s.column
    let s ← s.dropKey
    some (s.setKey (some ⟨required, s.tokens.size, c.index, c.line, c.column⟩))
  else some s

/-- Whether the cursor has left a possible key behind. -/
def isStale (c : Cursor) (key : KeyStart) : Bool :=
  key.line < c.line || key.index + 1024 < c.index

/-- The possible key of the innermost collection.  None is left behind that is
required. -/
def takeKey (s : Scanner) : Option (Option KeyStart × Scanner) :=
  match s.keys with
  | some key :: _ =>
    if !isStale s.cursor key then some (some key, s.setKey none)
    else s.dropKey.map (none, ·)
  | _ => some (none, s)

/-!
# Blocks
-/

/-- Opens a block at a column that lies deeper than the current one,
its token at `position`. -/
def openBlock (s : Scanner) (column : Int) (position : Nat) (token : Token) : Scanner :=
  if !s.inFlow ∧ s.indent < column then
    { s with
      outer := s.indent :: s.outer
      indent := column
      tokens := s.tokens.insertIdxIfInBounds position token }
  else s

def closeBlocks (column : Int) : List Int → Scanner → Scanner
  | [], s => s
  | indent :: outer, s =>
    if column < s.indent then
      closeBlocks column outer { s.emit .blockEnd with indent, outer }
    else s

def closeBlocksTo (s : Scanner) (column : Int) : Scanner :=
  if s.inFlow then s else closeBlocks column s.outer s

/-!
# Space between tokens
-/

/-- Passes blank space, comments and line breaks, and a byte order mark at the start of a
line, which takes up a column.  A tab does not stand where a key may start in a block; a
new line of a block may start one. -/
def skipSpace : Nat → Scanner → Scanner
  | 0, s => s
  | fuel + 1, s =>
    let c :=
      if s.cursor.column = 0 ∧ s.cursor.sees byteOrderMark then s.cursor.skip 1 else s.cursor
    let tabs := s.inFlow || !s.keyAllowed
    let c := (c.skipWhile fun char => char == ' ' || (tabs && char == '\t')).skipComment
    if c.peek.any isBreak then
      skipSpace fuel { s with cursor := c.skipBreak, keyAllowed := s.keyAllowed || !s.inFlow }
    else { s with cursor := c }

/-!
# Tokens
-/

def boundary (s : Scanner) : Option Scanner :=
  (s.closeBlocksTo (-1)).dropKey.map (·.allowKey false)

def directive (bound : Nat) (s : Scanner) : Option Scanner := do
  let s ← s.boundary
  let (token, cursor) ← Directive.read bound s.cursor
  some { s.emit token with cursor }

def documentMarker (s : Scanner) (token : Token) : Option Scanner :=
  s.boundary.map fun s => (s.emit token).skip 3

def flowStart (s : Scanner) (token : Token) : Option Scanner :=
  s.noteKey.map fun s => (({ s with keys := none :: s.keys }.allowKey true).emit token).skip 1

def flowEnd (s : Scanner) (token : Token) : Option Scanner :=
  s.dropKey.map fun s =>
    let s := if s.inFlow then { s with keys := s.keys.drop 1 } else s
    ((s.allowKey false).emit token).skip 1

def flowEntry (s : Scanner) : Option Scanner :=
  s.dropKey.map fun s => ((s.allowKey true).emit .flowEntry).skip 1

def startEntry (s : Scanner) (token : Token) : Option Scanner :=
  if s.inFlow then some s
  else if s.keyAllowed then some (s.openBlock s.column s.tokens.size token)
  else none

def blockEntry (s : Scanner) : Option Scanner := do
  let s ← s.startEntry .blockSequenceStart
  let s ← s.dropKey
  some (((s.allowKey true).emit .blockEntry).skip 1)

def key (s : Scanner) : Option Scanner := do
  let s ← s.startEntry .blockMappingStart
  let s ← s.dropKey
  some (((s.allowKey (!s.inFlow)).emit .key).skip 1)

def value (s : Scanner) : Option Scanner := do
  let (key, s) ← s.takeKey
  let s ← match key with
    | some start =>
      let s := { s with tokens := s.tokens.insertIdxIfInBounds start.tokens .key }
      some ((s.openBlock start.column start.tokens .blockMappingStart).allowKey false)
    | none => (s.startEntry .blockMappingStart).map fun s => s.allowKey (!s.inFlow)
  some ((s.emit .value).skip 1)

def content (s : Scanner) (read : Cursor → Option (Token × Cursor)) : Option Scanner := do
  let s ← s.noteKey
  let (token, cursor) ← read s.cursor
  some { (s.allowKey false).emit token with cursor }

def anchor (s : Scanner) (token : List Char → Token) : Option Scanner :=
  s.content fun c => (Anchor.name c).map fun r => (token r.1, r.2)

def quoted (bound : Nat) (s : Scanner) (single : Bool) : Option Scanner :=
  s.content fun c => (Quoted.read bound single c).map fun r => (.scalar false r.1, r.2)

def plain (bound : Nat) (s : Scanner) : Option Scanner := do
  let s ← s.noteKey
  let (text, cursor, broken) ← Plain.read bound s.inFlow (s.indent + 1).toNat s.cursor
  some { (s.allowKey broken).emit (.scalar true text) with cursor }

def block (bound : Nat) (s : Scanner) (literal : Bool) : Option Scanner := do
  let s ← s.dropKey
  let (text, cursor) ← Block.read bound literal s.indent s.cursor
  some { (s.allowKey true).emit (.scalar false text) with cursor }

/-- Whether a plain scalar starts with `char`, where `next` is the character behind it. -/
def startsPlain (inFlow : Bool) (char : Char) (next : Option Char) : Bool :=
  !(isBlank char || isBreak char || isIndicator char) ||
    (char == '-' && !next.any isBlank) ||
    (!inFlow && (char == '?' || char == ':') && !isBlankOrEnd next)

/-- The token at the cursor, which is not at the end of the text. -/
def token (bound : Nat) (s : Scanner) (char : Char) : Option Scanner :=
  let next := s.cursor.peekAt 1
  if s.cursor.column = 0 ∧ char = '%' then s.directive bound
  else if s.cursor.atMarker '-' then s.documentMarker .documentStart
  else if s.cursor.atMarker '.' then s.documentMarker .documentEnd
  else if char = '[' then s.flowStart .flowSequenceStart
  else if char = '\x7b' then s.flowStart .flowMappingStart
  else if char = ']' then s.flowEnd .flowSequenceEnd
  else if char = '\x7d' then s.flowEnd .flowMappingEnd
  else if char = ',' then s.flowEntry
  else if char = '-' ∧ isBlankOrEnd next then s.blockEntry
  else if char = '?' ∧ (s.inFlow ∨ isBlankOrEnd next) then s.key
  else if char = ':' ∧ (s.inFlow ∨ isBlankOrEnd next) then s.value
  else if char = '*' then s.anchor .alias
  else if char = '&' then s.anchor .anchor
  else if char = '!' then s.content (Tag.read bound s.inFlow)
  else if char = '|' ∧ !s.inFlow then s.block bound true
  else if char = '>' ∧ !s.inFlow then s.block bound false
  else if char = '\'' then s.quoted bound true
  else if char = '"' then s.quoted bound false
  else if startsPlain s.inFlow char next then s.plain bound
  else none

def run : Nat → Scanner → Option (Array Token)
  | 0, _ => none
  | bound + 1, s => do
    let s := skipSpace bound s
    let s := s.closeBlocksTo s.column
    match s.cursor.peek with
    | some char => do
      let s ← s.token bound char
      run bound s
    | none => s.boundary.map (·.tokens)

end Scanner

def Token.scan? (text : List Char) : Option (List Token) :=
  if text.all isPrintable then
    (Scanner.run (text.length + 2) { cursor := { rest := text } }).map Array.toList
  else none

end Yaml
end Stencil
