import Stencil.Yaml.Character

/-!
# Cursors

A position in a text: what is left of it, how many bytes of UTF-8 were passed, and the
line and column that they reach.  Columns count characters.
-/

namespace Stencil
namespace Yaml

structure Cursor where
  rest : List Char
  index : Nat := 0
  line : Nat := 0
  column : Nat := 0

namespace Cursor

def byteCount (text : List Char) : Nat :=
  text.foldl (fun count c => count + c.utf8Size) 0

def peek (c : Cursor) : Option Char :=
  c.rest.head?

def peekAt (c : Cursor) (n : Nat) : Option Char :=
  c.rest[n]?

def sees (c : Cursor) (char : Char) : Bool :=
  c.peek == some char

def skip (c : Cursor) (n : Nat) : Cursor :=
  { c with
    rest := c.rest.drop n
    index := c.index + byteCount (c.rest.take n)
    column := c.column + n }

/-- Passes a line break, if one is next, and returns what it contributes to a scalar. -/
def takeBreak (c : Cursor) : List Char × Cursor :=
  match c.rest with
  | '\r' :: '\n' :: rest =>
    (['\n'], { rest, index := c.index + 2, line := c.line + 1, column := 0 })
  | b :: rest =>
    if isBreak b then
      let kept := if b == '\u2028' || b == '\u2029' then b else '\n'
      ([kept], { rest, index := c.index + b.utf8Size, line := c.line + 1, column := 0 })
    else ([], c)
  | [] => ([], c)

def skipBreak (c : Cursor) : Cursor :=
  c.takeBreak.2

def takeWhile (p : Char → Bool) (c : Cursor) : List Char × Cursor :=
  let chars := c.rest.takeWhile p
  (chars, c.skip chars.length)

def skipWhile (p : Char → Bool) (c : Cursor) : Cursor :=
  (c.takeWhile p).2

def skipComment (c : Cursor) : Cursor :=
  if c.sees '#' then c.skipWhile fun char => !isBreak char else c

def skipLineEnd (c : Cursor) : Option Cursor :=
  let c := (c.skipWhile isBlank).skipComment
  if isBreakOrEnd c.peek then some c.skipBreak else none

/-- Whether the line starts with three times `mark`, set apart. -/
def atMarker (c : Cursor) (mark : Char) : Bool :=
  c.column == 0 && c.rest.take 3 == [mark, mark, mark] && isBlankOrEnd (c.peekAt 3)

def atDocumentMarker (c : Cursor) : Bool :=
  c.atMarker '-' || c.atMarker '.'

end Cursor
end Yaml
end Stencil
