import Stencil.Template.Error

/-!
# Pieces of a source

A source is cut at each leftmost `{{` and the first `}}` behind it into runs of
text and directives.  The scanner passes over the source once and keeps where
the current piece began.
-/

namespace Stencil

inductive Piece where
  | text (bytes : Bytes) (span : Span)
  | directive (content : Bytes) (span : Span)
  deriving DecidableEq, Repr

/-- The pieces of a source up to its end, which is on the given line, or up to a fault. -/
structure Cut where
  pieces : List Piece
  ending : Except CompileError Nat

namespace Cut

def failed (fault : CompileFault) (span : Span) : Cut :=
  ⟨[], .error (.inside span fault)⟩

def prepend (pieces : List Piece) (cut : Cut) : Cut :=
  { cut with pieces := pieces ++ cut.pieces }

end Cut

namespace Piece

/-- Where the scanner is: in text, with the offset, the line and what is left of the
source where it began, and whether the byte before is an opening brace; or in the
directive found at an offset, with what is left of the source behind its opening braces,
and whether the byte before is a closing brace. -/
inductive Mode where
  | text (start line : Nat) (bytes : Bytes) (braced : Bool)
  | directive (found : Nat) (bytes : Bytes) (braced : Bool)

/-- The text between two offsets, of which the first is where `bytes`
begins, unless it is empty. -/
def textRun (bytes : Bytes) (line start stop : Nat) : List Piece :=
  let run := bytes.take (stop - start)
  if run.isEmpty then [] else [.text run ⟨line, start, stop⟩]

/-- The directive between two offsets, braces included, and then `rest` unless it is at
fault; its content is where `bytes` begins. -/
def closeDirective (bytes : Bytes) (line found stop : Nat) (rest : Cut) : Cut :=
  let content := bytes.take (stop - 2 - (found + 2))
  match content.idxOf? Byte.newline with
  | some position => .failed .newlineInDirective ⟨line, found, found + 2 + position⟩
  | none =>
    if content.isEmpty then .failed .emptyDirective ⟨line, found, stop⟩
    else rest.prepend [.directive content ⟨line, found, stop⟩]

/-- Cuts on from `offset`, where `rest` is what is left of the source and `line` its
line. -/
def cutFrom : Mode → Nat → Nat → Bytes → Cut
  | .text start startLine bytes _, line, offset, [] =>
    ⟨textRun bytes startLine start offset, .ok line⟩
  | .text start startLine bytes braced, line, offset, b :: rest =>
    if b = Byte.newline then
      cutFrom (.text start startLine bytes false) (line + 1) (offset + 1) rest
    else if b = Byte.openBrace ∧ braced then
      (cutFrom (.directive (offset - 1) rest false) line (offset + 1) rest).prepend
        (textRun bytes startLine start (offset - 1))
    else
      cutFrom (.text start startLine bytes (b == Byte.openBrace)) line (offset + 1) rest
  | .directive found _ _, line, _, [] =>
    .failed .unterminatedDirective ⟨line, found, found + 2⟩
  | .directive found bytes braced, line, offset, b :: rest =>
    if b = Byte.closeBrace ∧ braced then
      closeDirective bytes line found (offset + 1)
        (cutFrom (.text (offset + 1) line rest false) line (offset + 1) rest)
    else
      cutFrom (.directive found bytes (b == Byte.closeBrace)) line (offset + 1) rest

def cut (source : Bytes) : Cut :=
  cutFrom (.text 0 1 source false) 1 0 source

end Piece
end Stencil
