import Stencil.Bytes.Utf8
import Stencil.Log
import Stencil.Render.Error
import Stencil.Template.Error

/-!
# Diagnostics

A diagnostic shows the source line of a span with the span underlined and labelled.
Positions are counted in the characters of the lossily decoded source.
-/

namespace Stencil

/-!
# Lines
-/

namespace SourceLine

def isLineBreak (c : Char) : Bool :=
  c == '\n' || c == '\r' || c == '\x0B' || c == '\x0C' || c == '\u0085' || c == '\u2028' ||
    c == '\u2029'

/-- The lines of a text without their ends, each with the position of its first
character. -/
def splitFrom (start position : Nat) (line : Log Char) : List Char → List (Nat × List Char)
  | [] => [(start, line.toList)]
  | '\r' :: '\n' :: rest =>
    (start, line.toList) :: splitFrom (position + 2) (position + 2) .empty rest
  | c :: rest =>
    if isLineBreak c then
      (start, line.toList) :: splitFrom (position + 1) (position + 1) .empty rest
    else splitFrom start (position + 1) (line.append [c]) rest

def split (text : List Char) : List (Nat × List Char) :=
  splitFrom 0 0 .empty text

def isBlank (c : Char) : Bool :=
  c == ' ' || c == '\t' || isLineBreak c || c == '\u00A0' || c == '\u1680' ||
    ('\u2000' ≤ c && c ≤ '\u200A') || c == '\u202F' || c == '\u205F' || c == '\u3000'

def trimEnd (line : List Char) : List Char :=
  (line.reverse.dropWhile isBlank).reverse

/-- A tab reaches to the next multiple of four characters, all else is one column wide. -/
def width (c : Char) (position : Nat) : Nat :=
  if c = '\t' then 4 - position % 4 else 1

/-- The widths of the characters at the positions below `count`, each with its position.
Positions behind the end of the line are one column wide. -/
def columns (line : List Char) (count : Nat) : List (Nat × Nat) :=
  let widths := line.zipIdx.map fun e => width e.1 e.2
  ((widths ++ List.replicate count 1).take count).zipIdx

/-- The line as shown, where blanks of any kind become spaces. -/
def shown (line : List Char) : List Char :=
  line.zipIdx.flatMap fun e =>
    if isBlank e.1 then List.replicate (width e.1 e.2) ' ' else [e.1]

end SourceLine

structure Diagnostic where
  /-- The name of the source. -/
  name : String
  source : Bytes
  title : String
  label : String
  span : Span

namespace Diagnostic

/-- The characters that a span of bytes covers, as positions in the decoded source. -/
def charRange (source : Bytes) (span : Span) : Nat × Nat :=
  ((Utf8.lossy (source.take span.start)).length, (Utf8.lossy (source.take span.stop)).length)

/-- One column of a marker row: its sign and what fills the rest of a wide column. -/
def column (width : Nat) (sign fill : Char) : List Char :=
  sign :: List.replicate (width - 1) fill

/-- The underline of the columns from `start` to `stop`, with a branch at `middle`. -/
def underline (line : List Char) (start stop middle : Nat) : List Char :=
  (SourceLine.columns line (stop + 2)).flatMap fun (width, position) =>
    let fill := if start ≤ position ∧ position < stop then '─' else ' '
    column width (if position = middle then '┬' else fill) fill

/-- The arrow from the branch at `middle` to the label. -/
def arrow (line : List Char) (stop middle : Nat) : List Char :=
  (SourceLine.columns line (stop + 2)).flatMap fun (width, position) =>
    let fill := if middle ≤ position then '─' else ' '
    column width (if position = middle then '╰' else fill) fill

def spaces (n : Nat) : List Char :=
  List.replicate n ' '

def render (d : Diagnostic) : String :=
  let (start, stop) := charRange d.source d.span
  let lines := SourceLine.split (Utf8.lossy d.source)
  let before := lines.takeWhile (·.1 ≤ start)
  let number := before.length
  let (offset, whole) := before.getLast?.getD (0, [])
  let line := SourceLine.trimEnd whole
  let middle := (start + stop) / 2 - offset
  let digits := Nat.toDigits 10 number
  let margin := spaces (digits.length + 2)
  let location := Nat.toDigits 10 number ++ [':'] ++ Nat.toDigits 10 (start - offset + 1)
  let rows : List (List Char) :=
    ["Error: ".toList ++ d.title.toList,
      margin ++ "╭─[".toList ++ d.name.toList ++ [':'] ++ location ++ [']'],
      margin ++ ['│'],
      [' '] ++ digits ++ " │ ".toList ++ SourceLine.shown line,
      margin ++ "│ ".toList ++ underline line (start - offset) (stop - offset) middle,
      margin ++ "│ ".toList ++ arrow line (stop - offset) middle ++ [' '] ++ d.label.toList,
      List.replicate (digits.length + 2) '─' ++ ['╯']]
  String.ofList (rows.flatMap fun row => row ++ ['\n'])

/-!
# Sources of diagnostics
-/

def compileLabel : CompileFault → String
  | .unclosedBlock kind _ => "\"" ++ kind.word ++ "\" block opened here is never closed"
  | fault => fault.text

def ofCompileError (name : String) (source : Bytes) (e : CompileError) : Diagnostic :=
  ⟨name, source, e.message, compileLabel e.fault, e.span⟩

def ofRenderError {ε : Type} [ToString ε] (name : String) (source : Bytes)
    (e : RenderError ε) :
    Diagnostic :=
  ⟨name, source, e.message, e.fault.text, e.span⟩

end Diagnostic
end Stencil
