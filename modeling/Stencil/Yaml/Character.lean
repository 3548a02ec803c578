/-!
# Characters of YAML

The classes of characters that the syntax tells apart.  The end of the text is written
`none` and counts as the end of a line.
-/

namespace Stencil
namespace Yaml

/-- Characters that may occur in a text at all. -/
def isPrintable (c : Char) : Bool :=
  c == '\t' || c == '\n' || c == '\r' || (' ' ≤ c && c ≤ '~') || c == '\u0085' ||
    ('\u00A0' ≤ c && c ≤ '\uFFFD') || 0xFFFF < c.toNat

def byteOrderMark : Char := '\uFEFF'

def isBlank (c : Char) : Bool :=
  c == ' ' || c == '\t'

def isBreak (c : Char) : Bool :=
  c == '\n' || c == '\r' || c == '\u0085' || c == '\u2028' || c == '\u2029'

def isBreakOrEnd : Option Char → Bool
  | some c => isBreak c
  | none => true

def isBlankOrEnd : Option Char → Bool
  | some c => isBlank c || isBreak c
  | none => true

def isWordChar (c : Char) : Bool :=
  c.isAlphanum || c == '_' || c == '-'

def isFlowIndicator (c : Char) : Bool :=
  c == ',' || c == '[' || c == ']' || c == '\x7b' || c == '\x7d'

def isIndicator (c : Char) : Bool :=
  "-?:,[]\x7b\x7d#&*!|>'\"%@`".toList.contains c

def hexDigit? (c : Char) : Option Nat :=
  if c.isDigit then some (c.toNat - '0'.toNat)
  else if 'a' ≤ c && c ≤ 'f' then some (c.toNat - 'a'.toNat + 10)
  else if 'A' ≤ c && c ≤ 'F' then some (c.toNat - 'A'.toNat + 10)
  else none

end Yaml
end Stencil
