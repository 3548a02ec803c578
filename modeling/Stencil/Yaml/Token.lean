import Stencil.Bytes

/-!
# Tokens

What the structure of a YAML text is made of: indicators, the starts and ends of blocks
that indentation implies, node properties and scalars.
-/

namespace Stencil
namespace Yaml

inductive Token where
  | versionDirective (major minor : Nat)
  | tagDirective (handle : List Char) (lead : Bytes)
  | documentStart
  | documentEnd
  | blockSequenceStart
  | blockMappingStart
  | blockEnd
  | flowSequenceStart
  | flowSequenceEnd
  | flowMappingStart
  | flowMappingEnd
  | blockEntry
  | flowEntry
  | key
  | value
  | alias (name : List Char)
  | anchor (name : List Char)
  | tag (handle : List Char) (suffix : Bytes)
  | scalar (plain : Bool) (text : List Char)
  deriving DecidableEq, Repr

end Yaml
end Stencil
