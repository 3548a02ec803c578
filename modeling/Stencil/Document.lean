import Stencil.Dict
import Stencil.Number

/-!
# Data documents

What a JSON or YAML text denotes.  Strings and keys hold the bytes of their text; an
object lists its members in document order, a repeated key keeping the place of its first
and the value of its last occurrence.
-/

namespace Stencil

inductive Document where
  | null
  | bool (b : Bool)
  | number (n : Number)
  | string (bytes : Bytes)
  | array (items : List Document)
  | object (members : Dict Document)
  deriving Repr

end Stencil
