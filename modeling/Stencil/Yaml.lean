import Stencil.Yaml.Resolution
import Stencil.Yaml.Token.Scan

/-!
# YAML

Reads a YAML text, which holds at most one document; an empty one is null.  Collections
are nested at most 128 levels deep, and aliases are followed at most a hundred times for
each part of the text.
-/

namespace Stencil
namespace Yaml

def depthLimit : Nat := 128

def jumpsPerEvent : Nat := 100

def parse (bytes : Bytes) : Option Document := do
  if !Utf8.isValid bytes then none
  else
    let tokens ← Token.scan? (Utf8.lossy bytes)
    let (root, r) ← Node.ofTokens? tokens
    let (document, _) ← resolveNode r depthLimit root (jumpsPerEvent * root.events)
    some document

end Yaml
end Stencil
