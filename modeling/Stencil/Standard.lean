import Stencil.DataFile
import Stencil.Json
import Stencil.Value.Display
import Stencil.Yaml

/-!
# Standard formats and addresses

What the command runs with: data files hold JSON as specified and YAML as far as its plain
documents go, and a fixed text stands for every address.
-/

namespace Stencil

instance Formats.standard : Formats where
  json := Json.parse
  yaml := Yaml.parse

instance Addressing.hidden : Addressing where
  text _ := Bytes.ofText "<addr>"

end Stencil
