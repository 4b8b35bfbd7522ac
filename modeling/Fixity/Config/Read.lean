import Fixity.Config.Toml
import Fixity.Config.Yaml

/-!
# Reading configurations

The format decides how a text is read; a text of no known format is no configuration.
-/

namespace Fixity.Config

def read (format : Option Format) (bs : Bytes) : Except ConfigReadError Config :=
  match format with
  | some .toml => Toml.read bs
  | some .yaml => Yaml.read bs
  | none => .error .unsupported

end Fixity.Config
