import SchemaEmbed.Format.Registry
import SchemaEmbed.Json.Printer
import SchemaEmbed.Json.Reader
import SchemaEmbed.Text.Blank
import SchemaEmbed.Toml.Printer
import SchemaEmbed.Toml.Reader
import SchemaEmbed.Yaml.Reader

namespace SchemaEmbed

/-!
# The formats that are always known

* `Format.json` — recognised by a bracket or brace at its head, if it can be read;
* `Format.toml` — recognised if it says something and can be read;
* `Format.yaml` — recognised if it can be read. It comes last because most texts can.
-/

/-- Whether a text without white space around it is a JSON list or object. -/
def Json.sniff (text : String) : Bool :=
  let s := Text.trimStart text.toList
  (s.head? == some '{' || s.head? == some '[') && (Json.parseChars s).isOk

namespace Format

/-- JSON. -/
def json : Format where
  name := "json"
  extensions := ["json"]
  sniff := Json.sniff
  parse := Json.parse
  serialize v := .ok (Json.render v)

/-- TOML. -/
def toml : Format where
  name := "toml"
  extensions := ["toml"]
  sniff := Toml.sniff
  parse := Toml.parse
  serialize := Toml.serialize

/-- YAML. -/
def yaml : Format where
  name := "yaml"
  extensions := ["yaml", "yml"]
  sniff := Yaml.canLoad
  parse := Yaml.parse
  serialize v := .ok (Yaml.render v)

/-- The formats that are always known. -/
def builtin : List Format := [json, toml, yaml]

end Format

/-- The registry of the formats that are always known. -/
def Registry.standard : Registry := ⟨Format.builtin⟩

end SchemaEmbed
