import SchemaEmbed.Error
import SchemaEmbed.Path
import SchemaEmbed.Value

namespace SchemaEmbed

/-!
# Formats

* `Format` — a format by what it does: it recognises, reads and writes texts;
* `Format.claims` — whether a format claims a path by its extension, in which the case of
  letters does not count;
* `Format.parseAt` / `Format.serializeAt` — reading and writing a document at a path.
-/

/-- A format of documents. -/
structure Format where
  name : String
  /-- The extensions it claims, without the dot. -/
  extensions : List String
  /-- Whether a text looks like a document of the format. -/
  sniff : String → Bool
  /-- The value of a text, or why it has none. -/
  parse : String → Except String Value
  /-- The text of a value, or why it has none. -/
  serialize : Value → Except String String

/-- Whether two extensions differ at most in the case of ASCII letters. -/
def sameExtension (a b : String) : Bool := a.toLower == b.toLower

namespace Format

/-- Whether the format claims a path by its extension. -/
def claims (f : Format) (path : String) : Bool :=
  match Path.extension? path with
  | some ext => f.extensions.any (sameExtension · ext)
  | none => false

/-- The value of a document at a path. -/
def parseAt (f : Format) (path text : String) : Except Failure Value :=
  (f.parse text).mapError (.parseFailed path f.name)

/-- The text of a document at a path. -/
def serializeAt (f : Format) (path : String) (v : Value) : Except Failure String :=
  (f.serialize v).mapError (.serializeFailed path f.name)

end Format

end SchemaEmbed
