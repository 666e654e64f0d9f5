import SchemaEmbed.Format.Registry

namespace SchemaEmbed

/-!
# Documents

* `Document` — a value together with the path it was read from and the format it was
  read in, in which it is written again;
* `Document.ofText` — the document that a text at a path is;
* `Document.render` — its text;
* `Document.embed` — sets a key of a bundle to a schema, and tells whether that changed
  what the key held.
-/

/-- A document in memory. -/
structure Document where
  path : String
  format : Format
  value : Value

namespace Document

/-- The document that a text at a path is, in the first format that fits. -/
def ofText (r : Registry) (path text : String) : Except Failure Document := do
  let format ← r.detect path text
  let value ← format.parseAt path text
  return ⟨path, format, value⟩

/-- The text of a document in its format. -/
def render (d : Document) : Except Failure String := d.format.serializeAt d.path d.value

/-- Whether a mapping holds a value under a key already, but for the order of entries. -/
def holds (entries : Entries Value) (key : String) (schema : Value) : Bool :=
  (Entries.find? key entries).any (·.same schema)

/-- Sets a key of a bundle, which must be a mapping, to a schema. What is structurally
    equal to the schema stays as it is. -/
def embed (d : Document) (key : String) (schema : Value) : Except Failure (Bool × Document) :=
  match d.value with
  | .object entries =>
    if holds entries key schema then .ok (false, d)
    else .ok (true, { d with value := .object (Entries.put key schema entries) })
  | other => .error (.notMapping d.path other.kindName)

end Document

end SchemaEmbed
