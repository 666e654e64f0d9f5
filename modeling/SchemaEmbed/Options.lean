namespace SchemaEmbed

/-!
# Options of a run

* `WriteMode` — how a document is written back;
* `Options` — the key that holds the schema, the mode of writing, and whether bundles are
  only compared.
-/

/-- How a document is written back. -/
inductive WriteMode where
  /-- The file itself is rewritten. -/
  | inPlace
  /-- A new file takes the place of the old one in a single step. -/
  | atomic
  deriving DecidableEq, Inhabited, Repr

/-- How bundles are treated. -/
structure Options where
  key : String
  mode : WriteMode
  /-- Whether bundles are compared but not written. -/
  check : Bool
  deriving DecidableEq, Repr

namespace Options

/-- The key that holds the schema unless another is named. -/
def defaultKey : String := "graphql"

/-- The options of a run without any. -/
def standard : Options := ⟨defaultKey, .inPlace, false⟩

end Options

end SchemaEmbed
