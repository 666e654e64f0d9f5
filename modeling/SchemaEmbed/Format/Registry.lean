import SchemaEmbed.Format

namespace SchemaEmbed

/-!
# The known formats

* `Registry` — formats in the order in which they were registered;
* `register` — adds a format whose name is new;
* `byExtension?` — the first format that claims the extension of a path;
* `detect` — that one, else the first format that recognises the text.
-/

/-- Formats in the order of their registration. -/
structure Registry where
  formats : List Format

namespace Registry

/-- No format. -/
def empty : Registry := ⟨[]⟩

/-- The names of the formats in order. -/
def names (r : Registry) : List String := r.formats.map Format.name

/-- The format with a name. -/
def get? (r : Registry) (name : String) : Option Format := r.formats.find? (·.name == name)

/-- Adds a format. Its name must be new. -/
def register (r : Registry) (f : Format) : Except Failure Registry :=
  if (r.get? f.name).isSome then .error (.duplicateFormat f.name)
  else .ok ⟨r.formats ++ [f]⟩

/-- Adds formats one after the other. -/
def registerAll (r : Registry) (fs : List Format) : Except Failure Registry :=
  fs.foldlM register r

/-- The first format that claims the extension of a path. -/
def byExtension? (r : Registry) (path : String) : Option Format :=
  r.formats.find? (·.claims path)

/-- The format of a text at a path. -/
def detect (r : Registry) (path text : String) : Except Failure Format :=
  match r.byExtension? path with
  | some f => .ok f
  | none =>
    match r.formats.find? (·.sniff text) with
    | some f => .ok f
    | none => .error (.unknownFormat path)

end Registry

end SchemaEmbed
