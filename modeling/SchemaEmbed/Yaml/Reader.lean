import SchemaEmbed.Yaml.Alias
import SchemaEmbed.Yaml.Merge
import SchemaEmbed.Yaml.OwnTag

namespace SchemaEmbed.Yaml

/-!
# Reading YAML

* `ReadError` — why a text cannot be held as a structured value;
* `Tree.toValue` — a tree as a structured value, where every key becomes a string and a
  float that is not finite becomes null;
* `parse` — the structured value of a text: loaded, with merge keys resolved, free of
  tags of its own, and with every key a string;
* `canLoad` — whether a text can be loaded at all.
-/

/-- Why a text cannot be held as a structured value. -/
inductive ReadError where
  | syntactic (e : SyntaxError)
  | merge (e : MergeError)
  | tag (f : Finding)
  | keyNotString
  | keyNotFinite
  deriving Repr

/-- The wording of an error of syntax. -/
def SyntaxError.message (e : SyntaxError) : String :=
  match e.place with
  | some (line, column) => s!"{e.reason} at line {line} column {column}"
  | none => e.reason

/-- The wording of an error. -/
def ReadError.message : ReadError → String
  | .syntactic e => e.message
  | .merge e => e.message
  | .tag f => f.message
  | .keyNotString => "key must be a string"
  | .keyNotFinite => "float key must be finite (got NaN or +/-inf)"

/-- The string that a key becomes. -/
def keyOf : Tree → Except ReadError String
  | .string s => .ok s
  | .bool b => .ok (if b then "true" else "false")
  | .number (.int i) => .ok (toString i)
  | .number (.float x) =>
    if x.isFinite then .ok (FloatLayout.json.render x) else .error .keyNotFinite
  | _ => .error .keyNotString

/-- The structured value of a number. -/
def numberValue : Number → Value
  | .int i => .number (.int i)
  | .float x => if x.isFinite then .number (.float x) else .null

mutual

/-- The structured value of a tree. A key that recurs as a string keeps its first
    position and takes its last value. -/
def Tree.toValue : Tree → Except ReadError Value
  | .null => .ok .null
  | .bool b => .ok (.bool b)
  | .number n => .ok (numberValue n)
  | .string s => .ok (.string s)
  | .sequence items => (Tree.toItems items).map .array
  | .mapping entries => (Tree.toEntries entries).map fun es => .object (Entries.ofList es)
  | .tagged tag _ => .error (.tag ⟨tag, ""⟩)

/-- The structured values of the items of a sequence. -/
def Tree.toItems : List Tree → Except ReadError (List Value)
  | [] => .ok []
  | item :: items => do
    let v ← item.toValue
    let vs ← Tree.toItems items
    return v :: vs

/-- The keys and structured values of the entries of a mapping. -/
def Tree.toEntries : List (Tree × Tree) → Except ReadError (List (String × Value))
  | [] => .ok []
  | (key, value) :: entries => do
    let k ← keyOf key
    let v ← value.toValue
    let es ← Tree.toEntries entries
    return (k, v) :: es

end

/-- The structured value of a loaded tree. -/
def Tree.resolve (t : Tree) : Except ReadError Value := do
  let t ← t.mergeKeys.mapError .merge
  match t.findTag "" with
  | some f => throw (.tag f)
  | none => t.toValue

/-- The structured value of a text. -/
def read (text : String) : Except ReadError Value := do
  let t ← (load text).mapError .syntactic
  t.resolve

/-- The structured value of a text; an error is worded. -/
def parse (text : String) : Except String Value := (read text).mapError ReadError.message

/-- Whether a text can be loaded. -/
def canLoad (text : String) : Bool := (load text).isOk

end SchemaEmbed.Yaml
