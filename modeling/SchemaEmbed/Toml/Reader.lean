import SchemaEmbed.Location
import SchemaEmbed.Text.Blank
import SchemaEmbed.Toml.Document

namespace SchemaEmbed.Toml

/-!
# Reading TOML

* `Offence` — something that a structured value cannot hold: a date-time or a float that
  is not finite, with its location;
* `Item.toValue` — a tree as a structured value, or the first offence in it in document
  order;
* `parse` — the structured value of a text;
* `sniff` — whether a text that says something at all is a table.
-/

/-- What a structured value cannot hold. -/
inductive Unrepresentable where
  | dateTime (d : DateTime)
  | float (x : Binary64)
  deriving DecidableEq, Repr

/-- Something that a structured value cannot hold and where it is. -/
structure Offence where
  what : Unrepresentable
  location : String
  deriving DecidableEq, Repr

/-- How a message shows a float that is not finite. -/
def floatName (x : Binary64) : String :=
  if x.isNaN then "NaN" else if x.negative then "-inf" else "inf"

/-- The wording of an offence. -/
def Offence.message (o : Offence) : String :=
  match o.what with
  | .dateTime d => s!"date-time `{d.render}` at `{o.location}` is not supported"
  | .float x => s!"non-finite float `{floatName x}` at `{o.location}` is not supported"

mutual

/-- The structured value of a tree at a location. -/
def Item.toValue (location : String) : Item → Except Offence Value
  | .string s => .ok (.string s)
  | .integer i => .ok (.number (.int i))
  | .float x =>
    if x.isFinite then .ok (.number (.float x)) else .error ⟨.float x, location⟩
  | .boolean b => .ok (.bool b)
  | .dateTime d => .error ⟨.dateTime d, location⟩
  | .array items => (Item.toValues location 0 items).map .array
  | .table entries => (Item.toFields location entries).map .object

/-- The structured values of the items of an array from an index on. -/
def Item.toValues (location : String) (index : Nat) : List Item → Except Offence (List Value)
  | [] => .ok []
  | item :: items => do
    let v ← item.toValue (Location.item location index)
    let vs ← Item.toValues location (index + 1) items
    return v :: vs

/-- The structured values of the entries of a table. -/
def Item.toFields (location : String) :
    List (String × Item) → Except Offence (List (String × Value))
  | [] => .ok []
  | (key, item) :: entries => do
    let v ← item.toValue (Location.entry location key)
    let fields ← Item.toFields location entries
    return (key, v) :: fields

end

/-- Why a text cannot be held as a structured value. -/
inductive ReadError where
  | syntactic (f : Fault)
  | offence (o : Offence)
  deriving Repr

/-- The wording of an error. -/
def ReadError.message : ReadError → String
  | .syntactic f => f.message
  | .offence o => o.message

/-- The structured value of a text. -/
def read (text : String) : Except ReadError Value := do
  let entries ← (readTable text).mapError .syntactic
  ((Item.table entries).toValue "").mapError .offence

/-- The structured value of a text; an error is worded. -/
def parse (text : String) : Except String Value := (read text).mapError ReadError.message

/-- Whether a text that is not blank is a table. -/
def sniff (text : String) : Bool :=
  ! (Text.trim text.toList).isEmpty && (readTable text).isOk

end SchemaEmbed.Toml
