import SchemaEmbed.Binary64
import SchemaEmbed.Toml.DateTime
import SchemaEmbed.Value

namespace SchemaEmbed.Toml

/-!
# Trees of TOML

* `Item` — the tree of a document, which holds date-times beside what every structured
  value can hold;
* `Item.reviveNested` — a table inside a document whose first key is `dateTimeKey`
  stands for the date-time that its string spells.
-/

/-- A tree of a document. -/
inductive Item where
  | string (s : String)
  | integer (i : Int)
  | float (x : Binary64)
  | boolean (b : Bool)
  | dateTime (d : DateTime)
  | array (items : List Item)
  | table (entries : List (String × Item))
  deriving Inhabited

mutual

/-- Decides whether two trees are equal, with the order of their entries. -/
def Item.decEq : (x y : Item) → Decidable (x = y)
  | .string s, y => match y with
    | .string t => decidable_of_iff (s = t) ⟨congrArg Item.string, Item.string.inj⟩
    | .integer _ | .float _ | .boolean _ | .dateTime _ | .array _ | .table _ => .isFalse nofun
  | .integer i, y => match y with
    | .integer j => decidable_of_iff (i = j) ⟨congrArg Item.integer, Item.integer.inj⟩
    | .string _ | .float _ | .boolean _ | .dateTime _ | .array _ | .table _ => .isFalse nofun
  | .float a, y => match y with
    | .float b => decidable_of_iff (a = b) ⟨congrArg Item.float, Item.float.inj⟩
    | .string _ | .integer _ | .boolean _ | .dateTime _ | .array _ | .table _ => .isFalse nofun
  | .boolean a, y => match y with
    | .boolean b => decidable_of_iff (a = b) ⟨congrArg Item.boolean, Item.boolean.inj⟩
    | .string _ | .integer _ | .float _ | .dateTime _ | .array _ | .table _ => .isFalse nofun
  | .dateTime d, y => match y with
    | .dateTime e => decidable_of_iff (d = e) ⟨congrArg Item.dateTime, Item.dateTime.inj⟩
    | .string _ | .integer _ | .float _ | .boolean _ | .array _ | .table _ => .isFalse nofun
  | .array items, y => match y with
    | .array others =>
      have := Item.decEqItems items others
      decidable_of_iff (items = others) ⟨congrArg Item.array, Item.array.inj⟩
    | .string _ | .integer _ | .float _ | .boolean _ | .dateTime _ | .table _ => .isFalse nofun
  | .table entries, y => match y with
    | .table others =>
      have := Item.decEqEntries entries others
      decidable_of_iff (entries = others) ⟨congrArg Item.table, Item.table.inj⟩
    | .string _ | .integer _ | .float _ | .boolean _ | .dateTime _ | .array _ => .isFalse nofun

/-- Decides whether items are equal one by one. -/
def Item.decEqItems : (xs ys : List Item) → Decidable (xs = ys)
  | [], [] => .isTrue rfl
  | [], _ :: _ | _ :: _, [] => .isFalse nofun
  | x :: xs, y :: ys =>
    have := x.decEq y
    have := Item.decEqItems xs ys
    decidable_of_iff (x = y ∧ xs = ys) List.cons_eq_cons.symm

/-- Decides whether entries are equal one by one. -/
def Item.decEqEntries : (es fs : List (String × Item)) → Decidable (es = fs)
  | [], [] => .isTrue rfl
  | [], _ :: _ | _ :: _, [] => .isFalse nofun
  | (k, x) :: es, (l, y) :: fs =>
    have := x.decEq y
    have := Item.decEqEntries es fs
    decidable_of_iff ((k = l ∧ x = y) ∧ es = fs) (by simp)

end

instance : DecidableEq Item := Item.decEq

/-- The key by which a table stands for a date-time. -/
def dateTimeKey : String := "$__toml_private_datetime"

/-- The date-time that an item spells. -/
def Item.spelledDateTime : Item → Except Fault Item
  | .string s =>
    match DateTime.read? s.toList with
    | some d => .ok (.dateTime d)
    | none => .error .invalidDateTime
  | _ => .error .invalidDateTime

mutual

/-- An item that is not the root, with tables that stand for date-times replaced. -/
def Item.reviveNested : Item → Except Fault Item
  | .array items => (Item.reviveItems items).map .array
  | .table [] => .ok (.table [])
  | .table ((key, item) :: entries) =>
    if key = dateTimeKey then item.spelledDateTime
    else do
      let item ← item.reviveNested
      let entries ← Item.reviveEntries entries
      return .table ((key, item) :: entries)
  | leaf => .ok leaf

/-- The items of an array with tables that stand for date-times replaced. -/
def Item.reviveItems : List Item → Except Fault (List Item)
  | [] => .ok []
  | item :: items => do
    let item ← item.reviveNested
    let items ← Item.reviveItems items
    return item :: items

/-- The entries of a table with tables that stand for date-times replaced. -/
def Item.reviveEntries : List (String × Item) → Except Fault (List (String × Item))
  | [] => .ok []
  | (key, item) :: entries => do
    let item ← item.reviveNested
    let entries ← Item.reviveEntries entries
    return (key, item) :: entries

end

end SchemaEmbed.Toml
