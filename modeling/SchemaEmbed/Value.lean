import SchemaEmbed.Binary64

namespace SchemaEmbed

/-!
# Structured values

The tree that every document is held in, whatever format it was written in:

* `Number` — an integer or a floating-point number; the two never compare equal;
* `Number.minInt` / `Number.maxInt` — the range of integers, that of 64 bits with or
  without sign;
* `Value` — null, booleans, numbers, strings, sequences and mappings; a mapping keeps
  its entries in the order in which they were first written;
* `Value.kindName` — how a message names the kind of a value;
* `Entries.find?` / `Entries.put` — look-up in a mapping, and the update that replaces
  a present entry where it stands and appends an absent one;
* `Value.same` — structural equality, which does not see the order of entries.
-/

/-- A number of a document. -/
inductive Number where
  /-- An integer. -/
  | int (i : Int)
  /-- A floating-point number. -/
  | float (x : Binary64)
  deriving DecidableEq, Inhabited, Repr

/-- The least integer that a document can hold. -/
def Number.minInt : Int := -0x8000000000000000

/-- The greatest integer that a document can hold. -/
def Number.maxInt : Int := 0xFFFFFFFFFFFFFFFF

/-- Numeric equality within each kind; an integer never equals a float. -/
def Number.same : Number → Number → Bool
  | .int i, .int j => i == j
  | .float x, .float y => x.sameNumber y
  | _, _ => false

/-- A structured value. -/
inductive Value where
  | null
  | bool (b : Bool)
  | number (n : Number)
  | string (s : String)
  | array (items : List Value)
  | object (entries : List (String × Value))
  deriving Inhabited

mutual

/-- Decides whether two values are equal, with the order of their entries. -/
def Value.decEq : (v w : Value) → Decidable (v = w)
  | .null, w => match w with
    | .null => .isTrue rfl
    | .bool _ | .number _ | .string _ | .array _ | .object _ => .isFalse nofun
  | .bool a, w => match w with
    | .bool b => decidable_of_iff (a = b) ⟨congrArg Value.bool, Value.bool.inj⟩
    | .null | .number _ | .string _ | .array _ | .object _ => .isFalse nofun
  | .number m, w => match w with
    | .number n => decidable_of_iff (m = n) ⟨congrArg Value.number, Value.number.inj⟩
    | .null | .bool _ | .string _ | .array _ | .object _ => .isFalse nofun
  | .string s, w => match w with
    | .string t => decidable_of_iff (s = t) ⟨congrArg Value.string, Value.string.inj⟩
    | .null | .bool _ | .number _ | .array _ | .object _ => .isFalse nofun
  | .array items, w => match w with
    | .array others =>
      have := Value.decEqItems items others
      decidable_of_iff (items = others) ⟨congrArg Value.array, Value.array.inj⟩
    | .null | .bool _ | .number _ | .string _ | .object _ => .isFalse nofun
  | .object entries, w => match w with
    | .object others =>
      have := Value.decEqEntries entries others
      decidable_of_iff (entries = others) ⟨congrArg Value.object, Value.object.inj⟩
    | .null | .bool _ | .number _ | .string _ | .array _ => .isFalse nofun

/-- Decides whether items are equal one by one. -/
def Value.decEqItems : (vs ws : List Value) → Decidable (vs = ws)
  | [], [] => .isTrue rfl
  | [], _ :: _ | _ :: _, [] => .isFalse nofun
  | v :: vs, w :: ws =>
    have := v.decEq w
    have := Value.decEqItems vs ws
    decidable_of_iff (v = w ∧ vs = ws) List.cons_eq_cons.symm

/-- Decides whether entries are equal one by one. -/
def Value.decEqEntries : (es fs : List (String × Value)) → Decidable (es = fs)
  | [], [] => .isTrue rfl
  | [], _ :: _ | _ :: _, [] => .isFalse nofun
  | (k, v) :: es, (l, w) :: fs =>
    have := v.decEq w
    have := Value.decEqEntries es fs
    decidable_of_iff ((k = l ∧ v = w) ∧ es = fs) (by simp)

end

instance : DecidableEq Value := Value.decEq

/-- How a message names the kind of a value. -/
def Value.kindName : Value → String
  | .null => "null"
  | .bool _ => "a boolean"
  | .number _ => "a number"
  | .string _ => "a string"
  | .array _ => "a sequence"
  | .object _ => "a mapping"

/-! ### Entries of a mapping -/

/-- The entries of a mapping in order. -/
abbrev Entries (α : Type) := List (String × α)

namespace Entries

variable {α : Type}

/-- The keys in order. -/
def keys (es : Entries α) : List String := es.map Prod.fst

/-- The value of the first entry with this key. -/
def find? (key : String) : Entries α → Option α
  | [] => none
  | (k, v) :: rest => if k = key then some v else find? key rest

/-- Sets `key` to `value`: a present entry is replaced where it stands, an absent one is
    appended. -/
def put (key : String) (value : α) : Entries α → Entries α
  | [] => [(key, value)]
  | (k, v) :: rest => if k = key then (k, value) :: rest else (k, v) :: put key value rest

/-- The entries as they are after being written one after the other, a repeated key
    keeping its first position and its last value. -/
def ofList (written : List (String × α)) : Entries α :=
  written.foldl (fun es e => es.put e.1 e.2) []

end Entries

/-! ### Structural equality -/

mutual

/-- Structural equality: mappings agree when they have equally many entries and every
    entry of the one has a structurally equal partner in the other. -/
def Value.same : Value → Value → Bool
  | .null, .null => true
  | .bool a, .bool b => a == b
  | .number m, .number n => m.same n
  | .string s, .string t => s == t
  | .array xs, .array ys => Value.sameItems xs ys
  | .object xs, .object ys => xs.length == ys.length && Value.sameEntries xs ys
  | _, _ => false

/-- Sequences agree item by item. -/
def Value.sameItems : List Value → List Value → Bool
  | [], [] => true
  | x :: xs, y :: ys => x.same y && Value.sameItems xs ys
  | _, _ => false

/-- Every entry of the first list has a structurally equal partner in the second. -/
def Value.sameEntries : List (String × Value) → List (String × Value) → Bool
  | [], _ => true
  | (k, v) :: rest, ys =>
    (match Entries.find? k ys with
      | some w => v.same w
      | none => false) && Value.sameEntries rest ys

end

end SchemaEmbed
