import SchemaEmbed.Proofs.Location
import SchemaEmbed.Toml.Printer

namespace SchemaEmbed.Toml

/-!
# The first null of a value

TOML has no null, so that before a value is written it is searched for one, and the first is named
in the error. The search goes through the value and builds the location on the way; what it finds
is described here by the list of all nodes.

* `firstNull?` — the steps to the first null in document order; `firstNull?_eq_none_iff` says when
  there is none;
* `findNull_eq` — **the search** finds its location, and `findNull_eq_none_iff` says when it finds
  nothing;
* `findNull_put` — where a schema is the only one to have nulls, it finds the first one of the
  schema.
-/

open Value (Every EveryItem EveryEntry)

/-- Whether a value itself is no null; what is in it is not looked at. -/
def IsPresent : Value → Prop
  | .null => False
  | _ => True

instance : DecidablePred IsPresent
  | .null => .isFalse id
  | .bool _ | .number _ | .string _ | .array _ | .object _ => .isTrue trivial

/-- The steps to the first null of a value in document order, which make its location from
    anywhere. -/
def firstNull? (v : Value) : Option (List Location.Step) :=
  (v.nodes.find? fun n => ! decide (IsPresent n.2)).map Prod.fst

/-- There is no first null exactly if no part of the value is one. -/
theorem firstNull?_eq_none_iff {v : Value} : firstNull? v = none ↔ v.Every IsPresent := by
  rw [firstNull?, Option.map_eq_none_iff, List.find?_eq_none, Value.every_iff_nodes]
  simp

/-! ### The search

The search has a function for a value, one for items with an index and one for entries. Each of
them is the first null in a list of nodes, and the list of a container is that of its parts one
after the other.
-/

/-- The first of some nodes that is a null, as the location that its steps make from a given one. -/
def firstLocation? (location : String) (nodes : List (List Location.Step × Value)) :
    Option String :=
  (nodes.find? fun n => ! decide (IsPresent n.2)).map fun n => Location.follow location n.1

/-- There is no location exactly if none of the nodes is a null. -/
theorem firstLocation?_eq_none_iff {location : String}
    {nodes : List (List Location.Step × Value)} :
    firstLocation? location nodes = none ↔ ∀ n ∈ nodes, IsPresent n.2 := by
  rw [firstLocation?, Option.map_eq_none_iff, List.find?_eq_none]
  simp

/-- Nodes behind a step come before those that follow, and the step can be made part of the
    location from which they are counted. -/
theorem firstLocation?_append {location location' : String} {step : Location.Step}
    (hstep : ∀ steps, Location.follow location (step :: steps) = Location.follow location' steps)
    (nodes rest : List (List Location.Step × Value)) :
    firstLocation? location (nodes.map (fun n => (step :: n.1, n.2)) ++ rest)
      = (firstLocation? location' nodes).or (firstLocation? location rest) := by
  rw [firstLocation?, List.find?_append, List.find?_map, Option.map_or, Option.map_map]
  simp only [Function.comp_def, hstep]
  rfl

mutual

/-- **The search** in a value finds the first null among its nodes, by recursion on the value. -/
theorem findNull_eq_firstLocation? : ∀ (v : Value) (location : String),
    findNull location v = firstLocation? location v.nodes
  | .null, _ | .bool _, _ | .number _, _ | .string _, _ => rfl
  | .array items, location => findNullInItems_eq_firstLocation? items location 0
  | .object entries, location => findNullInEntries_eq_firstLocation? entries location

/-- The search in items finds the first null among the nodes of the items. -/
theorem findNullInItems_eq_firstLocation? : ∀ (items : List Value)
    (location : String) (index : Nat),
    findNullInItems location index items
      = firstLocation? location (Value.nodesOfItems index items)
  | [], _, _ => rfl
  | v :: rest, location, index => by
    rw [findNullInItems, Value.nodesOfItems, firstLocation?_append fun _ => rfl,
      findNull_eq_firstLocation? v, findNullInItems_eq_firstLocation? rest]

/-- The search in entries finds the first null among the nodes of the entries. -/
theorem findNullInEntries_eq_firstLocation? : ∀ (entries : List (String × Value))
    (location : String), findNullInEntries location entries
      = firstLocation? location (Value.nodesOfEntries entries)
  | [], _ => rfl
  | (key, v) :: rest, location => by
    rw [findNullInEntries, Value.nodesOfEntries, firstLocation?_append fun _ => rfl,
      findNull_eq_firstLocation? v, findNullInEntries_eq_firstLocation? rest]

end

/-- **The search** finds the location that the steps to the first null make. -/
theorem findNull_eq (location : String) (v : Value) :
    findNull location v = (firstNull? v).map (Location.follow location) := by
  rw [findNull_eq_firstLocation?, firstLocation?, firstNull?, Option.map_map]
  rfl

/-- **Nothing is found** in a value exactly if no part of it is a null. -/
theorem findNull_eq_none_iff (v : Value) (location : String) :
    findNull location v = none ↔ v.Every IsPresent := by
  rw [findNull_eq_firstLocation?, firstLocation?_eq_none_iff, Value.every_iff_nodes]

/-- Nothing is found in entries exactly if no part of their values is a null. -/
theorem findNullInEntries_eq_none_iff (entries : List (String × Value)) (location : String) :
    findNullInEntries location entries = none ↔ EveryEntry IsPresent entries := by
  rw [findNullInEntries_eq_firstLocation?, firstLocation?_eq_none_iff, Value.everyEntry_iff_nodes]

/-! ### Nulls of a schema

Embedding a schema puts it under one key. If the document was read from TOML it has no nulls, and
so the place of the key does not matter to what is found.
-/

/-- Among entries without nulls the search finds the first null of a value that is put, at the
    place of its key or behind all others. -/
theorem findNullInEntries_put (location key : String) (schema : Value)
    {entries : List (String × Value)} (hentries : EveryEntry IsPresent entries) :
    findNullInEntries location (Entries.put key schema entries)
      = findNull (Location.entry location key) schema := by
  induction entries with
  | nil => rw [Entries.put, findNullInEntries, findNullInEntries, Option.or_none]
  | cons e rest ih =>
    obtain ⟨k, v⟩ := e
    have hrest : findNullInEntries location rest = none :=
      (findNullInEntries_eq_none_iff rest location).mpr hentries.2
    have hv : findNull (Location.entry location k) v = none :=
      (findNull_eq_none_iff v _).mpr hentries.1
    -- the entry is the one under the key, or nothing is found in it
    by_cases hk : k = key
    · subst hk
      rw [Entries.put, if_pos rfl, findNullInEntries, hrest, Option.or_none]
    · rw [Entries.put, if_neg hk, findNullInEntries, hv, Option.none_or, ih hentries.2]

/-- **In a mapping without nulls** the search finds the first null of a value that is put. -/
theorem findNull_put (key : String) (schema : Value) {entries : List (String × Value)}
    (hentries : EveryEntry IsPresent entries) :
    findNull "" (.object (Entries.put key schema entries))
      = (firstNull? schema).map (Location.follow key) := by
  rw [findNull, findNullInEntries_put "" key schema hentries, findNull_eq]
  rfl

end SchemaEmbed.Toml
