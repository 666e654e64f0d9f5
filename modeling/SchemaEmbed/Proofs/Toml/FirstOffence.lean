import SchemaEmbed.Format.Builtin
import SchemaEmbed.Proofs.Location
import SchemaEmbed.Proofs.Toml.Offence

namespace SchemaEmbed.Toml

/-!
# The first offence in a tree

A tree of TOML can hold dates and floats that are not finite, and a structured value cannot. The
tree is copied node by node until one is met that cannot be held, and the error names it with its
location.

* `unheld?` — what of a single node a structured value cannot hold;
* `Item.nodes` — the nodes of a tree in document order; `offends_iff_nodes` says that they offend
  exactly where something in the tree does;
* `errorOf_toValue` — **the error** about a tree is about the first node that cannot be held, with
  its location;
* `toValue_first_offence` — so that trees without such a node are copied, and no others.
-/

open Location (behind first? firstAt? follow)

/-- What of a node by itself a structured value cannot hold. -/
def unheld? : Item → Option Unrepresentable
  | .dateTime d => some (.dateTime d)
  | .float x => if x.isFinite then none else some (.float x)
  | _ => none

mutual

/-- The nodes of a tree in document order, each with the steps that lead to it. -/
def Item.nodes : Item → List (List Location.Step × Item)
  | .array items => ([], .array items) :: Item.nodesOfItems 0 items
  | .table entries => ([], .table entries) :: Item.nodesOfEntries entries
  | leaf => [([], leaf)]

/-- The nodes of the items of an array, whose indices are counted from the one that is given. -/
def Item.nodesOfItems (index : Nat) : List Item → List (List Location.Step × Item)
  | [] => []
  | item :: items => behind (.item index) item.nodes ++ Item.nodesOfItems (index + 1) items

/-- The nodes of the entries of a table, one entry after the other. -/
def Item.nodesOfEntries : List (String × Item) → List (List Location.Step × Item)
  | [] => []
  | (key, item) :: entries => behind (.entry key) item.nodes ++ Item.nodesOfEntries entries

end

/-! ### Where something offends -/

/-- Whether one of some nodes cannot be held, at the location and for the reason that an offence
    names. -/
def NodesOffend (location : String) (nodes : List (List Location.Step × Item)) (o : Offence) :
    Prop :=
  ∃ n ∈ nodes, unheld? n.2 = some o.what ∧ o.location = follow location n.1

/-- What offends is one of the nodes behind a step, or one of those that follow. -/
theorem nodesOffend_append {location location' : String} {step : Location.Step} {o : Offence}
    (hstep : ∀ steps, follow location (step :: steps) = follow location' steps)
    (nodes rest : List (List Location.Step × Item)) :
    NodesOffend location (behind step nodes ++ rest) o
      ↔ NodesOffend location' nodes o ∨ NodesOffend location rest o := by
  simp only [NodesOffend, behind, List.mem_append, or_and_right, exists_or, List.mem_map,
    exists_exists_and_eq_and, hstep]

/-- A root that can be held by itself does not offend, so that a node inside it must. -/
theorem nodesOffend_cons {location : String} {item : Item} {o : Offence} (h : unheld? item = none)
    (nodes : List (List Location.Step × Item)) :
    NodesOffend location (([], item) :: nodes) o ↔ NodesOffend location nodes o := by
  simp [NodesOffend, h]

mutual

/-- **Something offends** in a tree exactly where a node cannot be held. -/
theorem offends_iff_nodes : ∀ {item : Item} {location : String} {o : Offence},
    Offends location item o ↔ NodesOffend location item.nodes o
  | .string _, _, _ | .integer _, _, _ | .boolean _, _, _ => by
    simp only [NodesOffend, Item.nodes, List.mem_singleton]
    constructor
    · nofun
    · rintro ⟨_, rfl, ⟨⟩, -⟩
  | .dateTime d, location, ⟨what, place⟩ => by
    simp only [NodesOffend, Item.nodes, List.mem_singleton]
    constructor
    · rintro ⟨⟩
      exact ⟨_, rfl, rfl, rfl⟩
    · rintro ⟨_, rfl, ⟨⟩, rfl⟩
      exact .dateTime
  | .float x, location, ⟨what, place⟩ => by
    simp only [NodesOffend, Item.nodes, List.mem_singleton]
    constructor
    · rintro ⟨h⟩
      exact ⟨_, rfl, by rw [unheld?, h]; rfl, rfl⟩
    · rintro ⟨_, rfl, h, rfl⟩
      cases hx : x.isFinite with
      | true => rw [unheld?, if_pos hx] at h; cases h
      | false =>
        rw [unheld?, hx] at h
        cases h
        exact .float hx
  | .array items, location, o => by
    rw [Item.nodes, nodesOffend_cons rfl, ← itemsOffend_iff_nodes]
    constructor
    · rintro (_ | _ | ⟨hi, h⟩)
      exact ⟨_, _, hi, by rwa [Nat.zero_add]⟩
    · rintro ⟨i, item, hi, h⟩
      exact .item hi (by rwa [Nat.zero_add] at h)
  | .table entries, location, o => by
    rw [Item.nodes, nodesOffend_cons rfl, ← entriesOffend_iff_nodes]
    constructor
    · rintro (_ | _ | _ | ⟨he, h⟩)
      exact ⟨_, he, h⟩
    · rintro ⟨e, he, h⟩
      exact .entry he h

/-- Something offends in the items of an array exactly where a node of the items cannot be held. -/
theorem itemsOffend_iff_nodes : ∀ {items : List Item} {location : String} {index : Nat}
    {o : Offence}, ItemsOffend location index items o
      ↔ NodesOffend location (Item.nodesOfItems index items) o
  | [], _, _, _ => by simp [ItemsOffend, NodesOffend, Item.nodesOfItems]
  | item :: items, location, index, o => by
    rw [itemsOffend_cons, Item.nodesOfItems, nodesOffend_append fun _ => rfl, offends_iff_nodes,
      itemsOffend_iff_nodes]

/-- Something offends in the entries of a table exactly where a node of the entries cannot be
    held. -/
theorem entriesOffend_iff_nodes : ∀ {entries : List (String × Item)} {location : String}
    {o : Offence}, (∃ e ∈ entries, Offends (Location.entry location e.1) e.2 o)
      ↔ NodesOffend location (Item.nodesOfEntries entries) o
  | [], _, _ => by simp [NodesOffend, Item.nodesOfEntries]
  | (key, item) :: entries, location, o => by
    rw [Item.nodesOfEntries, nodesOffend_append fun _ => rfl, ← offends_iff_nodes,
      ← entriesOffend_iff_nodes]
    exact List.exists_mem_cons_iff ..

end

/-! ### The error

Copying stops at the first error, and so does the search through the nodes. That the two meet the
nodes in the same order is what the induction says.
-/

mutual

/-- **The error** about a tree is about the first node that cannot be held. -/
theorem errorOf_toValue : ∀ (item : Item) (location : String),
    errorOf (item.toValue location) = firstAt? unheld? Offence.mk location item.nodes
  | .string _, _ | .integer _, _ | .boolean _, _ | .dateTime _, _ => rfl
  | .float x, location => by
    cases hx : x.isFinite <;>
      simp [Item.toValue, Item.nodes, firstAt?, first?, unheld?, follow, errorOf, hx]
  | .array items, location => by
    rw [Item.toValue, errorOf_map, errorOf_toValues]
    rfl
  | .table entries, location => by
    rw [Item.toValue, errorOf_map, errorOf_toFields]
    rfl

/-- The error about the items of an array is about the first of their nodes that cannot be held. -/
theorem errorOf_toValues : ∀ (items : List Item) (location : String) (index : Nat),
    errorOf (Item.toValues location index items)
      = firstAt? unheld? Offence.mk location (Item.nodesOfItems index items)
  | [], _, _ => rfl
  | item :: items, location, index => by
    rw [Item.toValues, Item.nodesOfItems, Location.firstAt?_append fun _ => rfl, errorOf_both,
      errorOf_toValue, errorOf_toValues]

/-- The error about the entries of a table is about the first of their nodes that cannot be held. -/
theorem errorOf_toFields : ∀ (entries : List (String × Item)) (location : String),
    errorOf (Item.toFields location entries)
      = firstAt? unheld? Offence.mk location (Item.nodesOfEntries entries)
  | [], _ => rfl
  | (key, item) :: entries, location => by
    rw [Item.toFields, Item.nodesOfEntries, Location.firstAt?_append fun _ => rfl, errorOf_both,
      errorOf_toValue, errorOf_toFields]

end

/-- A tree is copied exactly if every node of it can be held. -/
theorem exists_toValue_iff {item : Item} {location : String} :
    (∃ v, item.toValue location = .ok v) ↔ ∀ n ∈ item.nodes, unheld? n.2 = none := by
  rw [← errorOf_eq_none_iff, errorOf_toValue, firstAt?, Option.map_eq_none_iff,
    Location.first?_eq_none_iff]

/-- The copy of a tree holds what is in the tree. -/
theorem holds_of_toValue {item : Item} {location : String} {v : Value}
    (h : item.toValue location = .ok v) : Holds item v := by
  rcases toValue_settles item location with ⟨w, hw, hholds, -⟩ | ⟨o, ho, -⟩
  · cases h.symm.trans hw
    exact hholds
  · cases h.symm.trans ho

/-- **The offence** that is named is that of a node before which all others can be held. -/
theorem toValue_eq_error_iff {item : Item} {location : String} {o : Offence} :
    item.toValue location = .error o ↔ ∃ before steps node after,
      item.nodes = before ++ (steps, node) :: after ∧ (∀ n ∈ before, unheld? n.2 = none)
        ∧ unheld? node = some o.what ∧ o.location = follow location steps := by
  rw [← errorOf_eq_some_iff, errorOf_toValue, firstAt?, Option.map_eq_some_iff]
  simp only [Prod.exists, Location.first?_eq_some_iff]
  constructor
  · rintro ⟨steps, what, ⟨before, node, after, hnodes, hnode, hbefore⟩, rfl⟩
    exact ⟨before, steps, node, after, hnodes, hbefore, hnode, rfl⟩
  · rintro ⟨before, steps, node, after, hnodes, hbefore, hnode, hlocation⟩
    refine ⟨steps, o.what, ⟨before, node, after, hnodes, hnode, hbefore⟩, ?_⟩
    rw [← hlocation]

/-- A text that is read as a table has the value of the table, or the error about it. -/
theorem parseAt_of_readTable {text : String} {entries : Entries Item}
    (h : readTable text = .ok entries) (path : String) : Format.toml.parseAt path text
      = ((Item.table entries).toValue "").mapError fun o => .parseFailed path "toml" o.message := by
  have hread : read text = ((Item.table entries).toValue "").mapError .offence := by
    rw [read, h, mapError_ok, ok_bind]
  show ((read text).mapError ReadError.message).mapError _ = _
  rw [hread]
  cases (Item.table entries).toValue "" <;> rfl

/-- **A table** is copied exactly if no date-time and no float that is not finite is in it, and the
    copy holds it: the same keys and items in the same order, and the same strings, numbers and
    truth values in their places.  Otherwise the error names the first of them in document order,
    with the location that the steps to it make; this is what is reported about a text. -/
theorem toValue_first_offence (entries : Entries Item) :
    let t := Item.table entries
    (∀ location, ((∃ v, t.toValue location = .ok v) ↔ ∀ n ∈ t.nodes, unheld? n.2 = none)
      ∧ (∀ o, Offends location t o ↔ ∃ n ∈ t.nodes,
        unheld? n.2 = some o.what ∧ o.location = follow location n.1)
      ∧ (∀ v, t.toValue location = .ok v → Holds t v)
      ∧ ∀ o, t.toValue location = .error o ↔ ∃ before steps node after,
        t.nodes = before ++ (steps, node) :: after ∧ (∀ n ∈ before, unheld? n.2 = none)
          ∧ unheld? node = some o.what ∧ o.location = follow location steps)
    ∧ ∀ path text, readTable text = .ok entries → Format.toml.parseAt path text
      = (t.toValue "").mapError fun o => .parseFailed path "toml" o.message :=
  ⟨fun _ => ⟨exists_toValue_iff, fun _ => offends_iff_nodes, fun _ => holds_of_toValue,
    fun _ => toValue_eq_error_iff⟩, fun path _ h => parseAt_of_readTable h path⟩

/-- Of a date in an array and an infinite float behind it, the date is reported. -/
theorem toValue_first_offence_date :
    let text := "m.x = [1, 1979-05-27]\ny = inf\n"
    let date : DateTime := ⟨some ⟨1979, 5, 27⟩, none, none⟩
    let array : Item := .array [.integer 1, .dateTime date]
    let entries : Entries Item := [("m", .table [("x", array)]), ("y", .float (.infinity false))]
    readTable text = .ok entries
      ∧ (Item.table entries).toValue "" = .error ⟨.dateTime date, "m.x[1]"⟩
      ∧ Format.toml.parseAt "doc" text = .error (.parseFailed "doc" "toml"
        "date-time `1979-05-27` at `m.x[1]` is not supported") := by
  have hread : readTable "m.x = [1, 1979-05-27]\ny = inf\n" = .ok
      [("m", .table [("x", .array [.integer 1, .dateTime ⟨some ⟨1979, 5, 27⟩, none, none⟩])]),
        ("y", .float (.infinity false))] := by
    decide +kernel
  intro text date array entries
  obtain ⟨hfirst, hparse⟩ := toValue_first_offence entries
  have herror : (Item.table entries).toValue "" = .error ⟨.dateTime date, "m.x[1]"⟩ := by
    -- before the date are the tables, the array and the integer in it
    refine ((hfirst "").2.2.2 _).mpr ⟨[([], .table entries), ([.entry "m"], .table [("x", array)]),
      ([.entry "m", .entry "x"], array), ([.entry "m", .entry "x", .item 0], .integer 1)],
      [.entry "m", .entry "x", .item 1], .dateTime date, [([.entry "y"], .float (.infinity false))],
      rfl, ?_, rfl, rfl⟩
    simp [unheld?, array]
  refine ⟨hread, herror, ?_⟩
  rw [hparse "doc" text hread, herror]
  rfl

end SchemaEmbed.Toml
