import SchemaEmbed.Location
import SchemaEmbed.Proofs.Value

namespace SchemaEmbed

/-!
# Nodes and their locations

Several searches go through a document and report the first place where something is found, with
its location as a text. They are recursive functions that extend the text while they descend. So
that what they find can be said without that recursion, a document is taken apart into the list of
its nodes here, and the search is one on a list:

* `Location.Step` — a step from a container to what is in it;
* `Location.follow` — the location that steps lead to; `Location.follow_eq` says how it is written
  after a location that is not empty;
* `Location.first?` — the first of some nodes in which something is found; `Location.firstAt?` is
  the same with its location, and `Location.firstAt?_append` goes on with what follows;
* `Value.nodes` — the nodes of a value in document order, each with the steps that lead to it;
* `Value.every_iff_nodes` — what holds everywhere in a value holds of its nodes.

A container comes before what is in it, so that document order is the order in which a reader of
the text meets the nodes.
-/

namespace Location

/-- A step from a container to what is in it: to an item by its index, or to an entry by its key. -/
inductive Step where
  | item (index : Nat)
  | entry (key : String)
  deriving DecidableEq, Repr

/-- The location that steps lead to from another one, written step by step as messages do. -/
def follow (location : String) : List Step → String
  | [] => location
  | .item index :: steps => follow (item location index) steps
  | .entry key :: steps => follow (entry location key) steps

/-- The text of steps behind a location. It has a dot before every key, which `entry` leaves out
    where nothing is before it. -/
def suffix : List Step → String
  | [] => ""
  | .item index :: steps => s!"[{index}]" ++ suffix steps
  | .entry key :: steps => "." ++ key ++ suffix steps

/-- **Locations** that are not empty go on with the text of the steps. From the empty location
    on, a first key would stand without its dot. -/
theorem follow_eq {location : String} (h : location ≠ "") (steps : List Step) :
    follow location steps = location ++ suffix steps := by
  induction steps generalizing location with
  | nil => exact String.append_empty.symm
  | cons step steps ih =>
    have hmore (text : String) : location ++ text ≠ "" := fun hempty =>
      h (String.append_eq_empty_iff.mp hempty).1
    cases step with
    | item index =>
      have hitem : item location index = location ++ s!"[{index}]" := by
        simp only [item, String.append_assoc, toString]
      rw [follow, hitem, ih (hmore _), suffix, String.append_assoc]
    | entry key =>
      have hentry : entry location key = location ++ ("." ++ key) := by
        rw [entry, if_neg (by simpa using h), String.append_assoc]
      rw [follow, hentry, ih (hmore _), suffix, String.append_assoc]

/-! ### The first of some nodes

The search on a list of nodes knows nothing of containers. A recursive search is shown equal to it
by going behind one step for each item or entry and on with the rest, which is what
`firstAt?_append` does.
-/

section First

variable {α β γ : Type} {find : α → Option β}

/-- The first of some nodes in which something is found: the steps to it, and what is found. -/
def first? (find : α → Option β) (nodes : List (List Step × α)) : Option (List Step × β) :=
  nodes.findSome? fun n => (find n.2).map fun b => (n.1, b)

/-- Nothing is found first exactly if nothing is found in any node. -/
theorem first?_eq_none_iff {nodes : List (List Step × α)} :
    first? find nodes = none ↔ ∀ n ∈ nodes, find n.2 = none := by
  simp [first?, List.findSome?_eq_none_iff]

/-- **What is found first** is found in a node before which nothing is found. -/
theorem first?_eq_some_iff {nodes : List (List Step × α)} {steps : List Step} {b : β} :
    first? find nodes = some (steps, b) ↔ ∃ before a after,
      nodes = before ++ (steps, a) :: after ∧ find a = some b ∧ ∀ n ∈ before, find n.2 = none := by
  rw [first?, List.findSome?_eq_some_iff]
  constructor
  · rintro ⟨before, ⟨steps', a⟩, after, rfl, hfind, hbefore⟩
    obtain ⟨b', hb', heq⟩ := Option.map_eq_some_iff.mp hfind
    cases heq
    exact ⟨before, a, after, rfl, hb', fun n hn => Option.map_eq_none_iff.mp (hbefore n hn)⟩
  · rintro ⟨before, a, after, rfl, hfind, hbefore⟩
    exact ⟨before, (steps, a), after, rfl, Option.map_eq_some_iff.mpr ⟨b, hfind, rfl⟩,
      fun n hn => Option.map_eq_none_iff.mpr (hbefore n hn)⟩

/-- Nodes as they are seen from one step above. -/
def behind (step : Step) (nodes : List (List Step × α)) : List (List Step × α) :=
  nodes.map fun n => (step :: n.1, n.2)

/-- Behind a step the same node is found first, with the step before its own. -/
theorem first?_behind (step : Step) (nodes : List (List Step × α)) :
    first? find (behind step nodes) = (first? find nodes).map fun r => (step :: r.1, r.2) := by
  rw [first?, behind, List.findSome?_map, first?, List.map_findSome?]
  congr 1
  funext n
  rw [Function.comp_apply, Function.comp_apply, Option.map_map]
  rfl

/-- What is found first in nodes, made of what is found and its location. -/
def firstAt? (find : α → Option β) (make : β → String → γ) (location : String)
    (nodes : List (List Step × α)) : Option γ :=
  (first? find nodes).map fun r => make r.2 (follow location r.1)

/-- **A search goes on** with what follows if nothing is found behind a step. -/
theorem firstAt?_append {make : β → String → γ} {location location' : String} {step : Step}
    (hstep : ∀ steps, follow location (step :: steps) = follow location' steps)
    (nodes rest : List (List Step × α)) :
    firstAt? find make location (behind step nodes ++ rest)
      = (firstAt? find make location' nodes).or (firstAt? find make location rest) := by
  have happend : first? find (behind step nodes ++ rest)
      = (first? find (behind step nodes)).or (first? find rest) := List.findSome?_append
  rw [firstAt?, happend, first?_behind, Option.map_or, Option.map_map]
  simp only [Function.comp_def, hstep]
  rfl

end First

end Location

namespace Value

mutual

/-- The nodes of a value in document order, each with the steps that lead to it. -/
def nodes : Value → List (List Location.Step × Value)
  | .array items => ([], .array items) :: nodesOfItems 0 items
  | .object entries => ([], .object entries) :: nodesOfEntries entries
  | v => [([], v)]

/-- The nodes of the items of a sequence, whose first item has the given index. -/
def nodesOfItems (index : Nat) : List Value → List (List Location.Step × Value)
  | [] => []
  | v :: rest =>
    (nodes v).map (fun n => (.item index :: n.1, n.2)) ++ nodesOfItems (index + 1) rest

/-- The nodes of the values of a mapping, each behind its key. -/
def nodesOfEntries : List (String × Value) → List (List Location.Step × Value)
  | [] => []
  | (key, v) :: rest =>
    (nodes v).map (fun n => (.entry key :: n.1, n.2)) ++ nodesOfEntries rest

end

variable {P : Value → Prop}

mutual

/-- **What holds everywhere** in a value holds of each of its nodes. -/
theorem every_iff_nodes : ∀ {v : Value}, Every P v ↔ ∀ n ∈ nodes v, P n.2
  | .null | .bool _ | .number _ | .string _ => by simp [Every, nodes]
  | .array items => by
    rw [Every, nodes, List.forall_mem_cons, everyItem_iff_nodes 0]
  | .object entries => by
    rw [Every, nodes, List.forall_mem_cons, everyEntry_iff_nodes]

/-- What holds everywhere in the items of a sequence holds of each node below them, at whatever
    index the items begin. -/
theorem everyItem_iff_nodes (index : Nat) : ∀ {items : List Value},
    EveryItem P items ↔ ∀ n ∈ nodesOfItems index items, P n.2
  | [] => by simp [EveryItem, nodesOfItems]
  | v :: rest => by
    rw [EveryItem, nodesOfItems, List.forall_mem_append, List.forall_mem_map, every_iff_nodes,
      everyItem_iff_nodes (index + 1)]

/-- What holds everywhere in the values of a mapping holds of each node below them. -/
theorem everyEntry_iff_nodes : ∀ {entries : List (String × Value)},
    EveryEntry P entries ↔ ∀ n ∈ nodesOfEntries entries, P n.2
  | [] => by simp [EveryEntry, nodesOfEntries]
  | (key, v) :: rest => by
    rw [EveryEntry, nodesOfEntries, List.forall_mem_append, List.forall_mem_map, every_iff_nodes,
      everyEntry_iff_nodes]

end

end Value

end SchemaEmbed
