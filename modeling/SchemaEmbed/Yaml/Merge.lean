import SchemaEmbed.Yaml.Tree

namespace SchemaEmbed.Yaml

/-!
# Merge keys

A mapping may take entries over from others under the key `<<`:

* `Fields` — the entries of a mapping with keys of any kind;
* `takeMergeKey` — removes the key; the last entry moves into its place;
* `absorb` — takes entries over whose keys are absent;
* `Tree.mergeKeys` — resolves the merge keys of a tree from the root down. An entry that
  is taken over brings no merge key of its own into effect, but merge keys inside its
  value are resolved too. Of several errors the one that is reported lies in the last
  child of each collection.
-/

/-- The entries of a mapping in order. -/
abbrev Fields := List (Tree × Tree)

/-- What is wrong with the value of a merge key. -/
inductive MergeError where
  | scalar
  | scalarItem
  | sequenceItem
  | taggedValue
  deriving DecidableEq, Repr

/-- The wording of an error. -/
def MergeError.message : MergeError → String
  | .scalar => "expected a mapping or list of mappings for merging, but found scalar"
  | .scalarItem => "expected a mapping for merging, but found scalar"
  | .sequenceItem => "expected a mapping for merging, but found sequence"
  | .taggedValue => "unexpected tagged value in merge"

/-- Whether a key is the merge key. -/
def isMergeKey : Tree → Bool
  | .string s => s == "<<"
  | _ => false

/-- The entries after the last one, if there is one, has moved to the head. -/
def lastToFront (fields : Fields) : Fields :=
  match fields.getLast? with
  | some e => e :: fields.dropLast
  | none => []

/-- The value of the merge key, and the entries without it, the last one in its place. -/
def takeMergeKey : Fields → Option (Tree × Fields)
  | [] => none
  | (k, v) :: rest =>
    if isMergeKey k then some (v, lastToFront rest)
    else (takeMergeKey rest).map fun (source, others) => (source, (k, v) :: others)

/-- Appends those entries whose keys are absent. -/
def absorb (fields source : Fields) : Fields :=
  source.foldl (fun fields e => if Tree.hasKey e.1 fields then fields else fields ++ [e]) fields

/-- Takes over the entries of every mapping of a list. -/
def absorbAll (fields : Fields) : List Tree → Except MergeError Fields
  | [] => .ok fields
  | .mapping source :: rest => absorbAll (absorb fields source) rest
  | .sequence _ :: _ => .error .sequenceItem
  | .tagged .. :: _ => .error .taggedValue
  | _ :: _ => .error .scalarItem

/-- The entries of a mapping after its merge key, if it has one, took effect. -/
def mergeFields (fields : Fields) : Except MergeError Fields :=
  match takeMergeKey fields with
  | none => .ok fields
  | some (.mapping source, others) => .ok (absorb others source)
  | some (.sequence sources, others) => absorbAll others sources
  | some (.tagged .., _) => .error .taggedValue
  | some _ => .error .scalar

/-- Applies a function to all items, the last one first, so that the error of a later
    item comes before that of an earlier one. -/
def eachFromLast {α β ε : Type} (f : α → Except ε β) : List α → Except ε (List β)
  | [] => .ok []
  | x :: rest => do
    let ys ← eachFromLast f rest
    let y ← f x
    return y :: ys

/-- Resolves the merge keys of a tree of at most this height. Keys are left as they
    are. -/
def Tree.mergeKeysWithin : (height : Nat) → Tree → Except MergeError Tree
  | 0, t => .ok t
  | height + 1, t =>
    match t with
    | .sequence items => (eachFromLast (Tree.mergeKeysWithin height) items).map .sequence
    | .mapping fields => do
      let fields ← mergeFields fields
      let fields ← eachFromLast
        (fun (key, value) => (Tree.mergeKeysWithin height value).map (Prod.mk key)) fields
      return .mapping fields
    | .tagged tag content => (Tree.mergeKeysWithin height content).map (.tagged tag)
    | leaf => .ok leaf

/-- Resolves the merge keys of a tree. -/
def Tree.mergeKeys (t : Tree) : Except MergeError Tree := t.mergeKeysWithin t.size

end SchemaEmbed.Yaml
