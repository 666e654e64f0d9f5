import SchemaEmbed.Toml.Item

namespace SchemaEmbed.Toml

/-!
# Tables while they are defined

The lines of a document define tables piece by piece. What may still be added to a table
depends on how it came to be:

* `Draft` — what stands under a key so far: a closed value, a table with its origin, or
  an array of tables, to whose last one lines can add;
* `Draft.modifyAt` — changes the table that a path leads to, making the missing tables on
  the way;
* `Draft.define` — the entry of a line `path.key = value`;
* `Draft.closeTable` — the table of a header, which is taken out of its parent, filled with
  its lines and put back as the last entry, and `Draft.appendTable`, which adds a table to an
  array of tables;
* `Draft.toItem` — the finished tree.
-/

/-- How a table came to be. -/
inductive Origin where
  /-- By a header of its own. -/
  | header
  /-- By a longer header. -/
  | implied
  /-- By a dotted key. -/
  | dotted
  deriving DecidableEq, Repr

/-- What stands under a key so far. -/
inductive Draft where
  | value (item : Item)
  | table (origin : Origin) (entries : List (String × Draft))
  /-- Tables of one array, the last one apart. -/
  | tables (before : List (List (String × Draft))) (last : List (String × Draft))
  deriving Inhabited

namespace Draft

/-- A change of a table, which may depend on its origin. -/
abbrev Change := Origin → Entries Draft → Except Fault (Entries Draft)

/-- Changes the table that a path leads to. A missing table on the way gets the origin
    `made`; a dotted key cannot go through a table with a header of its own. -/
def modifyAt (made : Origin) (change : Change) :
    (path : List String) → Origin → Entries Draft → Except Fault (Entries Draft)
  | [], origin, entries => change origin entries
  | key :: path, _, entries =>
    match entries.find? key with
    | none => do
      let inner ← modifyAt made change path made []
      return entries.put key (.table made inner)
    | some (.table origin inner) =>
      if made = .dotted ∧ origin = .header then .error .duplicateKey
      else do
        let inner ← modifyAt made change path origin inner
        return entries.put key (.table origin inner)
    | some (.tables before last) => do
      let last ← modifyAt made change path .header last
      return entries.put key (.tables before last)
    | some (.value _) => .error .notTable

/-- Adds an entry that must be new. -/
def addNew (key : String) (draft : Draft) (entries : Entries Draft) :
    Except Fault (Entries Draft) :=
  if (entries.find? key).isSome then .error .duplicateKey else .ok (entries.put key draft)

/-- The entry of a line. A dotted key ends in a table that dotted keys made. -/
def define (path : List String) (key : String) (item : Item) (entries : Entries Draft) :
    Except Fault (Entries Draft) :=
  modifyAt .dotted
    (fun origin inner =>
      if path ≠ [] ∧ origin ≠ .dotted then .error .duplicateKey
      else addNew key (.value item) inner)
    path .header entries

/-- An entry and the others. -/
def takeOut (key : String) : Entries Draft → Option (Draft × Entries Draft)
  | [] => none
  | (k, d) :: rest =>
    if k = key then some (d, rest)
    else (takeOut key rest).map fun (found, others) => (found, (k, d) :: others)

/-- Puts the table of a header after the other entries of its parent. It starts with what
    longer headers have put there; any other entry under its key is in its way. -/
def closeTable (path : List String) (key : String)
    (fill : Entries Draft → Except Fault (Entries Draft)) (entries : Entries Draft) :
    Except Fault (Entries Draft) :=
  modifyAt .implied
    (fun _ parent =>
      match takeOut key parent with
      | none => do
        let own ← fill []
        return parent ++ [(key, .table .header own)]
      | some (.table .implied kept, others) => do
        let own ← fill kept
        return others ++ [(key, .table .header own)]
      | some _ => .error .duplicateKey)
    path .header entries

/-- Appends the table of a header to an array of tables. -/
def appendTable (path : List String) (key : String)
    (fill : Entries Draft → Except Fault (Entries Draft)) (entries : Entries Draft) :
    Except Fault (Entries Draft) :=
  modifyAt .implied
    (fun _ parent => do
      let own ← fill []
      match parent.find? key with
      | none => return parent.put key (.tables [] own)
      | some (.tables before last) => return parent.put key (.tables (before ++ [last]) own)
      | some _ => throw .duplicateKey)
    path .header entries

mutual

/-- The finished tree under a key. -/
def toItem : Draft → Item
  | .value item => item
  | .table _ entries => .table (toEntries entries)
  | .tables before last => .array (toTables before ++ [.table (toEntries last)])

/-- The finished entries of a table. -/
def toEntries : List (String × Draft) → List (String × Item)
  | [] => []
  | (key, draft) :: rest => (key, draft.toItem) :: toEntries rest

/-- The finished tables of an array. -/
def toTables : List (List (String × Draft)) → List Item
  | [] => []
  | entries :: rest => .table (toEntries entries) :: toTables rest

end

end Draft

end SchemaEmbed.Toml
