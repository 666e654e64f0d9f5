import SchemaEmbed.Proofs.Entries
import SchemaEmbed.Proofs.Outcome
import SchemaEmbed.Toml.Bare
import SchemaEmbed.Toml.Draft

namespace SchemaEmbed.Toml

/-!
# Tables while they are defined

The lines of a document change the tables that were defined before them in many ways: keys with
dots extend tables, headers open them again, and arrays get more tables. Whatever lines do to the
entries of a table, they stay a table:

* `Item.WellFormed` — keys are different in every table of a tree, and integers have 64 bits with
  their sign;
* `Draft.IsTable` — whether the finished tree of some entries is well-formed;
* `Draft.modifyAt_isTable` — **a change of one table** within a table keeps it one;
* `Draft.define_isTable` / `Draft.closeTable_isTable` / `Draft.appendTable_isTable` — so do the
  changes that lines and headers make.
-/

mutual

/-- Whether keys are different in every table of a tree, and integers have 64 bits with their
    sign. Strings, floats and date-times are well-formed as they are. -/
def Item.WellFormed : Item → Prop
  | .integer i => Number.minInt ≤ i ∧ i ≤ maxInteger
  | .array items => Item.AllWellFormed items
  | .table entries => (Entries.keys entries).Nodup ∧ Item.EntriesWellFormed entries
  | .string _ | .float _ | .boolean _ | .dateTime _ => True

/-- Whether all items of an array are well-formed. -/
def Item.AllWellFormed : List Item → Prop
  | [] => True
  | item :: items => item.WellFormed ∧ Item.AllWellFormed items

/-- Whether all entries of a table are well-formed. -/
def Item.EntriesWellFormed : List (String × Item) → Prop
  | [] => True
  | (_, item) :: entries => item.WellFormed ∧ Item.EntriesWellFormed entries

end

/-- All items of an array are well-formed if each of them is. -/
theorem allWellFormed_iff {items : List Item} :
    Item.AllWellFormed items ↔ ∀ item ∈ items, item.WellFormed := by
  induction items with
  | nil => simp [Item.AllWellFormed]
  | cons item items ih => rw [Item.AllWellFormed, ih, List.forall_mem_cons]

/-- All entries of a table are well-formed if each of them is. -/
theorem entriesWellFormed_iff {entries : List (String × Item)} :
    Item.EntriesWellFormed entries ↔ ∀ e ∈ entries, e.2.WellFormed := by
  induction entries with
  | nil => simp [Item.EntriesWellFormed]
  | cons e entries ih => rw [Item.EntriesWellFormed, ih, List.forall_mem_cons]

/-! ### Finished trees

While it is defined, a table has notes on how it was made: by a header, by dots in a key, or on the
way to another one. Finishing it drops them.
-/

namespace Draft

/-- The entries of a table are finished one by one, under their keys. -/
theorem toEntries_eq_map (entries : Entries Draft) :
    toEntries entries = entries.map fun e => (e.1, e.2.toItem) := by
  induction entries with
  | nil => rfl
  | cons e entries ih => rw [toEntries, ih, List.map_cons]

/-- The tables of an array are finished one by one. -/
theorem toTables_eq_map (tables : List (Entries Draft)) :
    toTables tables = tables.map fun entries => .table (toEntries entries) := by
  induction tables with
  | nil => rfl
  | cons entries tables ih => rw [toTables, ih, List.map_cons]

/-- What was defined in two parts is finished part by part. -/
theorem toEntries_append (a b : Entries Draft) :
    toEntries (a ++ b) = toEntries a ++ toEntries b := by
  simp only [toEntries_eq_map, List.map_append]

/-- What is finished has the keys that were defined. -/
theorem keys_toEntries (entries : Entries Draft) :
    Entries.keys (toEntries entries) = Entries.keys entries := by
  rw [toEntries_eq_map, Entries.keys, List.map_map]
  rfl

/-! ### Tables that are being defined

There is one property that all changes keep, and for each way to change a table one lemma. All
changes go through `modifyAt`, so the walk along the path is dealt with once.
-/

/-- Whether entries that were defined so far are a table: its tree is well-formed. How its parts
    were made is of no matter. -/
def IsTable (entries : Entries Draft) : Prop := (Item.table (toEntries entries)).WellFormed

variable {entries entries' parent : Entries Draft} {key : String} {draft : Draft}

/-- Entries are a table if their keys are different and all that stands under them is
    well-formed. -/
theorem isTable_iff : IsTable entries ↔
    (Entries.keys entries).Nodup ∧ ∀ e ∈ entries, e.2.toItem.WellFormed := by
  rw [IsTable, Item.WellFormed, keys_toEntries, entriesWellFormed_iff, toEntries_eq_map,
    List.forall_mem_map]

/-- Nothing has been defined at first, and that is a table. -/
theorem isTable_nil : IsTable [] := isTable_iff.mpr ⟨List.nodup_nil, by simp⟩

/-- What is found in a table under a key is well-formed. -/
theorem IsTable.find (h : IsTable entries) (hfind : Entries.find? key entries = some draft) :
    draft.toItem.WellFormed :=
  (isTable_iff.mp h).2 _ (Entries.mem_of_find hfind)

/-- What is well-formed can be put under any key of a table. A key that is there keeps its place
    and takes the new value. -/
theorem IsTable.put (h : IsTable entries) (hdraft : draft.toItem.WellFormed) (key : String) :
    IsTable (Entries.put key draft entries) := by
  obtain ⟨hkeys, hentries⟩ := isTable_iff.mp h
  refine isTable_iff.mpr ⟨Entries.keys_put_nodup hkeys key draft, fun e he => ?_⟩
  rcases Entries.mem_put he with rfl | he
  · exact hdraft
  · exact hentries e he

/-- An array of tables is well-formed if each of them is a table, also the one that is still
    open. -/
theorem wellFormed_tables {before : List (Entries Draft)} {last : Entries Draft} :
    (Draft.tables before last).toItem.WellFormed ↔ (∀ t ∈ before, IsTable t) ∧ IsTable last := by
  rw [toItem, Item.WellFormed, allWellFormed_iff, toTables_eq_map, List.forall_mem_append,
    List.forall_mem_map, List.forall_mem_singleton]
  rfl

/-- **A change of a table within a table** keeps it a table if it keeps every table one. The
    induction is on the path. -/
theorem modifyAt_isTable {made : Origin} {change : Change}
    (hchange : ∀ {origin entries entries'}, IsTable entries →
      change origin entries = .ok entries' → IsTable entries') {path : List String}
    {origin : Origin} (h : IsTable entries)
    (hmodify : modifyAt made change path origin entries = .ok entries') : IsTable entries' := by
  induction path generalizing origin entries entries' with
  | nil => exact hchange h hmodify
  | cons key path ih =>
    -- what stands under the key: nothing yet, a table, an array of tables, or a closed value
    rw [modifyAt] at hmodify
    split at hmodify
    · obtain ⟨inner, hinner, heq⟩ := bind_eq_ok_iff.mp hmodify
      cases heq
      have hmade : (Draft.table made inner).toItem.WellFormed := ih isTable_nil hinner
      exact h.put hmade key
    · next origin inner hfind =>
      split at hmodify
      · cases hmodify
      · obtain ⟨changed, hchanged, heq⟩ := bind_eq_ok_iff.mp hmodify
        cases heq
        have hkept : (Draft.table origin changed).toItem.WellFormed := ih (h.find hfind) hchanged
        exact h.put hkept key
    · next before last hfind =>
      obtain ⟨changed, hchanged, heq⟩ := bind_eq_ok_iff.mp hmodify
      cases heq
      obtain ⟨hbefore, hlast⟩ := wellFormed_tables.mp (h.find hfind)
      exact h.put (wellFormed_tables.mpr ⟨hbefore, ih hlast hchanged⟩) key
    · cases hmodify

/-- A line adds an entry at the end of a path of keys, and the table stays one: the last key is
    new there, or the line is refused. -/
theorem define_isTable {path : List String} {item : Item} (hitem : item.WellFormed)
    (h : IsTable entries) (hdefine : define path key item entries = .ok entries') :
    IsTable entries' := by
  refine modifyAt_isTable (fun {origin inner inner'} hinner hadd => ?_) h hdefine
  split at hadd
  · cases hadd
  · rw [addNew] at hadd
    split at hadd
    · cases hadd
    · cases hadd
      have hvalue : (Draft.value item).toItem.WellFormed := hitem
      exact hinner.put hvalue key

/-- Nothing can be taken out under a key exactly if there is no such key. -/
theorem takeOut_eq_none_iff : takeOut key parent = none ↔ key ∉ Entries.keys parent := by
  induction parent with
  | nil => simp [takeOut, Entries.keys]
  | cons e rest ih =>
    obtain ⟨k, d⟩ := e
    by_cases hk : k = key
    · simp [takeOut, Entries.keys, hk]
    · rw [takeOut, if_neg hk, Option.map_eq_none_iff, ih]
      simp [Entries.keys, Ne.symm hk]

/-- An entry that is taken out and the others are together what was there. -/
theorem perm_of_takeOut {others : Entries Draft} (h : takeOut key parent = some (draft, others)) :
    parent.Perm ((key, draft) :: others) := by
  induction parent generalizing others with
  | nil => cases h
  | cons e rest ih =>
    obtain ⟨k, d⟩ := e
    rw [takeOut] at h
    split at h
    · next hk => cases h; exact hk ▸ List.Perm.refl _
    · -- it is taken out of the rest, in front of which the first entry stays
      obtain ⟨⟨found, left⟩, hrest, heq⟩ := Option.map_eq_some_iff.mp h
      cases heq
      exact ((ih hrest).cons (k, d)).trans (.swap (key, draft) (k, d) left)

/-- What is well-formed can stand at the end under a new key. -/
theorem IsTable.concat (h : IsTable entries) (hkey : key ∉ Entries.keys entries)
    (hdraft : draft.toItem.WellFormed) : IsTable (entries ++ [(key, draft)]) := by
  rw [← Entries.put_of_not_mem hkey]
  exact h.put hdraft key

/-- A table of a header is put back when it is over, and the table around it stays one: its key
    was taken out before, or is new. -/
theorem closeTable_isTable {path : List String}
    {fill : Entries Draft → Except Fault (Entries Draft)}
    (hfill : ∀ {own own'}, IsTable own → fill own = .ok own' → IsTable own')
    (h : IsTable entries) (hclose : closeTable path key fill entries = .ok entries') :
    IsTable entries' := by
  refine modifyAt_isTable (fun {origin parent parent'} hparent hput => ?_) h hclose
  split at hput
  · -- the table is new, and filled from nothing
    next hnone =>
    obtain ⟨own, hown, heq⟩ := bind_eq_ok_iff.mp hput
    cases heq
    exact hparent.concat (takeOut_eq_none_iff.mp hnone) (hfill isTable_nil hown)
  · -- the table was there and is filled further, after it has been taken out
    next kept others hsome =>
    obtain ⟨own, hown, heq⟩ := bind_eq_ok_iff.mp hput
    cases heq
    obtain ⟨hkeys, hentries⟩ := isTable_iff.mp hparent
    have hperm := perm_of_takeOut hsome
    have hkept : IsTable kept := hentries _ (hperm.mem_iff.mpr List.mem_cons_self)
    obtain ⟨hkey, hothers⟩ := List.nodup_cons.mp ((hperm.map Prod.fst).nodup_iff.mp hkeys)
    refine IsTable.concat (isTable_iff.mpr ⟨hothers, fun e he => ?_⟩) hkey (hfill hkept hown)
    exact hentries e (hperm.mem_iff.mpr (List.mem_cons_of_mem _ he))
  · cases hput

/-- A table of a header is appended to an array, and the table around it stays one. Each table of
    an array is filled from nothing. -/
theorem appendTable_isTable {path : List String}
    {fill : Entries Draft → Except Fault (Entries Draft)}
    (hfill : ∀ {own own'}, IsTable own → fill own = .ok own' → IsTable own')
    (h : IsTable entries) (happend : appendTable path key fill entries = .ok entries') :
    IsTable entries' := by
  refine modifyAt_isTable (fun {origin parent parent'} hparent hput => ?_) h happend
  obtain ⟨own, hown, hput⟩ := bind_eq_ok_iff.mp hput
  have hown' : IsTable own := hfill isTable_nil hown
  split at hput
  · cases hput
    exact hparent.put (wellFormed_tables.mpr ⟨by simp, hown'⟩) key
  · -- the array was there, and has one table more
    next before last hfind =>
    cases hput
    obtain ⟨hbefore, hlast⟩ := wellFormed_tables.mp (hparent.find hfind)
    refine hparent.put (wellFormed_tables.mpr ⟨fun t ht => ?_, hown'⟩) key
    rcases List.mem_append.mp ht with ht | ht
    · exact hbefore t ht
    · rwa [List.mem_singleton.mp ht]
  · cases hput

end Draft

end SchemaEmbed.Toml
