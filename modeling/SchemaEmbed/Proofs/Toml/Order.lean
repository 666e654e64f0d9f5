import SchemaEmbed.Proofs.Toml.Offence
import SchemaEmbed.Proofs.Toml.WellFormed

namespace SchemaEmbed.Toml

/-!
# The order in which lines define a table

A line adds keys at the end of the tables that it goes through, so that keys stand in the order
of the lines that first name them. The one exception is a header of a table that longer headers
have made already: the table is taken out and put back as the last entry of its parent.

* `Item.Begins` — whether one tree is how another one begins: the other has more keys and items
  after those of the one, at any depth;
* `Draft.modifyAt_grows_iff` — **a change of one table** within a table adds to the whole
  exactly if it adds to the part;
* `fill_grows` / `readEntries_in_order` — **the lines of a section** and the entries of an inline
  table never displace anything;
* `Assembly` — a document line by line; `assemble_eq_foldlM` says that its sections come out the
  same;
* `Displaces` — whether a header takes out a table that others follow;
* `assemble_step` — **one line** adds to a table exactly if it does not displace anything;
* `inOrder_iff` / `InOrder.grows` — **all lines** do so exactly if none displaces anything, and
  then the table of the first lines is how the table of all lines begins.
-/

/-! ### Trees that begin with others

A table with more lines has more keys, and tables in it have more keys too; an array of tables has
more items. So one tree begins with another at every depth at once. A value that is neither a table
nor an array is all that it is from the start.
-/

mutual

/-- Whether a tree begins with another: its tables have the same keys first, and its arrays the
    same items first, which themselves begin with what they were. The first argument is the one
    with less. -/
def Item.Begins : Item → Item → Prop
  | .array items, .array items' => Item.ItemsBegin items items'
  | .table entries, .table entries' => Item.EntriesBegin entries entries'
  | item, item' => item = item'

/-- Whether items begin with others. -/
def Item.ItemsBegin : List Item → List Item → Prop
  | [], _ => True
  | _ :: _, [] => False
  | item :: items, item' :: items' => item.Begins item' ∧ Item.ItemsBegin items items'

/-- Whether entries begin with others. -/
def Item.EntriesBegin : List (String × Item) → List (String × Item) → Prop
  | [], _ => True
  | _ :: _, [] => False
  | (k, item) :: entries, (k', item') :: entries' =>
    k = k' ∧ item.Begins item' ∧ Item.EntriesBegin entries entries'

end

namespace Item

mutual

/-- A tree begins with itself. -/
theorem begins_refl : ∀ item : Item, item.Begins item
  | .string _ | .integer _ | .float _ | .boolean _ | .dateTime _ => rfl
  | .array items => itemsBegin_refl items
  | .table entries => entriesBegin_refl entries

/-- Items begin with themselves. -/
theorem itemsBegin_refl : ∀ items : List Item, ItemsBegin items items
  | [] => trivial
  | item :: items => ⟨begins_refl item, itemsBegin_refl items⟩

/-- Entries begin with themselves. -/
theorem entriesBegin_refl : ∀ entries : List (String × Item), EntriesBegin entries entries
  | [] => trivial
  | (_, item) :: entries => ⟨rfl, begins_refl item, entriesBegin_refl entries⟩

end

mutual

/-- **What begins with something** that begins with something else begins with that. -/
theorem begins_trans : ∀ {a b c : Item}, a.Begins b → b.Begins c → a.Begins c
  | .string _, _, _, h, h' | .integer _, _, _, h, h' | .float _, _, _, h, h'
  | .boolean _, _, _, h, h' | .dateTime _, _, _, h, h' => by
    cases h
    exact h'
  | .array _, .array _, .array _, h, h' => itemsBegin_trans h h'
  | .table _, .table _, .table _, h, h' => entriesBegin_trans h h'

/-- Items that begin with others begin with what those begin with. -/
theorem itemsBegin_trans : ∀ {as bs cs : List Item}, ItemsBegin as bs → ItemsBegin bs cs →
    ItemsBegin as cs
  | [], _, _, _, _ => trivial
  | _ :: _, _ :: _, _ :: _, h, h' => ⟨begins_trans h.1 h'.1, itemsBegin_trans h.2 h'.2⟩

/-- Entries that begin with others begin with what those begin with. -/
theorem entriesBegin_trans : ∀ {as bs cs : List (String × Item)}, EntriesBegin as bs →
    EntriesBegin bs cs → EntriesBegin as cs
  | [], _, _, _, _ => trivial
  | (_, _) :: _, (_, _) :: _, (_, _) :: _, h, h' =>
    ⟨h.1.trans h'.1, begins_trans h.2.1 h'.2.1, entriesBegin_trans h.2.2 h'.2.2⟩

end

/-- Items to which more are added begin with what they were. -/
theorem itemsBegin_append (items more : List Item) : ItemsBegin items (items ++ more) := by
  induction items with
  | nil => trivial
  | cons item items ih => exact ⟨begins_refl item, ih⟩

/-- After the same items, the others decide. -/
theorem itemsBegin_append_iff (before : List Item) {items items' : List Item} :
    ItemsBegin (before ++ items) (before ++ items') ↔ ItemsBegin items items' := by
  induction before with
  | nil => exact Iff.rfl
  | cons item before ih => exact (and_iff_right (begins_refl item)).trans ih

/-- Entries to which more are added begin with what they were. -/
theorem entriesBegin_append (entries more : List (String × Item)) :
    EntriesBegin entries (entries ++ more) := by
  induction entries with
  | nil => trivial
  | cons e entries ih => exact ⟨rfl, begins_refl e.2, ih⟩

/-- After the same entries, the others decide. -/
theorem entriesBegin_append_iff (before : List (String × Item))
    {entries entries' : List (String × Item)} :
    EntriesBegin (before ++ entries) (before ++ entries') ↔ EntriesBegin entries entries' := by
  induction before with
  | nil => exact Iff.rfl
  | cons e before ih => exact (and_iff_right rfl).trans ((and_iff_right (begins_refl e.2)).trans ih)

/-- Entries begin with the keys of those that they begin with. -/
theorem keys_begin : ∀ {entries entries' : List (String × Item)},
    EntriesBegin entries entries' → Entries.keys entries <+: Entries.keys entries'
  | [], _, _ => List.nil_prefix
  | (k, _) :: _, (_, _) :: _, h => by
    obtain ⟨rfl, -, hrest⟩ := h
    exact (List.prefix_cons_inj k).mpr (keys_begin hrest)

end Item

/-! ### Tables that are being defined

The relation is carried over to tables whose lines are still being read, by what they come to in
the end. Where a table is defined, by a line or by a header, does not matter for the order of its
keys.
-/

namespace Draft

/-- Whether entries that were defined so far begin with those that were defined before. Origins
    are not compared, only what is there. -/
def Grows (entries entries' : Entries Draft) : Prop :=
  Item.EntriesBegin (toEntries entries) (toEntries entries')

variable {entries entries' parent : Entries Draft} {key : String} {d d' : Draft}

/-- Entries to which nothing was added begin with what they were. -/
theorem Grows.refl (entries : Entries Draft) : Grows entries entries := Item.entriesBegin_refl _

/-- What is added in two steps is added. -/
theorem Grows.trans {entries'' : Entries Draft} (h : Grows entries entries')
    (h' : Grows entries' entries'') : Grows entries entries'' := Item.entriesBegin_trans h h'

/-- Nothing is how everything begins. -/
theorem grows_nil (entries : Entries Draft) : Grows [] entries := trivial

/-- What is added comes last. -/
theorem grows_append (entries more : Entries Draft) : Grows entries (entries ++ more) := by
  rw [Grows, toEntries_append]
  exact Item.entriesBegin_append _ _

/-- The last entry decides if the others are the same. -/
theorem grows_concat_iff : Grows (entries ++ [(key, d)]) (entries ++ [(key, d')])
    ↔ d.toItem.Begins d'.toItem := by
  rw [Grows, toEntries_append, toEntries_append, Item.entriesBegin_append_iff]
  exact (and_iff_right rfl).trans (and_iff_left trivial)

/-- **What stands under one key** decides if all else is the same. -/
theorem grows_put_put_iff (key : String) (entries : Entries Draft) :
    Grows (entries.put key d) (entries.put key d') ↔ d.toItem.Begins d'.toItem := by
  induction entries with
  | nil => exact (and_iff_right rfl).trans (and_iff_left trivial)
  | cons e entries ih =>
    obtain ⟨k, draft⟩ := e
    rw [Entries.put, Entries.put]
    split
    · -- the key is here, and all entries behind it are the same
      exact (and_iff_right rfl).trans (and_iff_left (Item.entriesBegin_refl _))
    · exact (and_iff_right rfl).trans ((and_iff_right (Item.begins_refl _)).trans ih)

/-- What is put where it stands changes nothing. -/
theorem put_self (h : entries.find? key = some d) : entries.put key d = entries := by
  induction entries with
  | nil => cases h
  | cons e entries ih =>
    obtain ⟨k, draft⟩ := e
    rw [Entries.find?] at h
    rw [Entries.put]
    split at h
    · next hk =>
      cases h
      rw [if_pos hk]
    · next hk => rw [if_neg hk, ih h]

/-- A change under a key that is there is one of what stands under it: the key keeps its place. -/
theorem grows_put_iff (h : entries.find? key = some d) :
    Grows entries (entries.put key d') ↔ d.toItem.Begins d'.toItem := by
  have hput : Grows (entries.put key d) (entries.put key d') ↔ d.toItem.Begins d'.toItem :=
    grows_put_put_iff key entries
  rwa [put_self h] at hput

/-- A new key comes last. -/
theorem grows_put_new (h : entries.find? key = none) (d : Draft) :
    Grows entries (entries.put key d) := by
  rw [Entries.put_of_not_mem (Entries.find_eq_none_iff.mp h)]
  exact grows_append entries [(key, d)]

/-- A table begins with another if its entries do. -/
theorem begins_table_iff {origin origin' : Origin} :
    (Draft.table origin entries).toItem.Begins (Draft.table origin' entries').toItem
      ↔ Grows entries entries' := Iff.rfl

/-- Tables of which only the last one differs. -/
theorem begins_tables_iff {before : List (Entries Draft)} :
    (Draft.tables before entries).toItem.Begins (Draft.tables before entries').toItem
      ↔ Grows entries entries' := by
  rw [toItem, toItem, Item.Begins, Item.itemsBegin_append_iff]
  exact and_iff_left trivial

/-- One more table comes last. -/
theorem begins_tables_append (before : List (Entries Draft)) (entries entries' : Entries Draft) :
    (Draft.tables before entries).toItem.Begins
      (Draft.tables (before ++ [entries]) entries').toItem := by
  have hitems : toTables (before ++ [entries])
      = toTables before ++ [.table (toEntries entries)] := by
    simp only [toTables_eq_map, List.map_append, List.map_cons, List.map_nil]
  rw [toItem, toItem, Item.Begins, hitems]
  exact Item.itemsBegin_append _ _

/-! ### Changes of one table

Every line goes down a path of keys and changes the table at its end; on the way, a table that is
not there is made. So what a line does to the whole document is decided by what it does to that
table.
-/

/-- The table that a path leads to, which is empty if nothing is there. In an array of tables it
    is the last one, to which all later lines belong. -/
def tableAt : List String → Entries Draft → Entries Draft
  | [], entries => entries
  | key :: path, entries =>
    match entries.find? key with
    | some (.table _ inner) => tableAt path inner
    | some (.tables _ last) => tableAt path last
    | _ => []

/-- Nothing is in an empty table. -/
theorem tableAt_nil (path : List String) : tableAt path [] = [] := by
  cases path <;> rfl

/-- What a path leads to in a table is a table. -/
theorem tableAt_isTable (h : IsTable entries) (path : List String) :
    IsTable (tableAt path entries) := by
  induction path generalizing entries with
  | nil => exact h
  | cons key path ih =>
    rw [tableAt]
    split
    · next hfind => exact ih (h.find hfind)
    · next hfind => exact ih (wellFormed_tables.mp (h.find hfind)).2
    · exact isTable_nil

/-- **A change of a table within a table** adds to the whole exactly if it adds to the part. The
    induction is on the path; at each key all other entries stay as they are. -/
theorem modifyAt_grows_iff {made : Origin} {change : Change} {path : List String} {origin : Origin}
    (h : modifyAt made change path origin entries = .ok entries') :
    ∃ origin' changed, change origin' (tableAt path entries) = .ok changed
      ∧ (Grows entries entries' ↔ Grows (tableAt path entries) changed) := by
  induction path generalizing origin entries entries' with
  | nil => exact ⟨origin, entries', h, Iff.rfl⟩
  | cons key path ih =>
    -- what stands under the key: nothing yet, a table, an array of tables, or a closed value
    rw [modifyAt] at h
    split at h
    · next hfind =>
      obtain ⟨inner, hinner, heq⟩ := bind_eq_ok_iff.mp h
      cases heq
      obtain ⟨origin', changed, hchanged, -⟩ := ih hinner
      have hnone : tableAt (key :: path) entries = [] := by rw [tableAt, hfind]
      rw [tableAt_nil] at hchanged
      rw [hnone]
      exact ⟨origin', changed, hchanged, iff_of_true (grows_put_new hfind _) (grows_nil _)⟩
    · next origin inner hfind =>
      split at h
      · cases h
      · obtain ⟨inner', hinner, heq⟩ := bind_eq_ok_iff.mp h
        cases heq
        have hpart : tableAt (key :: path) entries = tableAt path inner := by rw [tableAt, hfind]
        rw [hpart, grows_put_iff hfind, begins_table_iff]
        exact ih hinner
    · next before last hfind =>
      obtain ⟨last', hlast, heq⟩ := bind_eq_ok_iff.mp h
      cases heq
      have hpart : tableAt (key :: path) entries = tableAt path last := by rw [tableAt, hfind]
      rw [hpart, grows_put_iff hfind, begins_tables_iff]
      exact ih hlast
    · cases h

/-- **A change that does less** at one table does less to the whole. If the larger change is
    possible, so is the smaller one, on the same path. -/
theorem modifyAt_grows_of_less {made : Origin} {change less : Change}
    (hless : ∀ {origin entries entries'}, change origin entries = .ok entries' →
      ∃ fewer, less origin entries = .ok fewer ∧ Grows fewer entries')
    {path : List String} {origin : Origin}
    (h : modifyAt made change path origin entries = .ok entries') :
    ∃ fewer, modifyAt made less path origin entries = .ok fewer ∧ Grows fewer entries' := by
  induction path generalizing origin entries entries' with
  | nil => exact hless h
  | cons key path ih =>
    -- the same four cases; under the key there is less, and all else is the same
    rw [modifyAt] at h
    rw [modifyAt]
    split at h
    · obtain ⟨inner, hinner, heq⟩ := bind_eq_ok_iff.mp h
      cases heq
      obtain ⟨fewer, hfewer, hgrows⟩ := ih hinner
      simp only [hfewer, ok_bind]
      exact ⟨_, rfl, (grows_put_put_iff key entries).mpr (begins_table_iff.mpr hgrows)⟩
    · next origin inner hfind =>
      split at h
      · cases h
      · next hopen =>
        obtain ⟨inner', hinner, heq⟩ := bind_eq_ok_iff.mp h
        cases heq
        obtain ⟨fewer, hfewer, hgrows⟩ := ih hinner
        simp only [if_neg hopen, hfewer, ok_bind]
        exact ⟨_, rfl, (grows_put_put_iff key entries).mpr (begins_table_iff.mpr hgrows)⟩
    · obtain ⟨last', hlast, heq⟩ := bind_eq_ok_iff.mp h
      cases heq
      obtain ⟨fewer, hfewer, hgrows⟩ := ih hlast
      simp only [hfewer, ok_bind]
      exact ⟨_, rfl, (grows_put_put_iff key entries).mpr (begins_tables_iff.mpr hgrows)⟩
    · cases h

/-! ### Lines and headers

There are three changes: a line puts a key, a header `[[key]]` puts one more table in an array, and
a header `[key]` puts a table. Only the last one can take something out, and only if it was made by
longer headers before.
-/

/-- A line `path.key = value` adds its keys: the last one is new, and those before it are new or
    lead into a table that is open. -/
theorem define_grows {path : List String} {item : Item}
    (h : define path key item entries = .ok entries') : Grows entries entries' := by
  obtain ⟨origin, changed, hchanged, hiff⟩ := modifyAt_grows_iff h
  apply hiff.mpr
  split at hchanged
  · cases hchanged
  · -- at its table the line puts a key that is new
    rw [addNew] at hchanged
    split at hchanged
    · cases hchanged
    · next hnew =>
      cases hchanged
      exact grows_put_new (by simpa using hnew) _

/-- A table of an array is added after the others. -/
theorem appendTable_grows {path : List String}
    {fill : Entries Draft → Except Fault (Entries Draft)}
    (h : appendTable path key fill entries = .ok entries') : Grows entries entries' := by
  obtain ⟨origin, changed, hchanged, hiff⟩ := modifyAt_grows_iff h
  apply hiff.mpr
  obtain ⟨own, -, hchanged⟩ := bind_eq_ok_iff.mp hchanged
  split at hchanged
  · next hfind =>
    cases hchanged
    exact grows_put_new hfind _
  · -- one more table for an array that is there
    next before last hfind =>
    cases hchanged
    exact (grows_put_iff hfind).mpr (begins_tables_append before last own)
  · cases hchanged

/-- What is taken out from the end of a table leaves the others as they are. -/
theorem takeOut_concat (h : key ∉ Entries.keys entries) (d : Draft) :
    takeOut key (entries ++ [(key, d)]) = some (d, entries) := by
  induction entries with
  | nil => simp [takeOut]
  | cons e entries ih =>
    obtain ⟨k, draft⟩ := e
    have hk : k ≠ key := fun heq => h (heq ▸ List.mem_cons_self)
    rw [List.cons_append, takeOut, if_neg hk, ih fun hmem => h (List.mem_cons_of_mem k hmem)]
    rfl

/-- **The table of a header** is added after the others, unless it is there already and others
    follow it. Then it is taken out and put last, and a key that stood behind it stands before it
    now. -/
theorem closeTable_grows_iff (htable : IsTable entries) {path : List String}
    {fill : Entries Draft → Except Fault (Entries Draft)}
    (hfill : ∀ {own own'}, fill own = .ok own' → Grows own own')
    (h : closeTable path key fill entries = .ok entries') :
    Grows entries entries' ↔ key ∉ Entries.keys (tableAt path entries).dropLast := by
  obtain ⟨origin, changed, hchanged, hiff⟩ := modifyAt_grows_iff h
  have hparent := (isTable_iff.mp (tableAt_isTable htable path)).1
  rw [hiff]
  generalize tableAt path entries = parent at hchanged hparent ⊢
  split at hchanged
  · -- the table is new
    next hnone =>
    obtain ⟨own, -, heq⟩ := bind_eq_ok_iff.mp hchanged
    cases heq
    refine iff_of_true (grows_append parent _) fun hmem => takeOut_eq_none_iff.mp hnone ?_
    exact ((List.dropLast_prefix parent).map Prod.fst).subset hmem
  · -- the table is there already, and is taken out of the others
    next kept others hsome =>
    obtain ⟨own, hown, heq⟩ := bind_eq_ok_iff.mp hchanged
    cases heq
    have hperm := perm_of_takeOut hsome
    obtain ⟨hkey, -⟩ := List.nodup_cons.mp ((hperm.map Prod.fst).nodup_iff.mp hparent)
    constructor
    · -- as many keys as before, and they begin with those: the last one is that of the header
      intro hgrows
      have hbegins := Item.keys_begin hgrows
      rw [keys_toEntries, keys_toEntries] at hbegins
      have hlength : (Entries.keys parent).length
          = (Entries.keys (others ++ [(key, .table .header own)])).length := by
        simp [Entries.keys, hperm.length_eq]
      have hkeys : Entries.keys parent.dropLast = Entries.keys others := by
        rw [Entries.keys, List.map_dropLast]
        show (Entries.keys parent).dropLast = _
        rw [hbegins.eq_of_length hlength]
        simp [Entries.keys]
      rwa [hkeys]
    · -- the last entry is the one under the key, because no other one is
      intro hnot
      have hmem : key ∈ Entries.keys parent := (hperm.map Prod.fst).mem_iff.mpr List.mem_cons_self
      obtain ⟨init, ⟨k, draft⟩, rfl⟩ := (List.eq_nil_or_concat parent).resolve_left
        fun hnil => by rw [hnil] at hmem; cases hmem
      rw [List.concat_eq_append] at *
      rw [List.dropLast_concat] at hnot
      obtain rfl : k = key := by
        rw [Entries.keys, List.map_append, List.mem_append] at hmem
        exact (List.mem_singleton.mp (hmem.resolve_left hnot)).symm
      rw [takeOut_concat hnot] at hsome
      cases hsome
      exact grows_concat_iff.mpr (begins_table_iff.mpr (hfill hown))
  · cases hchanged

end Draft

/-! ### Sections

The lines of a section are put one after the other, so each adds to the table of those before it.
-/

open Draft (Grows)

variable {root root' : Entries Draft}

/-- The lines of a section add their keys. -/
theorem fill_grows {lines : List (Key × Item)} (h : fill lines root = .ok root') :
    Grows root root' := by
  induction lines generalizing root with
  | nil =>
    cases h
    exact .refl _
  | cons e lines ih =>
    rw [fill, List.foldlM_cons] at h
    obtain ⟨defined, hdefine, hrest⟩ := bind_eq_ok_iff.mp h
    exact (Draft.define_grows hdefine).trans (ih hrest)

/-- Fewer lines of a section do less, and are possible whenever all of them are. -/
theorem fill_less {lines more : List (Key × Item)} (h : fill (lines ++ more) root = .ok root') :
    ∃ fewer, fill lines root = .ok fewer ∧ Grows fewer root' := by
  rw [fill, List.foldlM_append] at h
  obtain ⟨fewer, hfewer, hmore⟩ := bind_eq_ok_iff.mp h
  exact ⟨fewer, hfewer, fill_grows hmore⟩

/-! ### Inline tables

The reader of an inline table adds each entry to the table as soon as it has read it. Here the two
are taken apart: the entries are read first, in the order of the text, and fill the table then, as
the lines of a section do. -/

/-- Reads the entries of an inline table and its closing brace, and gives them as they stand. -/
def readPairs : (fuel depth : Nat) → List Char → Except Fault (List (Key × Item) × List Char)
  | 0, _, _ => .error .unexpected
  | fuel + 1, depth, s => do
    match ← skipSpace s with
    | '}' :: rest => return ([], rest)
    | s =>
      let (key, s) ← readKeyAndSign s
      let (item, s) ← readValue fuel depth s
      match ← skipSpace s with
      | '}' :: rest => return ([(key, item)], rest)
      | ',' :: rest =>
        let (pairs, rest) ← readPairs fuel depth rest
        return ((key, item) :: pairs, rest)
      | _ => throw .unexpected

/-- **An inline table is what its entries fill it with**, one after the other. -/
theorem readEntries_fill {fuel depth : Nat} {s rest : List Char}
    (h : readEntries fuel depth root s = .ok (root', rest)) :
    ∃ pairs, readPairs fuel depth s = .ok (pairs, rest) ∧ fill pairs root = .ok root' := by
  induction fuel generalizing root s with
  | zero => cases h
  | succ fuel ih =>
    rw [readEntries] at h
    rw [readPairs]
    obtain ⟨ahead, hahead, h⟩ := bind_eq_ok_iff.mp h
    rw [hahead, ok_bind]
    split at h
    · cases h
      exact ⟨[], rfl, rfl⟩
    · obtain ⟨⟨key, left⟩, hkey, h⟩ := bind_eq_ok_iff.mp h
      obtain ⟨⟨item, left'⟩, hitem, h⟩ := bind_eq_ok_iff.mp h
      obtain ⟨defined, hdefine, h⟩ := bind_eq_ok_iff.mp h
      obtain ⟨after, hafter, h⟩ := bind_eq_ok_iff.mp h
      simp only [hkey, hitem, hafter, ok_bind]
      -- this entry is the first to fill the table, and the others do so after it
      have hfirst {pairs : List (Key × Item)} (hrest : fill pairs defined = .ok root') :
          fill ((key, item) :: pairs) root = .ok root' := by
        rw [fill, List.foldlM_cons]
        exact bind_eq_ok_iff.mpr ⟨defined, hdefine, hrest⟩
      split at h
      · cases h
        exact ⟨[(key, item)], rfl, hfirst rfl⟩
      · obtain ⟨pairs, hpairs, hfill⟩ := ih h
        refine ⟨(key, item) :: pairs, ?_, hfirst hfill⟩
        show (readPairs fuel depth _ >>= _) = _
        rw [hpairs]
        rfl
      · cases h

/-- **The keys of an inline table** stand in the order of the text: its first entries alone define
    how it begins. -/
theorem readEntries_in_order {fuel depth : Nat} {s rest : List Char} {root : Entries Draft}
    (h : readEntries fuel depth [] s = .ok (root, rest)) :
    ∃ pairs, readPairs fuel depth s = .ok (pairs, rest) ∧ fill pairs [] = .ok root
      ∧ ∀ before, before <+: pairs → ∃ first, fill before [] = .ok first ∧ Grows first root := by
  obtain ⟨pairs, hpairs, hfill⟩ := readEntries_fill h
  refine ⟨pairs, hpairs, hfill, ?_⟩
  rintro before ⟨after, rfl⟩
  exact fill_less hfill

/-! ### Sections with fewer lines

A section is read as a whole and then put into its table. To speak of lines, it is compared with
the same section without its last ones: the change is the same one, of a table with less in it.
-/

/-- A section with fewer lines does less, under either kind of header. -/
theorem addSection_less {header : Header} {lines more : List (Key × Item)}
    (h : addSection root header (lines ++ more) = .ok root') :
    ∃ fewer, addSection root header lines = .ok fewer ∧ Grows fewer root' := by
  cases header with
  | table key =>
    refine Draft.modifyAt_grows_of_less (fun {origin parent parent'} hparent => ?_) h
    -- whether the table is new or was taken out, it is the last entry now
    split at hparent
    · obtain ⟨own, hown, heq⟩ := bind_eq_ok_iff.mp hparent
      cases heq
      obtain ⟨fewer, hfewer, hgrows⟩ := fill_less hown
      simp only [hfewer, ok_bind]
      exact ⟨_, rfl, Draft.grows_concat_iff.mpr (Draft.begins_table_iff.mpr hgrows)⟩
    · obtain ⟨own, hown, heq⟩ := bind_eq_ok_iff.mp hparent
      cases heq
      obtain ⟨fewer, hfewer, hgrows⟩ := fill_less hown
      simp only [hfewer, ok_bind]
      exact ⟨_, rfl, Draft.grows_concat_iff.mpr (Draft.begins_table_iff.mpr hgrows)⟩
    · cases hparent
  | tables key =>
    refine Draft.modifyAt_grows_of_less (fun {origin parent parent'} hparent => ?_) h
    obtain ⟨own, hown, hparent⟩ := bind_eq_ok_iff.mp hparent
    obtain ⟨fewer, hfewer, hgrows⟩ := fill_less hown
    simp only [hfewer, ok_bind]
    split at hparent
    · cases hparent
      refine ⟨_, rfl, (Draft.grows_put_put_iff _ _).mpr ?_⟩
      exact Draft.begins_tables_iff.mpr hgrows
    · cases hparent
      refine ⟨_, rfl, (Draft.grows_put_put_iff _ _).mpr ?_⟩
      exact Draft.begins_tables_iff.mpr hgrows
    · cases hparent

/-! ### A document line by line

The reader cuts a document into sections. Here the same document is read line by line, with the
section that is not over kept aside; so "the first lines of a document" are a document, and what
one more line does can be said.
-/

/-- A document while its lines are read: the table of the sections that are over, and the
    section that is not, which has no header before the first one. -/
structure Assembly where
  root : Entries Draft
  header? : Option Header
  lines : List (Key × Item)

namespace Assembly

/-- No line has been read. -/
def start : Assembly := ⟨[], none, []⟩

/-- The table of the lines so far: those of the sections that are over, and then those of this
    one. -/
def close (a : Assembly) : Except Fault (Entries Draft) :=
  match a.header? with
  | none => fill a.lines a.root
  | some header => addSection a.root header a.lines

/-- The next line: an entry of the section, or the header of another one. -/
def step (a : Assembly) : Line → Except Fault Assembly
  | .entry key item => .ok { a with lines := a.lines ++ [(key, item)] }
  | .header header => a.close.map fun root => ⟨root, some header, []⟩

/-- A table of fewer lines does less. -/
theorem close_less {a : Assembly} {key : Key} {item : Item}
    (h : close { a with lines := a.lines ++ [(key, item)] } = .ok root') :
    ∃ root, a.close = .ok root ∧ Grows root root' := by
  obtain ⟨before, header?, lines⟩ := a
  cases header? with
  | none => exact fill_less h
  | some header => exact addSection_less h

end Assembly

/-- The lines from the next header on are no more than all, which bounds the fuel for the
    sections after this one. -/
theorem length_leadingEntries (lines : List Line) :
    (leadingEntries lines).2.length ≤ lines.length := by
  induction lines with
  | nil => exact Nat.le_refl 0
  | cons line lines ih =>
    cases line with
    | header header => exact Nat.le_refl _
    | entry key item => exact Nat.le_succ_of_le ih

/-- Sections after a section that is not over: lines one by one give what the rest of that
    section and the sections after it do. -/
theorem foldlM_step (a : Assembly) (lines : List Line) {fuel : Nat}
    (hfuel : (leadingEntries lines).2.length < fuel) :
    (lines.foldlM Assembly.step a >>= Assembly.close)
      = Assembly.close { a with lines := a.lines ++ (leadingEntries lines).1 } >>= fun root =>
        addSections fuel root (leadingEntries lines).2 := by
  induction lines generalizing a fuel with
  | nil =>
    obtain ⟨fuel, rfl⟩ := Nat.exists_eq_add_one.mpr (Nat.zero_lt_of_lt hfuel)
    show a.close = Assembly.close { a with lines := a.lines ++ [] } >>= fun root => .ok root
    rw [List.append_nil]
    cases a.close <;> rfl
  | cons line lines ih =>
    cases line with
    | entry key item =>
      rw [List.foldlM_cons, Assembly.step, ok_bind, ih _ hfuel, List.append_assoc]
      rfl
    | header header =>
      -- the header closes the section, and the fuel that is left is enough for those after it
      obtain ⟨fuel, rfl⟩ := Nat.exists_eq_add_one.mpr (Nat.zero_lt_of_lt hfuel)
      have hlength : (leadingEntries lines).2.length < fuel :=
        Nat.lt_of_le_of_lt (length_leadingEntries lines) (Nat.lt_of_succ_lt_succ hfuel)
      have hleading : leadingEntries (.header header :: lines) = ([], .header header :: lines) :=
        rfl
      rw [List.foldlM_cons, Assembly.step, hleading, List.append_nil]
      cases a.close with
      | error e => rfl
      | ok root => exact ih ⟨root, some header, []⟩ hlength

/-- **Lines one by one** define the table that sections do. -/
theorem assemble_eq_foldlM (lines : List Line) :
    assemble lines = lines.foldlM Assembly.step .start >>= Assembly.close :=
  (foldlM_step .start lines (Nat.lt_succ_self _)).symm

/-! ### What a line adds -/

/-- Whether a line is the header of a table that is there already and that others follow. -/
def Displaces (root : Entries Draft) : Line → Prop
  | .header (.table key) => key.name ∈ Entries.keys (Draft.tableAt key.path root).dropLast
  | .header (.tables _) => False
  | .entry _ _ => False

/-- **One line adds to the table** of the lines before it, exactly if it does not take out
    something that others follow. -/
theorem assemble_step {lines : List Line} {line : Line} (hlines : ∀ l ∈ lines, l.WellFormed)
    (h : assemble (lines ++ [line]) = .ok root') :
    ∃ root, assemble lines = .ok root ∧ (Grows root root' ↔ ¬ Displaces root line) := by
  rw [assemble_eq_foldlM, List.foldlM_append] at h
  obtain ⟨a', ha', hclose⟩ := bind_eq_ok_iff.mp h
  obtain ⟨a, ha, hstep⟩ := bind_eq_ok_iff.mp ha'
  have hassemble : assemble lines = a.close := by
    rw [assemble_eq_foldlM, ha]
    rfl
  rw [List.foldlM_cons] at hstep
  obtain ⟨next, hnext, heq⟩ := bind_eq_ok_iff.mp hstep
  cases heq
  rw [hassemble]
  cases line with
  -- an entry is one more line of the section that is not over
  | entry key item =>
    cases hnext
    obtain ⟨root, hroot, hgrows⟩ := Assembly.close_less hclose
    exact ⟨root, hroot, iff_of_true hgrows not_false⟩
  -- a header is that of a section without lines
  | header header =>
    obtain ⟨root, hroot, heq⟩ := map_eq_ok_iff.mp hnext
    cases heq
    refine ⟨root, hroot, ?_⟩
    have htable : Draft.IsTable root := assemble_isTable hlines (hassemble.trans hroot)
    cases header with
    | table key => exact Draft.closeTable_grows_iff htable fill_grows hclose
    | tables key => exact iff_of_true (Draft.appendTable_grows hclose) not_false

/-- The first lines of a document define a table, if all of them do. The lines after them are
    taken away one by one from the end. -/
theorem assemble_prefix {before lines : List Line} (hlines : ∀ l ∈ lines, l.WellFormed)
    (hbefore : before <+: lines) (h : assemble lines = .ok root) :
    ∃ first, assemble before = .ok first := by
  obtain ⟨after, rfl⟩ := hbefore
  induction after using List.reverseRecOn generalizing root with
  | nil => exact ⟨root, by rwa [List.append_nil] at h⟩
  | append_singleton after line ih =>
    rw [← List.append_assoc] at h hlines
    have hrest : ∀ l ∈ before ++ after, l.WellFormed := fun l hl =>
      hlines l (List.mem_append_left _ hl)
    obtain ⟨shorter, hshorter, -⟩ := assemble_step hrest h
    exact ih hrest hshorter

/-! ### Lines in order

Line after line the table begins with what it was, unless a header takes out a table that others
follow. Put together over all lines this is an exact condition on the document.
-/

/-- Whether each line in turn adds to the table of the lines before it. -/
def InOrder (lines : List Line) : Prop :=
  ∀ before line, before ++ [line] <+: lines → ∃ root root', assemble before = .ok root
    ∧ assemble (before ++ [line]) = .ok root' ∧ Grows root root'

/-- Whether a header among the lines takes out a table that others follow. -/
def Reopens (lines : List Line) : Prop :=
  ∃ before line root, before ++ [line] <+: lines ∧ assemble before = .ok root
    ∧ Displaces root line

/-- **Lines that define a table** are in order exactly if no header among them takes out a table
    that others follow. -/
theorem inOrder_iff {lines : List Line} (hlines : ∀ l ∈ lines, l.WellFormed)
    (h : assemble lines = .ok root) : InOrder lines ↔ ¬ Reopens lines := by
  have hwell {before : List Line} {line : Line} (hbefore : before ++ [line] <+: lines) :
      ∀ l ∈ before, l.WellFormed := fun l hl =>
    hlines l (hbefore.subset (List.mem_append_left _ hl))
  -- both directions by what one line does
  constructor
  · rintro horder ⟨before, line, root, hbefore, hroot, hdisplaces⟩
    obtain ⟨first, next, hfirst, hnext, hgrows⟩ := horder before line hbefore
    obtain ⟨first', hfirst', hiff⟩ := assemble_step (hwell hbefore) hnext
    cases hfirst.symm.trans hfirst'
    cases hfirst.symm.trans hroot
    exact hiff.mp hgrows hdisplaces
  · intro hkept before line hbefore
    obtain ⟨next, hnext⟩ := assemble_prefix hlines hbefore h
    obtain ⟨first, hfirst, hiff⟩ := assemble_step (hwell hbefore) hnext
    refine ⟨first, next, hfirst, hnext, hiff.mpr fun hdisplaces => hkept ?_⟩
    exact ⟨before, line, first, hbefore, hfirst, hdisplaces⟩

/-- **The table of all lines begins with that of the first ones**, if they are in order. -/
theorem InOrder.grows {before lines : List Line} (horder : InOrder lines)
    (hbefore : before <+: lines) (h : assemble lines = .ok root') :
    ∃ root, assemble before = .ok root ∧ Grows root root' := by
  obtain ⟨after, rfl⟩ := hbefore
  -- line by line from the end
  induction after using List.reverseRecOn generalizing root' with
  | nil => exact ⟨root', by rwa [List.append_nil] at h, .refl root'⟩
  | append_singleton after line ih =>
    rw [← List.append_assoc] at h horder
    obtain ⟨root, next, hroot, hnext, hgrows⟩ := horder _ line List.prefix_rfl
    cases hnext.symm.trans h
    have hshorter : InOrder (before ++ after) := fun before' line' hbegins =>
      horder before' line' (hbegins.trans (List.prefix_append _ _))
    obtain ⟨first, hfirst, hgrows'⟩ := ih hshorter hroot
    exact ⟨first, hfirst, hgrows'.trans hgrows⟩

/-! ### Texts

Between the table of the lines and the value there is one more step, in which a table that stands
for a date-time is replaced. A value cannot hold one, so in a document that has a value nothing was
replaced.
-/

mutual

/-- What stands for a date-time cannot be held, so a tree that is held has nothing of the kind,
    and is what it was before such tables were replaced. -/
theorem eq_of_reviveNested : ∀ {item item' : Item} {v : Value}, item.reviveNested = .ok item' →
    Holds item' v → item' = item
  | .string _, _, _, h, _ | .integer _, _, _, h, _ | .float _, _, _, h, _ | .boolean _, _, _, h, _
  | .dateTime _, _, _, h, _ => by
    cases h
    rfl
  | .array items, _, _, h, hholds => by
    obtain ⟨revived, hrevived, heq⟩ := map_eq_ok_iff.mp h
    cases heq
    cases hholds with
    | array hitems => rw [eq_of_reviveItems hrevived hitems]
  | .table [], _, _, h, _ => by
    cases h
    rfl
  | .table ((key, item) :: entries), _, _, h, hholds => by
    rw [Item.reviveNested] at h
    split at h
    · -- a table that spells a date-time becomes one
      unfold Item.spelledDateTime at h
      split at h
      · split at h
        · cases h
          cases hholds
        · cases h
      · cases h
    · obtain ⟨revived, hrevived, h⟩ := bind_eq_ok_iff.mp h
      obtain ⟨others, hothers, heq⟩ := bind_eq_ok_iff.mp h
      cases heq
      cases hholds with
      | table hkeys hvalues =>
        obtain ⟨v, values, hv, hrest, -⟩ := List.forall₂_cons_left_iff.mp hvalues
        rw [eq_of_reviveNested hrevived hv, eq_of_reviveEntries hothers hrest]

/-- Items that are held are what they were before tables for date-times were replaced in them. -/
theorem eq_of_reviveItems : ∀ {items items' : List Item} {values : List Value},
    Item.reviveItems items = .ok items' → List.Forall₂ Holds items' values → items' = items
  | [], _, _, h, _ => by
    cases h
    rfl
  | item :: items, _, _, h, hholds => by
    obtain ⟨revived, hrevived, h⟩ := bind_eq_ok_iff.mp h
    obtain ⟨others, hothers, heq⟩ := bind_eq_ok_iff.mp h
    cases heq
    obtain ⟨v, values, hv, hrest, -⟩ := List.forall₂_cons_left_iff.mp hholds
    rw [eq_of_reviveNested hrevived hv, eq_of_reviveItems hothers hrest]

/-- Entries that are held are what they were before tables for date-times were replaced in them. -/
theorem eq_of_reviveEntries : ∀ {entries entries' : List (String × Item)} {values : List Value},
    Item.reviveEntries entries = .ok entries' →
    List.Forall₂ Holds (entries'.map Prod.snd) values → entries' = entries
  | [], _, _, h, _ => by
    cases h
    rfl
  | (key, item) :: entries, _, _, h, hholds => by
    obtain ⟨revived, hrevived, h⟩ := bind_eq_ok_iff.mp h
    obtain ⟨others, hothers, heq⟩ := bind_eq_ok_iff.mp h
    cases heq
    obtain ⟨v, values, hv, hrest, -⟩ := List.forall₂_cons_left_iff.mp hholds
    rw [eq_of_reviveNested hrevived hv, eq_of_reviveEntries hothers hrest]

end

/-- Whether lines are those of a text, and define a table. -/
def Defines (text : String) (lines : List Line) (root : Entries Draft) : Prop :=
  readLines ((dropByteOrderMark text.toList).length + 1) (dropByteOrderMark text.toList) = .ok lines
    ∧ assemble lines = .ok root

/-- **A text that is read** is the table that its lines define. If they are in order, the first of
    them define how it begins, at every depth. -/
theorem parse_defines {text : String} {v : Value} (h : parse text = .ok v) :
    ∃ lines root, Defines text lines root ∧ Holds (.table (Draft.toEntries root)) v
      ∧ (InOrder lines ↔ ¬ Reopens lines)
      ∧ (InOrder lines → ∀ before, before <+: lines →
        ∃ first, assemble before = .ok first ∧ Grows first root) := by
  obtain ⟨table, htable, hholds⟩ := parse_holds h
  obtain ⟨lines, hlines, htable⟩ := bind_eq_ok_iff.mp htable
  obtain ⟨root, hroot, hrevived⟩ := bind_eq_ok_iff.mp htable
  refine ⟨lines, root, ⟨hlines, hroot⟩, ?_, inOrder_iff (readLines_wellFormed hlines) hroot,
    fun horder _ hbefore => horder.grows hbefore hroot⟩
  have heq : table = Draft.toEntries root := by
    cases hholds with
    | table hkeys hvalues => exact eq_of_reviveEntries hrevived hvalues
  rwa [heq] at hholds

-- the header `[a]` takes out the table that `[a.b]` made, so `a` is read after `c`
example : parse "[a.b]\nx = 1\n[c]\n[a]\ny = 2\n" = .ok (.object [("c", .object []),
    ("a", .object [("b", .object [("x", .number (.int 1))]), ("y", .number (.int 2))])]) := by
  decide +kernel

end SchemaEmbed.Toml
