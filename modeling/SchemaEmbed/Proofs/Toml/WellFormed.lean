import SchemaEmbed.Proofs.Toml.Draft
import SchemaEmbed.Toml.Document

namespace SchemaEmbed.Toml

/-!
# What tables are read from TOML

Whatever the text, the table that is read from it is a table with different keys at every depth.
Nothing in the reader checks this at the end; it is due to the ways in which lines can define and
extend tables.

* `readValue_wellFormed` — **every value** that is read is well-formed, with inline tables that are
  defined entry by entry;
* `readLines_wellFormed` — so are the values of all lines;
* `assemble_isTable` — **sections** define a table, one after the other;
* `reviveEntries_wellFormed` — it stays one when date-times take the place of tables;
* `readTable_wellFormed` — so the table of a text is well-formed.
-/

/-! ### Values

Values are read with fuel and a depth, and neither matters here. An inline table is defined entry
by entry, so what is needed of it is that `define` keeps a table one.
-/

/-- An integer that is read has 64 bits with its sign, or it would have been refused. -/
theorem readInteger?_range {s : List Char} {i : Int} (h : readInteger? s = some i) :
    Number.minInt ≤ i ∧ i ≤ maxInteger := by
  obtain ⟨j, -, hj⟩ := Option.bind_eq_some_iff.mp h
  split at hj
  · next hrange => cases hj; exact hrange
  · cases hj

/-- A value without quotes is well-formed: an integer has been checked, and all else is no
    container. -/
theorem readBare_wellFormed {s : List Char} {item : Item} (h : readBare s = .ok item) :
    item.WellFormed := by
  unfold readBare at h
  split at h
  · cases h; trivial
  · split at h
    · cases h; trivial
    · split at h
      · next hi => cases h; exact readInteger?_range hi
      · cases h; trivial
      · cases h; trivial
      · cases h

mutual

-- The cases of `readValue` are, in their order: an array, an inline table, and a string or a value
-- without quotes.

/-- **Every value that is read** is well-formed. The recursion is that of the reader, by its
    fuel. -/
theorem readValue_wellFormed : ∀ {fuel depth : Nat} {s : List Char} {item : Item}
    {rest : List Char}, readValue fuel depth s = .ok (item, rest) → item.WellFormed
  | 0, _, _, _, _, h => by cases h
  | fuel + 1, depth, s, item, rest, h => by
    unfold readValue at h
    split at h
    case h_1 =>
      cases depth with
      | zero => cases h
      | succ depth =>
        obtain ⟨⟨items, left⟩, hitems, heq⟩ := bind_eq_ok_iff.mp h
        cases heq
        exact allWellFormed_iff.mpr (readItems_wellFormed hitems)
    case h_2 =>
      cases depth with
      | zero => cases h
      | succ depth =>
        obtain ⟨⟨entries, left⟩, hentries, heq⟩ := bind_eq_ok_iff.mp h
        cases heq
        exact readEntries_isTable Draft.isTable_nil hentries
    case h_3 =>
      split at h
      · obtain ⟨⟨text, left⟩, -, heq⟩ := map_eq_ok_iff.mp h
        cases heq
        trivial
      · obtain ⟨bare, hbare, heq⟩ := map_eq_ok_iff.mp h
        cases heq
        exact readBare_wellFormed hbare

/-- Every item of an array that is read is well-formed. -/
theorem readItems_wellFormed : ∀ {fuel depth : Nat} {s : List Char} {items : List Item}
    {rest : List Char}, readItems fuel depth s = .ok (items, rest) →
    ∀ item ∈ items, item.WellFormed
  | 0, _, _, _, _, h => by cases h
  | fuel + 1, depth, s, items, rest, h => by
    rw [readItems] at h
    obtain ⟨ahead, -, h⟩ := bind_eq_ok_iff.mp h
    split at h
    · cases h
      simp
    · obtain ⟨⟨item, left⟩, hitem, h⟩ := bind_eq_ok_iff.mp h
      obtain ⟨after, -, h⟩ := bind_eq_ok_iff.mp h
      split at h
      · cases h
        simpa using readValue_wellFormed hitem
      · obtain ⟨⟨others, left'⟩, hothers, h⟩ := bind_eq_ok_iff.mp h
        cases h
        exact List.forall_mem_cons.mpr ⟨readValue_wellFormed hitem, readItems_wellFormed hothers⟩
      · cases h

/-- The entries of an inline table are a table if those before them are: each of them is defined
    in what the others have made. -/
theorem readEntries_isTable : ∀ {fuel depth : Nat} {entries : Entries Draft} {s : List Char}
    {entries' : Entries Draft} {rest : List Char}, Draft.IsTable entries →
    readEntries fuel depth entries s = .ok (entries', rest) → Draft.IsTable entries'
  | 0, _, _, _, _, _, _, h => by cases h
  | fuel + 1, depth, entries, s, entries', rest, hentries, h => by
    rw [readEntries] at h
    obtain ⟨ahead, -, h⟩ := bind_eq_ok_iff.mp h
    split at h
    · cases h
      exact hentries
    · obtain ⟨⟨key, left⟩, -, h⟩ := bind_eq_ok_iff.mp h
      obtain ⟨⟨item, left'⟩, hitem, h⟩ := bind_eq_ok_iff.mp h
      obtain ⟨defined, hdefine, h⟩ := bind_eq_ok_iff.mp h
      have hdefined := Draft.define_isTable (readValue_wellFormed hitem) hentries hdefine
      obtain ⟨after, -, h⟩ := bind_eq_ok_iff.mp h
      split at h
      · cases h
        exact hdefined
      · exact readEntries_isTable hdefined h
      · cases h

end

/-! ### Lines

The lines of a text are read first, and only then do they define a table. Both steps are followed:
a line is well-formed if its value is, and well-formed lines keep a table one.
-/

/-- Whether the value of a line is well-formed, if it is an entry. -/
def Line.WellFormed : Line → Prop
  | .header _ => True
  | .entry _ item => item.WellFormed

/-- A line that is read is well-formed: a header, or an entry with such a value. There are two
    kinds of headers, and a text without a line. -/
theorem readLine_wellFormed {s : List Char} {line : Line} {rest : List Char}
    (h : readLine s = .ok (some (line, rest))) : line.WellFormed := by
  unfold readLine at h
  obtain ⟨ahead, -, h⟩ := bind_eq_ok_iff.mp h
  split at h
  · cases h
  · obtain ⟨⟨key, left⟩, -, h⟩ := bind_eq_ok_iff.mp h
    dsimp only at h
    split at h
    · obtain ⟨after, -, heq⟩ := bind_eq_ok_iff.mp h
      cases heq
      trivial
    · cases h
  · obtain ⟨⟨key, left⟩, -, h⟩ := bind_eq_ok_iff.mp h
    dsimp only at h
    split at h
    · obtain ⟨after, -, heq⟩ := bind_eq_ok_iff.mp h
      cases heq
      trivial
    · cases h
  · obtain ⟨⟨key, left⟩, -, h⟩ := bind_eq_ok_iff.mp h
    obtain ⟨⟨item, left'⟩, hitem, h⟩ := bind_eq_ok_iff.mp h
    obtain ⟨after, -, heq⟩ := bind_eq_ok_iff.mp h
    cases heq
    exact readValue_wellFormed hitem

/-- All lines of a text that is read are well-formed. -/
theorem readLines_wellFormed {fuel : Nat} {s : List Char} {lines : List Line}
    (h : readLines fuel s = .ok lines) : ∀ line ∈ lines, line.WellFormed := by
  induction fuel generalizing s lines with
  | zero => cases h
  | succ fuel ih =>
    rw [readLines] at h
    obtain ⟨next, hnext, h⟩ := bind_eq_ok_iff.mp h
    split at h
    · cases h
      simp
    · obtain ⟨others, hothers, heq⟩ := bind_eq_ok_iff.mp h
      cases heq
      exact List.forall_mem_cons.mpr ⟨readLine_wellFormed hnext, ih hothers⟩

/-- The entries up to the next header are well-formed, and so are the lines from there on. -/
theorem leadingEntries_wellFormed {lines : List Line} (h : ∀ line ∈ lines, line.WellFormed) :
    (∀ e ∈ (leadingEntries lines).1, e.2.WellFormed)
      ∧ ∀ line ∈ (leadingEntries lines).2, line.WellFormed := by
  induction lines with
  | nil => exact ⟨by simp [leadingEntries], by simp [leadingEntries]⟩
  | cons line lines ih =>
    obtain ⟨hline, hlines⟩ := List.forall_mem_cons.mp h
    cases line with
    | header header => exact ⟨by simp [leadingEntries], h⟩
    | entry key item => exact ⟨List.forall_mem_cons.mpr ⟨hline, (ih hlines).1⟩, (ih hlines).2⟩

/-- The entries of a section leave a table, one after the other. -/
theorem fill_isTable {lines : List (Key × Item)} (hlines : ∀ e ∈ lines, e.2.WellFormed)
    {entries entries' : Entries Draft} (h : Draft.IsTable entries)
    (hfill : fill lines entries = .ok entries') : Draft.IsTable entries' := by
  induction lines generalizing entries with
  | nil => cases hfill; exact h
  | cons e lines ih =>
    obtain ⟨he, hlines⟩ := List.forall_mem_cons.mp hlines
    rw [fill, List.foldlM_cons] at hfill
    obtain ⟨defined, hdefine, hrest⟩ := bind_eq_ok_iff.mp hfill
    exact ih hlines (Draft.define_isTable he h hdefine) hrest

/-- Sections leave a table, one after the other. The fuel is for their number. -/
theorem addSections_isTable {fuel : Nat} {root root' : Entries Draft} {lines : List Line}
    (hlines : ∀ line ∈ lines, line.WellFormed) (h : Draft.IsTable root)
    (hadd : addSections fuel root lines = .ok root') : Draft.IsTable root' := by
  induction fuel generalizing root lines with
  | zero => cases hadd
  | succ fuel ih =>
    unfold addSections at hadd
    split at hadd
    · cases hadd
      exact h
    · cases hadd
    · next header rest =>
      -- the entries of this section, and the lines of those after it
      obtain ⟨hentries, hrest⟩ := leadingEntries_wellFormed (List.forall_mem_cons.mp hlines).2
      obtain ⟨added, hadded, hadd⟩ := bind_eq_ok_iff.mp hadd
      refine ih hrest ?_ hadd
      cases header with
      | table key => exact Draft.closeTable_isTable (fill_isTable hentries) h hadded
      | tables key => exact Draft.appendTable_isTable (fill_isTable hentries) h hadded

/-- **Lines** that are well-formed define a table, if they define anything: first those before
    any header, and then section by section. -/
theorem assemble_isTable {lines : List Line} {root : Entries Draft}
    (hlines : ∀ line ∈ lines, line.WellFormed) (h : assemble lines = .ok root) :
    Draft.IsTable root := by
  obtain ⟨hentries, hrest⟩ := leadingEntries_wellFormed hlines
  obtain ⟨filled, hfill, hadd⟩ := bind_eq_ok_iff.mp h
  exact addSections_isTable hrest (fill_isTable hentries Draft.isTable_nil hfill) hadd

/-! ### Tables that stand for date-times

A table with one certain key stands for a date-time. It is replaced where it stands under a key or
in an array, and so keys remain as they are.
-/

mutual

/-- A tree stays well-formed when date-times take the place of tables. A date-time has no keys,
    and any other table keeps those it has. -/
theorem reviveNested_wellFormed : ∀ {item item' : Item}, item.WellFormed →
    item.reviveNested = .ok item' → item'.WellFormed
  | .string _, _, h, heq | .integer _, _, h, heq | .float _, _, h, heq | .boolean _, _, h, heq
  | .dateTime _, _, h, heq => by
    cases heq
    exact h
  | .array items, _, h, heq => by
    obtain ⟨revived, hrevived, heq⟩ := map_eq_ok_iff.mp heq
    cases heq
    exact reviveItems_wellFormed h hrevived
  | .table [], _, h, heq => by
    cases heq
    exact h
  | .table ((key, item) :: entries), _, h, heq => by
    rw [Item.reviveNested] at heq
    split at heq
    · unfold Item.spelledDateTime at heq
      split at heq
      · split at heq
        · cases heq
          trivial
        · cases heq
      · cases heq
    · obtain ⟨revived, hrevived, heq⟩ := bind_eq_ok_iff.mp heq
      obtain ⟨others, hothers, heq⟩ := bind_eq_ok_iff.mp heq
      cases heq
      obtain ⟨hkeys, hentries⟩ := reviveEntries_wellFormed h.2.2 hothers
      -- no key has changed, so they are still different
      have hsame : Entries.keys ((key, revived) :: others)
          = Entries.keys ((key, item) :: entries) :=
        congrArg (key :: ·) hkeys
      exact ⟨hsame ▸ h.1, reviveNested_wellFormed h.2.1 hrevived, hentries⟩

/-- The items of an array stay well-formed when date-times take the place of tables. -/
theorem reviveItems_wellFormed : ∀ {items items' : List Item}, Item.AllWellFormed items →
    Item.reviveItems items = .ok items' → Item.AllWellFormed items'
  | [], _, h, heq => by
    cases heq
    exact h
  | item :: items, _, h, heq => by
    obtain ⟨revived, hrevived, heq⟩ := bind_eq_ok_iff.mp heq
    obtain ⟨others, hothers, heq⟩ := bind_eq_ok_iff.mp heq
    cases heq
    exact ⟨reviveNested_wellFormed h.1 hrevived, reviveItems_wellFormed h.2 hothers⟩

/-- The entries of a table stay well-formed when date-times take the place of tables, and keep
    their keys. -/
theorem reviveEntries_wellFormed : ∀ {entries entries' : List (String × Item)},
    Item.EntriesWellFormed entries → Item.reviveEntries entries = .ok entries' →
    Entries.keys entries' = Entries.keys entries ∧ Item.EntriesWellFormed entries'
  | [], _, h, heq => by
    cases heq
    exact ⟨rfl, h⟩
  | (key, item) :: entries, _, h, heq => by
    obtain ⟨revived, hrevived, heq⟩ := bind_eq_ok_iff.mp heq
    obtain ⟨others, hothers, heq⟩ := bind_eq_ok_iff.mp heq
    cases heq
    obtain ⟨hkeys, hentries⟩ := reviveEntries_wellFormed h.2 hothers
    exact ⟨congrArg (key :: ·) hkeys, reviveNested_wellFormed h.1 hrevived, hentries⟩

end

/-- **The table of a text** is well-formed, at every depth. -/
theorem readTable_wellFormed {text : String} {entries : Entries Item}
    (h : readTable text = .ok entries) : (Item.table entries).WellFormed := by
  obtain ⟨lines, hlines, h⟩ := bind_eq_ok_iff.mp h
  obtain ⟨root, hroot, h⟩ := bind_eq_ok_iff.mp h
  have htable : Draft.IsTable root := assemble_isTable (readLines_wellFormed hlines) hroot
  obtain ⟨hkeys, hentries⟩ := reviveEntries_wellFormed htable.2 h
  exact ⟨hkeys ▸ htable.1, hentries⟩

end SchemaEmbed.Toml
