import SchemaEmbed.Proofs.Toml.Draft
import SchemaEmbed.Proofs.Toml.Section

namespace SchemaEmbed.Toml

/-!
# Sections define the tables that they were written for

The text of a document is a list of sections, and the reader adds them one after the other to what
it has made of those before. A header is a whole path, which is followed from the root each time.
To be able to go through a value table by table, it is shown that a section below a key does to the
root what the section without this key does to the table there.

* `Section.under` — a section one key further down; `sectionsIn_under` says that the sections below
  a key are those of the table there, one key further down;
* `Opens` — the table that the headers under a key extend; `Opens.foldlM` adds sections to it;
* `draftOf` — what the sections of a value define;
* `addAll_sectionsIn` — sections define the tables that they were written for, after whatever their
  parent holds;
* `assemble_lines` — so do all lines of a table.

A table without lines of its own has no header if it has tables in it: it is made by the first
header below it. This is the case that `sectionsIn_ne_nil` is for.
-/

open Value (Every EveryItem EveryEntry IsWellFormed)

/-! ### Sections one key further down

The path of a section only says where it belongs. So it is the first key of the path that can be
taken off, and this says of the writer what `Opens` says of the reader.
-/

/-- A section one key further down. -/
def Section.under (k : String) (x : Section) : Section := { x with path := k :: x.path }

mutual

/-- **The sections under a longer path** are those under the path, one key further down. The path
    is only ever extended at its end, so what stands at its beginning makes no difference. -/
theorem sectionsFor_under (k : String) (path : List String) : ∀ v : Value,
    sectionsFor (k :: path) v = (sectionsFor path v).map (Section.under k)
  | .null => rfl
  | .bool _ => rfl
  | .number _ => rfl
  | .string _ => rfl
  | .array items => by
    rw [sectionsFor, sectionsFor]
    split
    · exact rowsFor_under k path items
    · rfl
  | .object es => by
    rw [sectionsFor, sectionsFor, List.map_append, sectionsIn_under k path es]
    unfold ownSection
    split <;> rfl

/-- The sections below a table whose path is one key longer are the sections below it, one key
    further down. -/
theorem sectionsIn_under (k : String) (path : List String) : ∀ es : List (String × Value),
    sectionsIn (k :: path) es = (sectionsIn path es).map (Section.under k)
  | [] => rfl
  | (l, v) :: rest => by
    rw [sectionsIn, sectionsIn, List.map_append, List.cons_append, sectionsFor_under k _ v,
      sectionsIn_under k path rest]

/-- The sections of the tables of an array whose path is one key longer are the sections of those
    tables, one key further down. -/
theorem rowsFor_under (k : String) (path : List String) : ∀ items : List Value,
    rowsFor (k :: path) items = (rowsFor path items).map (Section.under k)
  | [] => rfl
  | .object es :: rest => by
    rw [rowsFor, rowsFor, List.map_append, List.map_cons, sectionsIn_under k path es,
      rowsFor_under k path rest]
    rfl
  | .null :: rest => rowsFor_under k path rest
  | .bool _ :: rest => rowsFor_under k path rest
  | .number _ :: rest => rowsFor_under k path rest
  | .string _ :: rest => rowsFor_under k path rest
  | .array _ :: rest => rowsFor_under k path rest

end

mutual

/-- A value with a header has at least one section, though not always one that begins with its
    own header. -/
theorem sectionsFor_ne_nil (path : List String) : ∀ {v : Value}, hasHeader v = true →
    sectionsFor path v ≠ []
  | .null, h => by cases h
  | .bool _, h => by cases h
  | .number _, h => by cases h
  | .string _, h => by cases h
  | .array items, h => by
    have hall : (! items.isEmpty && items.all isTable) = true := h
    rw [sectionsFor, if_pos hall]
    cases items with
    | nil => cases h
    | cons v rest =>
      cases v with
      | object es => simp [rowsFor]
      | _ => simp [hasHeader, isTable] at h
  | .object es, _ => by
    rw [sectionsFor, ownSection]
    split
    · next h =>
      -- the header is left out, but not those below it
      simp only [Bool.and_eq_true, Bool.not_eq_true', List.isEmpty_eq_false_iff] at h
      rw [List.nil_append]
      exact sectionsIn_ne_nil path h.1 h.2
    · simp

/-- A table that has entries and none of them on a line has a section below it. -/
theorem sectionsIn_ne_nil (path : List String) : ∀ {es : List (String × Value)},
    (lines es).isEmpty = true → es ≠ [] → sectionsIn path es ≠ []
  | [], _, hne => absurd rfl hne
  | (k, v) :: rest, hlines, _ => by
    have hv : hasHeader v = true := by
      by_contra hv
      have happend := lines_cons_append k v rest []
      rw [if_neg hv, List.append_nil, List.isEmpty_iff.mp hlines] at happend
      exact absurd happend.symm (by simp)
    rw [sectionsIn]
    exact List.append_ne_nil_of_left_ne_nil (sectionsFor_ne_nil _ hv) _

end

/-- A value without a header has no section. -/
theorem sectionsFor_eq_nil (path : List String) {v : Value} (hv : ¬ hasHeader v = true) :
    sectionsFor path v = [] := by
  cases v with
  | array items =>
    have hall : ¬ (! items.isEmpty && items.all isTable) = true := hv
    rw [sectionsFor, if_neg hall]
  | object es => exact absurd rfl hv
  | _ => rfl

/-! ### Adding sections

A header changes the root along its path, and the lines after it are filled into a table of their
own before that. As no key is repeated in a value, neither of the two can fail, and every step of
the reader is an equation here.
-/

/-- The entries of a section as the reader has them: each with a key of one part and the tree of
    its value. -/
def Section.pairs (x : Section) : List (Key × Item) :=
  (linesOf x.entries).map fun e => (⟨[], e.1⟩, Item.ofValue e.2)

/-- Adds a section to what was defined so far. -/
def Section.addTo (root : Entries Draft) (x : Section) : Except Fault (Entries Draft) :=
  addSection root x.header x.pairs

/-- Lines whose keys are new are added in order after what is there. The keys are asked to be
    different together with those that are there already, so that this survives each step. -/
theorem fill_entries {es : List (String × Value)} {entries : Entries Draft}
    (hkeys : (Entries.keys entries ++ Entries.keys es).Nodup) :
    fill (es.map fun e => (⟨[], e.1⟩, Item.ofValue e.2)) entries
      = .ok (entries ++ valueDrafts es) := by
  induction es generalizing entries with
  | nil => simp [fill, valueDrafts, pure, Except.pure]
  | cons e es ih =>
    obtain ⟨k, v⟩ := e
    have hk : k ∉ Entries.keys entries := by
      intro hmem
      exact (List.nodup_append.mp hkeys).2.2 k hmem k List.mem_cons_self rfl
    have hnext :
      (Entries.keys (entries ++ [(k, .value (Item.ofValue v))]) ++ Entries.keys es).Nodup := by
      simpa [Entries.keys] using hkeys
    have hlater := ih hnext
    rw [List.append_assoc] at hlater
    unfold fill at hlater ⊢
    rw [List.map_cons, List.foldlM_cons]
    show (Draft.define [] k (Item.ofValue v) entries >>= _) = _
    rw [define_new hk, ok_bind]
    exact hlater

/-- The keys of lines are among those of the table, and so they are different. -/
theorem keys_linesOf_nodup {es : List (String × Value)} (h : (Entries.keys es).Nodup) :
    (Entries.keys (linesOf es)).Nodup :=
  (List.filter_sublist.map Prod.fst).nodup h

/-! ### The table that headers under a key extend -/

/-- The table under a key that longer headers extend, and the entry that it becomes part of:
    a missing table is made, and of an array it is the last one. -/
inductive Opens (k : String) (entries : Entries Draft) :
    (Entries Draft → Draft) → Entries Draft → Prop
  | missing (h : entries.find? k = none) : Opens k entries (.table .implied) []
  | table {origin inner} (h : entries.find? k = some (.table origin inner)) :
    Opens k entries (.table origin) inner
  | tables {before last} (h : entries.find? k = some (.tables before last)) :
    Opens k entries (.tables before) last

variable {k : String} {entries inner : Entries Draft} {slot : Entries Draft → Draft}

/-- Where the table under a key was changed, longer headers extend what it has become. -/
theorem Opens.put (h : Opens k entries slot inner) (changed : Entries Draft) :
    Opens k (entries.put k (slot changed)) slot changed := by
  have hfind (d : Draft) : (entries.put k d).find? k = some d :=
    by rw [Entries.find_put, if_pos rfl]
  cases h with
  | missing => exact .table (hfind _)
  | table => exact .table (hfind _)
  | tables => exact .tables (hfind _)

/-- A change below a key is one of the table under that key, and what becomes of it is put back
    there. The change must not look at how the table was made, since a table that is missing and
    one that is there differ in this. -/
theorem Opens.modifyAt (h : Opens k entries slot inner) {change : Draft.Change}
    (hchange : ∀ origin origin', change origin = change origin') (path : List String)
    (origin : Origin) :
    Draft.modifyAt .implied change (k :: path) origin entries
      = (Draft.modifyAt .implied change path .header inner).map fun changed =>
        entries.put k (slot changed) := by
  -- at the end of the path the change itself is made, before it the way is the same
  have horigin (made : Origin) : Draft.modifyAt .implied change path made inner
      = Draft.modifyAt .implied change path .header inner := by
    cases path with
    | nil => exact congrFun (hchange made .header) inner
    | cons l path => rfl
  cases h with
  | missing h =>
    rw [Draft.modifyAt, h]
    simp only [horigin]
    cases Draft.modifyAt .implied change path .header ([] : Entries Draft) <;> rfl
  | @table made inner h =>
    rw [Draft.modifyAt, h]
    simp only [reduceCtorEq, false_and, ↓reduceIte, horigin]
    cases Draft.modifyAt .implied change path .header inner <;> rfl
  | tables h =>
    rw [Draft.modifyAt, h]
    simp only
    cases Draft.modifyAt .implied change path .header inner <;> rfl

/-- A section below a key is added to the table under that key. -/
theorem Opens.addTo (h : Opens k entries slot inner) {x : Section} (hpath : x.path ≠ []) :
    (x.under k).addTo entries
      = (x.addTo inner).map fun changed => entries.put k (slot changed) := by
  obtain ⟨row, path, es⟩ := x
  obtain ⟨p, n, rfl⟩ : ∃ p n, path = p ++ [n] := by
    obtain ⟨p, n, heq⟩ := (List.eq_nil_or_concat path).resolve_left hpath
    exact ⟨p, n, by rw [heq, List.concat_eq_append]⟩
  have hlong : k :: (p ++ [n]) = (k :: p) ++ [n] := rfl
  simp only [Section.addTo, Section.under, Section.header, Section.key, Section.pairs, hlong,
    List.dropLast_concat, List.getLastD_concat]
  cases row with
  | true => exact h.modifyAt (fun _ _ => rfl) p .header
  | false => exact h.modifyAt (fun _ _ => rfl) p .header

/-- What is put twice under a key is put once. -/
theorem put_put (k : String) (d d' : Draft) (entries : Entries Draft) :
    (entries.put k d).put k d' = entries.put k d' := by
  induction entries with
  | nil => simp [Entries.put]
  | cons e rest ih =>
    obtain ⟨l, a⟩ := e
    by_cases hl : l = k
    · simp [Entries.put, hl]
    · simp [Entries.put, hl, ih]

/-- **Sections below a key** are added to the table there, one after the other. With no section
    at all a missing table would not be made, which is why there has to be one. -/
theorem Opens.foldlM {xs : List Section} (hxs : ∀ x ∈ xs, x.path ≠ []) (hne : xs ≠ []) :
    ∀ {entries inner : Entries Draft}, Opens k entries slot inner →
      (xs.map (Section.under k)).foldlM Section.addTo entries
        = (xs.foldlM Section.addTo inner).map fun changed => entries.put k (slot changed) := by
  induction xs with
  | nil => exact absurd rfl hne
  | cons x xs ih =>
    intro entries inner h
    obtain ⟨hx, hxs⟩ := List.forall_mem_cons.mp hxs
    rw [List.map_cons, List.foldlM_cons, List.foldlM_cons, h.addTo hx]
    cases x.addTo inner with
    | error e => rfl
    | ok changed =>
      -- after the last section nothing is asked of the entries any more
      by_cases hrest : xs = []
      · subst hrest
        rfl
      · have hlater := ih hxs hrest (h.put changed)
        simp only [put_put] at hlater
        exact hlater

/-! ### What sections define

The reader does not finish a table before the last section was added, since any header can extend
it. What it has at that point is described here; how it was defined is part of this, because a
table may not be defined twice.
-/

/-- The array of some tables, of which there is one at least. -/
def tablesOf (rows : List (Entries Draft)) : Draft := .tables rows.dropLast (rows.getLastD [])

mutual

/-- What the sections of a value define under its key. A table is implied by those below it if it
    has no header of its own. -/
def draftOf : Value → Draft
  | .object es =>
    .table (if (lines es).isEmpty && ! es.isEmpty then .implied else .header)
      (valueDrafts (linesOf es) ++ tableDrafts es)
  | .array items => tablesOf (rowDrafts items)
  | v => .value (Item.ofValue v)

/-- What the sections below a table define in it: its entries with headers. -/
def tableDrafts : List (String × Value) → Entries Draft
  | [] => []
  | (k, v) :: rest => if hasHeader v then (k, draftOf v) :: tableDrafts rest else tableDrafts rest

/-- What the sections of the tables of an array define, one table after the other. -/
def rowDrafts : List Value → List (Entries Draft)
  | [] => []
  | .object es :: rest => (valueDrafts (linesOf es) ++ tableDrafts es) :: rowDrafts rest
  | _ :: rest => rowDrafts rest

end

/-- What lines define has the keys of the lines. -/
theorem keys_valueDrafts (es : List (String × Value)) :
    Entries.keys (valueDrafts es) = Entries.keys es := by
  simp [Entries.keys, valueDrafts]

/-- The keys of lines and those of tables are together the keys of the table, and so they are
    different. -/
theorem keys_split_nodup {es : List (String × Value)} (h : (Entries.keys es).Nodup) :
    (Entries.keys (valueDrafts (linesOf es)) ++ Entries.keys (tablesIn es)).Nodup := by
  -- a key is with the lines or with the tables, and with one of them only
  have hperm : (linesOf es ++ tablesIn es).Perm es := by
    have hsplit := List.filter_append_perm (fun e : String × Value => ! hasHeader e.2) es
    simp only [Bool.not_not] at hsplit
    exact hsplit
  rw [keys_valueDrafts, Entries.keys, Entries.keys, ← List.map_append]
  exact (hperm.map Prod.fst).nodup_iff.mpr h

/-- The entries of a table with some tables of an array under a key; without any, there is no
    such key yet. -/
def withRows (entries : Entries Draft) (k : String) (rows : List (Entries Draft)) : Entries Draft :=
  if rows = [] then entries else entries ++ [(k, tablesOf rows)]

/-- With one more table the array is there, and the table is the one that headers extend. -/
theorem withRows_concat (entries : Entries Draft) (k : String) (rows : List (Entries Draft))
    (row : Entries Draft) :
    withRows entries k (rows ++ [row]) = entries ++ [(k, .tables rows row)] := by
  simp [withRows, tablesOf]

/-- An array that has a header has at least one table, since an empty array is written on a line. -/
theorem rowDrafts_ne_nil {items : List Value} (h : hasHeader (.array items) = true) :
    rowDrafts items ≠ [] := by
  cases items with
  | nil => cases h
  | cons v rest =>
    cases v with
    | object es => exact List.cons_ne_nil _ _
    | _ => simp [hasHeader, isTable] at h

/-- Where no line is written, no entry stands on one: even an empty array has its line. -/
theorem linesOf_eq_nil {es : List (String × Value)} (h : (lines es).isEmpty = true) :
    linesOf es = [] := by
  induction es with
  | nil => rfl
  | cons e es ih =>
    obtain ⟨k, v⟩ := e
    have happend := lines_cons_append k v es []
    rw [List.append_nil, List.isEmpty_iff.mp h] at happend
    by_cases hv : hasHeader v = true
    · rw [if_pos hv, List.append_nil] at happend
      have hlines : linesOf ((k, v) :: es) = linesOf es := by simp [linesOf, hv]
      rw [hlines]
      exact ih (List.isEmpty_iff.mpr happend.symm)
    · rw [if_neg hv] at happend
      exact absurd happend.symm (by simp)

section Add

variable {k : String} {entries : Entries Draft}

/-- What was appended under a new key is found under it. -/
theorem find_last (hk : k ∉ Entries.keys entries) (d : Draft) :
    Entries.find? k (entries ++ [(k, d)]) = some d := by
  rw [← Entries.put_of_not_mem hk, Entries.find_put, if_pos rfl]

/-- What was appended under a new key is replaced under it in its place. -/
theorem put_last (hk : k ∉ Entries.keys entries) (d d' : Draft) :
    Entries.put k d' (entries ++ [(k, d)]) = entries ++ [(k, d')] := by
  rw [← Entries.put_of_not_mem hk d, put_put, Entries.put_of_not_mem hk]

/-- The table of a header whose key is new comes last, and holds what its lines define. -/
theorem addTo_table (hk : k ∉ Entries.keys entries) {es : List (String × Value)}
    (hes : (Entries.keys es).Nodup) :
    Section.addTo entries ⟨false, [k], es⟩
      = .ok (entries ++ [(k, .table .header (valueDrafts (linesOf es)))]) := by
  have hkeys : (Entries.keys ([] : Entries Draft) ++ Entries.keys (linesOf es)).Nodup :=
    keys_linesOf_nodup hes
  have hfill := fill_entries hkeys
  show Draft.closeTable [] k (fill ((linesOf es).map fun e => (⟨[], e.1⟩, Item.ofValue e.2)))
    entries = _
  rw [Draft.closeTable, Draft.modifyAt, Draft.takeOut_eq_none_iff.mpr hk]
  simp only [hfill]
  rfl

/-- One more table of an array comes last in it, and holds what its lines define. -/
theorem addTo_row (hk : k ∉ Entries.keys entries) {es : List (String × Value)}
    (hes : (Entries.keys es).Nodup) (rows : List (Entries Draft)) :
    Section.addTo (withRows entries k rows) ⟨true, [k], es⟩
      = .ok (withRows entries k (rows ++ [valueDrafts (linesOf es)])) := by
  have hkeys : (Entries.keys ([] : Entries Draft) ++ Entries.keys (linesOf es)).Nodup :=
    keys_linesOf_nodup hes
  have hfill := fill_entries hkeys
  show Draft.appendTable [] k (fill ((linesOf es).map fun e => (⟨[], e.1⟩, Item.ofValue e.2)))
    (withRows entries k rows) = _
  rw [Draft.appendTable, Draft.modifyAt, hfill, ok_bind]
  rw [withRows_concat]
  -- the first table of an array makes the array, any other one is added to it
  rcases List.eq_nil_or_concat rows with rfl | ⟨before, last, rfl⟩
  · have hnone : entries.find? k = none := Entries.find_eq_none_iff.mpr hk
    simp only [withRows, ↓reduceIte, hnone, Entries.put_of_not_mem hk]
    rfl
  · rw [List.concat_eq_append, withRows_concat]
    simp only [find_last hk, put_last hk]
    rfl

/-- The sections below a key end in its table, if there is one of them or the table is there: one
    that is neither there nor has a section below it is not made. -/
theorem addAll_under {es : List (String × Value)} (hes : EveryEntry IsWellFormed es)
    {slot : Entries Draft → Draft} {inner changed : Entries Draft} (h : Opens k entries slot inner)
    (hmade : sectionsIn [] es ≠ [] ∨ entries.put k (slot inner) = entries)
    (hinner : (sectionsIn [] es).foldlM Section.addTo inner = .ok changed) :
    (sectionsIn [k] es).foldlM Section.addTo entries = .ok (entries.put k (slot changed)) := by
  rw [sectionsIn_under]
  -- without a section below it, the table is what it was
  by_cases hne : sectionsIn [] es = []
  · rw [hne] at hinner ⊢
    obtain rfl : inner = changed := Except.ok.inj hinner
    exact congrArg Except.ok (hmade.resolve_left fun h => h hne).symm
  · rw [h.foldlM (fun x hx => (sectionsIn_spec [] hes x hx).1) hne, hinner]
    rfl

mutual

/-- **The sections of a value** define what it becomes under its key. -/
theorem addAll_sectionsFor : ∀ {v : Value}, hasHeader v = true → Every IsWellFormed v →
    ∀ {k : String} {entries : Entries Draft}, k ∉ Entries.keys entries →
      (sectionsFor [k] v).foldlM Section.addTo entries = .ok (entries ++ [(k, draftOf v)])
  | .null, h, _, _, _, _ => by cases h
  | .bool _, h, _, _, _, _ => by cases h
  | .number _, h, _, _, _, _ => by cases h
  | .string _, h, _, _, _, _ => by cases h
  | .array items, h, hv, k, entries, hk => by
    have hall : (! items.isEmpty && items.all isTable) = true := h
    have hitems : ∀ v ∈ items, isTable v = true :=
      List.all_eq_true.mp (Bool.and_eq_true_iff.mp hall).2
    have hrows := addAll_rowsFor hitems hv.2 hk []
    rw [List.nil_append] at hrows
    rw [sectionsFor, if_pos hall]
    refine hrows.trans ?_
    rw [withRows, if_neg (rowDrafts_ne_nil h)]
    rfl
  | .object es, _, hv, k, entries, hk => by
    rw [sectionsFor, List.foldlM_append, ownSection, draftOf]
    by_cases hempty : ((lines es).isEmpty && ! es.isEmpty) = true
    · -- the table is made by the first header below it
      obtain ⟨hlines, hne⟩ := Bool.and_eq_true_iff.mp hempty
      have hmissing : Opens k entries (.table .implied) [] :=
        .missing (Entries.find_eq_none_iff.mpr hk)
      have hsome : sectionsIn [] es ≠ [] := sectionsIn_ne_nil [] hlines (by simpa using hne)
      have hkeys : (Entries.keys ([] : Entries Draft) ++ Entries.keys (tablesIn es)).Nodup :=
        (List.nodup_append.mp (keys_split_nodup hv.1)).2.1
      have hinner := addAll_sectionsIn hv.2 hkeys
      rw [if_pos hempty, if_pos hempty, linesOf_eq_nil hlines]
      refine (addAll_under hv.2 hmissing (.inl hsome) hinner).trans ?_
      rw [Entries.put_of_not_mem hk]
      rfl
    · -- the header makes the table, and those below it extend it
      have hopen : Opens k (entries ++ [(k, .table .header (valueDrafts (linesOf es)))])
          (.table .header)
          (valueDrafts (linesOf es)) := .table (find_last hk _)
      have hinner := addAll_sectionsIn hv.2 (keys_split_nodup hv.1)
      rw [if_neg hempty, if_neg hempty, List.foldlM_cons, addTo_table hk hv.1]
      refine (addAll_under hv.2 hopen (.inr (put_last hk _ _)) hinner).trans ?_
      rw [put_last hk]

/-- The sections below a table define the tables in it, after whatever it holds already. -/
theorem addAll_sectionsIn : ∀ {es : List (String × Value)}, EveryEntry IsWellFormed es →
    ∀ {entries : Entries Draft}, (Entries.keys entries ++ Entries.keys (tablesIn es)).Nodup →
      (sectionsIn [] es).foldlM Section.addTo entries = .ok (entries ++ tableDrafts es)
  | [], _, entries, _ => by rw [tableDrafts, List.append_nil]; rfl
  | (k, v) :: rest, hes, entries, hkeys => by
    rw [sectionsIn, List.foldlM_append, List.nil_append, tableDrafts]
    -- an entry on a line has no section, and its key is not among those of the tables
    by_cases hv : hasHeader v = true
    · have htables : tablesIn ((k, v) :: rest) = (k, v) :: tablesIn rest := by simp [tablesIn, hv]
      rw [htables] at hkeys
      have hk : k ∉ Entries.keys entries := by
        intro hmem
        exact (List.nodup_append.mp hkeys).2.2 k hmem k List.mem_cons_self rfl
      have hnext :
        (Entries.keys (entries ++ [(k, draftOf v)]) ++ Entries.keys (tablesIn rest)).Nodup := by
        simpa [Entries.keys] using hkeys
      rw [addAll_sectionsFor hv hes.1 hk, ok_bind, addAll_sectionsIn hes.2 hnext, if_pos hv,
        List.append_assoc]
      rfl
    · have htables : tablesIn ((k, v) :: rest) = tablesIn rest := by simp [tablesIn, hv]
      rw [htables] at hkeys
      rw [sectionsFor_eq_nil _ hv, if_neg hv]
      exact addAll_sectionsIn hes.2 hkeys

/-- The sections of the tables of an array are added after those that it has. The tables that are
    there are a parameter, since each header adds one to them. -/
theorem addAll_rowsFor : ∀ {items : List Value}, (∀ v ∈ items, isTable v = true) →
    EveryItem IsWellFormed items → ∀ {k : String} {entries : Entries Draft},
    k ∉ Entries.keys entries →
      ∀ rows : List (Entries Draft),
      (rowsFor [k] items).foldlM Section.addTo (withRows entries k rows)
        = .ok (withRows entries k (rows ++ rowDrafts items))
  | [], _, _, k, entries, _, rows => by rw [rowDrafts, List.append_nil]; rfl
  | .object es :: rest, h, hv, k, entries, hk, rows => by
    have hopen : Opens k (entries ++ [(k, .tables rows (valueDrafts (linesOf es)))]) (.tables rows)
        (valueDrafts (linesOf es)) := .tables (find_last hk _)
    have hinner := addAll_sectionsIn hv.1.2 (keys_split_nodup hv.1.1)
    -- the sections below a table extend the last one of the array, which is this table
    have hbelow := addAll_under hv.1.2 hopen (.inr (put_last hk _ _)) hinner
    rw [put_last hk, ← withRows_concat, ← withRows_concat] at hbelow
    rw [rowsFor, List.foldlM_append, List.foldlM_cons, addTo_row hk hv.1.1 rows, ok_bind, hbelow,
      ok_bind, addAll_rowsFor (List.forall_mem_cons.mp h).2 hv.2 hk, List.append_assoc]
    rfl
  | .null :: _, h, _, _, _, _, _ => by cases h _ List.mem_cons_self
  | .bool _ :: _, h, _, _, _, _, _ => by cases h _ List.mem_cons_self
  | .number _ :: _, h, _, _, _, _, _ => by cases h _ List.mem_cons_self
  | .string _ :: _, h, _, _, _, _, _ => by cases h _ List.mem_cons_self
  | .array _ :: _, h, _, _, _, _, _ => by cases h _ List.mem_cons_self

end

end Add

/-! ### Whole documents -/

/-- The entries before the first header are all lines up to there, and the lines from there on
    are left. -/
theorem leadingEntries_append (es : List (String × Value)) {rest : List Line}
    (hrest : leadingEntries rest = ([], rest)) :
    leadingEntries (es.map (fun e => .entry ⟨[], e.1⟩ (Item.ofValue e.2)) ++ rest)
      = (es.map fun e => (⟨[], e.1⟩, Item.ofValue e.2), rest) := by
  induction es with
  | nil => exact hrest
  | cons e es ih =>
    rw [List.map_cons, List.cons_append, leadingEntries, ih]
    rfl

/-- No entries stand before the header of a section. -/
theorem leadingEntries_sections (xs : List Section) :
    leadingEntries (xs.flatMap Section.lines) = ([], xs.flatMap Section.lines) := by
  cases xs <;> rfl

/-- The lines of sections, one after the other, add these sections one after the other. The fuel
    is one for each section, and one for the end. -/
theorem addSections_lines (xs : List Section) (root : Entries Draft) {fuel : Nat}
    (hfuel : xs.length < fuel) :
    addSections fuel root (xs.flatMap Section.lines) = xs.foldlM Section.addTo root := by
  induction xs generalizing root fuel with
  | nil =>
    obtain ⟨fuel, rfl⟩ : ∃ f, fuel = f + 1 := ⟨fuel - 1, by omega⟩
    rfl
  | cons x xs ih =>
    obtain ⟨fuel, rfl⟩ : ∃ f, fuel = f + 1 := ⟨fuel - 1, by omega⟩
    rw [List.length_cons] at hfuel
    have hleading : leadingEntries (entryLines x.entries ++ xs.flatMap Section.lines)
        = (x.pairs, xs.flatMap Section.lines) :=
      leadingEntries_append _ (leadingEntries_sections xs)
    rw [List.flatMap_cons, Section.lines, List.cons_append, addSections, hleading, List.foldlM_cons]
    simp only
    show (x.addTo root >>= _) = _
    congr 1
    funext changed
    exact ih changed (by omega)

/-- **The lines of a table** define it: its own lines first, and then the sections below it. -/
theorem assemble_lines {es : List (String × Value)} (hes : (Value.object es).WellFormed) :
    assemble (entryLines es ++ (sectionsIn [] es).flatMap Section.lines)
      = .ok (valueDrafts (linesOf es) ++ tableDrafts es) := by
  have hleading : leadingEntries (entryLines es ++ (sectionsIn [] es).flatMap Section.lines)
      = ((linesOf es).map fun e => (⟨[], e.1⟩, Item.ofValue e.2),
        (sectionsIn [] es).flatMap Section.lines) :=
    leadingEntries_append _ (leadingEntries_sections _)
  have hkeys : (Entries.keys ([] : Entries Draft) ++ Entries.keys (linesOf es)).Nodup :=
    keys_linesOf_nodup hes.1
  have hfill := fill_entries hkeys
  -- each section has a header, so there is fuel enough
  have hlength : (sectionsIn [] es).length ≤ ((sectionsIn [] es).flatMap Section.lines).length := by
    generalize sectionsIn [] es = xs
    induction xs with
    | nil => exact Nat.le_refl 0
    | cons x xs ih =>
      rw [List.flatMap_cons, List.length_append, Section.lines, List.length_cons, List.length_cons]
      omega
  rw [assemble, hleading]
  simp only
  rw [hfill, ok_bind, List.nil_append, addSections_lines _ _ (Nat.lt_succ_of_le hlength)]
  exact addAll_sectionsIn hes.2 (keys_split_nodup hes.1)

end SchemaEmbed.Toml
