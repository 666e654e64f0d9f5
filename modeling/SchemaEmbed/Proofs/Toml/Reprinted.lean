import SchemaEmbed.Proofs.Toml.RoundTrip

namespace SchemaEmbed.Toml

/-!
# What is read back is written as it was

The text of a value has the entries of its tables in another order, and the value in that order has
the same text. So a document that was written and read back is written as it was, and after the
first time nothing changes any more.

* `hasHeader_arranged` — what has a header still has one, so that its table is still apart;
* `sectionsOf_arranged` — **the tables of a value** have the same texts;
* `tableChars_arrangedEntries` / `serializeAt_arranged` — so has the whole document;
* `find_arrangedEntries` — what stands under a key is the value that stood there, in its order.
-/

open Value (Every EveryItem EveryEntry)

variable {k : String} {v : Value} {es : List (String × Value)}

/-! ### Headers

A value is written with a header if it is a table or an array of nothing but tables. Arranging a
value does not change which of these it is, so every entry stays among those with lines or among
those with headers.
-/

/-- A list of tables, each of which is arranged, is a list of as many tables. -/
theorem all_isTable_arrangedRows (items : List Value) :
    (arrangedRows items).isEmpty = items.isEmpty
      ∧ (items.all isTable = true → (arrangedRows items).all isTable = true) := by
  induction items with
  | nil => exact ⟨rfl, fun h => h⟩
  | cons v rest ih =>
    refine ⟨rfl, fun hall => ?_⟩
    obtain ⟨hv, hrest⟩ := Bool.and_eq_true_iff.mp (List.all_cons ▸ hall)
    rw [arrangedRows, List.all_cons, Bool.and_eq_true]
    cases v with
    | object es => exact ⟨rfl, ih.2 hrest⟩
    | _ => cases hv

/-- A value that is arranged has a header if it had one, and only then. An array that is not one
    of tables is left as it is. -/
theorem hasHeader_arranged (v : Value) : hasHeader (arranged v) = hasHeader v := by
  cases v with
  | array items =>
    rw [arranged]
    split
    · next h =>
      obtain ⟨hne, hall⟩ := Bool.and_eq_true_iff.mp h
      obtain ⟨hempty, htables⟩ := all_isTable_arrangedRows items
      rw [h, hasHeader, hempty, hne, htables hall]
      rfl
    · rfl
  | _ => rfl

/-- The entries of a table that come after its lines all have headers. -/
theorem hasHeader_arrangedTables (es : List (String × Value)) :
    ∀ e ∈ arrangedTables es, hasHeader e.2 = true := by
  induction es with
  | nil => simp [arrangedTables]
  | cons e es ih =>
    obtain ⟨k, v⟩ := e
    rw [arrangedTables]
    split
    · next hv => exact List.forall_mem_cons.mpr ⟨(hasHeader_arranged v).trans hv, ih⟩
    · exact ih

/-! ### Lines

The lines of a table are those of its entries without headers, in their order. Putting these
entries first changes nothing about that.
-/

/-- The lines of entries in two parts are the lines of both parts. -/
theorem lines_append (es fs : List (String × Value)) : lines (es ++ fs) = lines es ++ lines fs :=
  List.flatMap_append

/-- Entries with headers have no lines of their own in the table that they are in. -/
theorem lines_of_headers (h : ∀ e ∈ es, hasHeader e.2 = true) : lines es = [] := by
  refine List.flatMap_eq_nil_iff.mpr fun e he => ?_
  dsimp only
  rw [if_pos (h e he)]

/-- The entries without headers have all the lines. -/
theorem lines_linesOf (es : List (String × Value)) : lines (linesOf es) = lines es := by
  induction es with
  | nil => rfl
  | cons e es ih =>
    obtain ⟨k, v⟩ := e
    -- an entry with a header has no line on either side
    by_cases hv : hasHeader v = true
    · have hlines : linesOf ((k, v) :: es) = linesOf es := by simp [linesOf, hv]
      have hskip := lines_cons_append k v es []
      rw [if_pos hv, List.append_nil, List.append_nil] at hskip
      rw [hlines, hskip, ih]
    · have hlines : linesOf ((k, v) :: es) = (k, v) :: linesOf es := by simp [linesOf, hv]
      have hkeep (fs : List (String × Value)) := lines_cons_append k v fs []
      simp only [if_neg hv, List.append_nil] at hkeep
      rw [hlines, hkeep, hkeep, ih]

/-- **The lines of a table** are the same in the order of the text. -/
theorem lines_arrangedEntries (es : List (String × Value)) :
    lines (arrangedEntries es) = lines es := by
  rw [arrangedEntries, lines_append, lines_of_headers (hasHeader_arrangedTables es),
    List.append_nil, lines_linesOf]

/-! ### Tables

The tables are written in the order of the entries with headers, which is kept too; each of them is
arranged in itself, so this is a recursion on the value.
-/

/-- What has no header has no table of its own. -/
theorem sectionsOf_eq_nil (path : List String) (hv : ¬ hasHeader v = true) :
    sectionsOf path v = [] := by
  cases v with
  | array items => exact if_neg hv
  | object es => exact absurd rfl hv
  | _ => rfl

/-- The tables among entries in two parts are the tables in both parts. -/
theorem sectionsBelow_append (path : List String) (es fs : List (String × Value)) :
    sectionsBelow path (es ++ fs) = sectionsBelow path es ++ sectionsBelow path fs := by
  induction es with
  | nil => rfl
  | cons e es ih =>
    obtain ⟨k, v⟩ := e
    rw [List.cons_append, sectionsBelow, sectionsBelow, ih, List.append_assoc]

/-- There are no tables among the entries without headers, so they add nothing to what follows. -/
theorem sectionsBelow_linesOf (path : List String) (es : List (String × Value)) :
    sectionsBelow path (linesOf es) = [] := by
  have hnone : ∀ e ∈ linesOf es, ¬ hasHeader e.2 = true := fun e he => by
    simpa using (List.mem_filter.mp he).2
  generalize linesOf es = fs at hnone ⊢
  induction fs with
  | nil => rfl
  | cons e fs ih =>
    obtain ⟨he, hfs⟩ := List.forall_mem_cons.mp hnone
    rw [sectionsBelow, sectionsOf_eq_nil _ he, ih hfs]
    rfl

mutual

/-- **The tables of a value** have the same texts, by recursion on the value. A table has the
    same lines and the same tables below it, and an array the same rows. -/
theorem sectionsOf_arranged (path : List String) : ∀ v : Value,
    sectionsOf path (arranged v) = sectionsOf path v
  | .null => rfl
  | .bool _ => rfl
  | .number _ => rfl
  | .string _ => rfl
  | .array items => by
    rw [arranged]
    split
    · next h =>
      -- its rows are tables in either order, so both are written row by row
      have h' : hasHeader (.array (arrangedRows items)) = true := by
        have heq := hasHeader_arranged (.array items)
        rwa [arranged, if_pos h, h] at heq
      rw [sectionsOf, sectionsOf]
      exact (if_pos h').trans ((sectionsOfRows_arranged path items).trans (if_pos h).symm)
    · rfl
  | .object es => by
    have hempty : (arrangedEntries es).isEmpty = es.isEmpty := by
      rw [Bool.eq_iff_iff, List.isEmpty_iff_length_eq_zero, List.isEmpty_iff_length_eq_zero,
        length_arrangedEntries]
    have hown : tableSection path (arrangedEntries es) = tableSection path es := by
      rw [tableSection, tableSection, lines_arrangedEntries, hempty]
    show tableSection path (arrangedEntries es)
      ++ sectionsBelow path (linesOf es ++ arrangedTables es) = _
    rw [hown, sectionsBelow_append, sectionsBelow_linesOf, sectionsBelow_arrangedTables path es,
      List.nil_append, sectionsOf]

/-- The tables below a table have the same texts when they are arranged. -/
theorem sectionsBelow_arrangedTables (path : List String) : ∀ es : List (String × Value),
    sectionsBelow path (arrangedTables es) = sectionsBelow path es
  | [] => rfl
  | (k, v) :: rest => by
    rw [arrangedTables, sectionsBelow]
    split
    · rw [sectionsBelow, sectionsOf_arranged _ v, sectionsBelow_arrangedTables path rest]
    · next hv => rw [sectionsOf_eq_nil _ hv,
          sectionsBelow_arrangedTables path rest, List.nil_append]

/-- The tables of an array have the same texts when they are arranged. -/
theorem sectionsOfRows_arranged (path : List String) : ∀ items : List Value,
    sectionsOfRows path (arrangedRows items) = sectionsOfRows path items
  | [] => rfl
  | .object es :: rest => by
    have hrow : rowSection path (arrangedEntries es) = rowSection path es := by
      rw [rowSection, rowSection, lines_arrangedEntries]
    rw [arrangedRows, arranged, sectionsOfRows, sectionsOfRows, sectionsOfRows_arranged path rest,
      sectionsBelow_append, sectionsBelow_linesOf, sectionsBelow_arrangedTables path es,
      List.nil_append]
    rw [← hrow]
    rfl
  | .null :: rest => sectionsOfRows_arranged path rest
  | .bool _ :: rest => sectionsOfRows_arranged path rest
  | .number _ :: rest => sectionsOfRows_arranged path rest
  | .string _ :: rest => sectionsOfRows_arranged path rest
  -- what is no table is passed over, whatever becomes of it
  | .array items :: rest => by
    have htables := sectionsOfRows_arranged path rest
    rw [arrangedRows, arranged, sectionsOfRows.eq_def path (.array items :: rest)]
    dsimp only
    split <;> exact htables

end

/-! ### Documents -/

/-- **The text of a table** is the same in the order of the text: its lines and its tables are. -/
theorem tableChars_arrangedEntries (es : List (String × Value)) :
    tableChars (arrangedEntries es) = tableChars es := by
  have hsections : sectionsBelow [] (arrangedEntries es) = sectionsBelow [] es := by
    rw [arrangedEntries, sectionsBelow_append, sectionsBelow_linesOf,
      sectionsBelow_arrangedTables, List.nil_append]
  rw [tableChars, tableChars, lines_arrangedEntries, hsections]

/-- The text of a document is the same in the order of the text, and written under the same
    conditions: no null is brought in or taken out. -/
theorem serializeAt_arranged {path text : String} (h : Format.toml.serializeAt path v = .ok text) :
    Format.toml.serializeAt path (arranged v) = .ok text := by
  obtain ⟨es, rfl, hpresent, rfl⟩ := serializeAt_eq_ok_iff.mp h
  refine serializeAt_eq_ok_iff.mpr ⟨arrangedEntries es, rfl, ?_, ?_⟩
  · exact every_arranged ⟨fun _ _ => trivial, fun _ _ _ => trivial⟩ hpresent
  · rw [tableChars_arrangedEntries]

/-- **What stands under a key** is the value that stood there, in the order of its text. -/
theorem find_arrangedEntries (hkeys : (Entries.keys es).Nodup) (h : Entries.find? k es = some v) :
    Entries.find? k (arrangedEntries es) = some (if hasHeader v then arranged v else v) := by
  refine Entries.find_of_mem (keys_arranged_nodup hkeys) (List.mem_append.mpr ?_)
  have hmem := Entries.mem_of_find h
  -- with a header it is among the tables, otherwise among the lines
  by_cases hv : hasHeader v = true
  · rw [if_pos hv]
    refine .inr ?_
    clear hkeys h
    induction es with
    | nil => cases hmem
    | cons e es ih =>
      obtain ⟨l, w⟩ := e
      rw [arrangedTables]
      rcases List.mem_cons.mp hmem with heq | hmem
      · cases heq
        rw [if_pos hv]
        exact List.mem_cons_self
      · split
        · exact List.mem_cons_of_mem _ (ih hmem)
        · exact ih hmem
  · rw [if_neg hv]
    exact .inl (List.mem_filter.mpr ⟨hmem, by simpa using hv⟩)

end SchemaEmbed.Toml
