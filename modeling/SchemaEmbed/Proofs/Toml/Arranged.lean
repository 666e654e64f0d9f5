import SchemaEmbed.Proofs.Reordered
import SchemaEmbed.Proofs.Toml.Assembly

namespace SchemaEmbed.Toml

/-!
# A value in the order of its text

In TOML everything below a header belongs to its table. So a table with a header is written in two
parts: its lines come first, and the tables in it follow, each with a header of its own. What is
read back has the entries in this order.

* `arranged` — a value with the entries of every such table in this order;
* `keys_arranged` / `keys_arranged_iff` — what that does to keys, and when it does nothing;
* `same_arranged` — the value is structurally the same;
* `toEntries_drafts` — what lines and sections define is the tree of the arranged value.

Tables that stand on a line, between braces, keep their order.
-/

open Value (Every EveryItem EveryEntry IsWellFormed IsFloatFinite)

mutual

/-- A value with the entries of every table that has a header in the order of the text. -/
def arranged : Value → Value
  | .object es => .object (linesOf es ++ arrangedTables es)
  | .array items => if hasHeader (.array items) then .array (arrangedRows items) else .array items
  | v => v

/-- The entries of a table that have headers, in order, each of them arranged. -/
def arrangedTables : List (String × Value) → List (String × Value)
  | [] => []
  | (k, v) :: rest =>
    if hasHeader v then (k, arranged v) :: arrangedTables rest else arrangedTables rest

/-- The tables of an array, in order, each of them arranged. -/
def arrangedRows : List Value → List Value
  | [] => []
  | v :: rest => arranged v :: arrangedRows rest

end

/-- The entries of a table in the order of its text: those with a line, and then those with a
    header. -/
def arrangedEntries (es : List (String × Value)) : List (String × Value) :=
  linesOf es ++ arrangedTables es

/-! ### Keys

A key that stands on a line comes before all that have headers, and otherwise the order stays. So
nothing changes exactly if all lines came first already, which the keys alone tell as they are
different.
-/

/-- The keys of entries with headers stay in the order that they have in the table. -/
theorem keys_arrangedTables (es : List (String × Value)) :
    Entries.keys (arrangedTables es) = Entries.keys (tablesIn es) := by
  simp only [Entries.keys, tablesIn]
  induction es with
  | nil => rfl
  | cons e es ih =>
    obtain ⟨k, v⟩ := e
    rw [arrangedTables]
    by_cases hv : hasHeader v = true
    · simp [hv, ih]
    · simp [hv, ih]

/-- **The keys of a table** are in the order of its lines and then of its headers. -/
theorem keys_arranged (es : List (String × Value)) :
    Entries.keys (arrangedEntries es)
      = Entries.keys (linesOf es) ++ Entries.keys (tablesIn es) := by
  rw [← keys_arrangedTables]
  exact List.map_append

/-- Keys that are different are different in any order. -/
theorem keys_arranged_nodup {es : List (String × Value)} (h : (Entries.keys es).Nodup) :
    (Entries.keys (arrangedEntries es)).Nodup := by
  rw [keys_arranged, ← keys_valueDrafts]
  exact keys_split_nodup h

/-- **The keys of a table stay in order** exactly if no entry with a line follows one with a
    header. -/
theorem keys_arranged_iff {es : List (String × Value)} (h : (Entries.keys es).Nodup) :
    Entries.keys (arrangedEntries es) = Entries.keys es
      ↔ es.Pairwise fun e f => hasHeader e.2 = true → hasHeader f.2 = true := by
  rw [keys_arranged]
  induction es with
  | nil => exact iff_of_true rfl .nil
  | cons e es ih =>
    obtain ⟨hnew, hnodup⟩ := List.nodup_cons.mp h
    have hkeys (fs : List (String × Value)) : Entries.keys (e :: fs) = e.1 :: Entries.keys fs := rfl
    rw [List.pairwise_cons]
    by_cases he : hasHeader e.2 = true
    · have hlines : linesOf (e :: es) = linesOf es := List.filter_cons_of_neg (by simp [he])
      have htables : tablesIn (e :: es) = e :: tablesIn es := List.filter_cons_of_pos he
      rw [hlines, htables, hkeys, hkeys]
      rcases hnone : linesOf es with _ | ⟨f, rest⟩
      · -- all others are tables
        have hall : ∀ f ∈ es, hasHeader f.2 = true := fun f hf => by
          simpa using List.filter_eq_nil_iff.mp hnone f hf
        have htail : Entries.keys (tablesIn es) = Entries.keys es := by
          rw [tablesIn, List.filter_eq_self.mpr hall]
        rw [hnone, htail] at ih
        rw [htail]
        exact iff_of_true rfl ⟨fun f hf _ => hall f hf, (ih hnodup).mp rfl⟩
      · -- the first line is that of another key
        have hmem : f ∈ es ∧ hasHeader f.2 ≠ true := by
          have hf : f ∈ linesOf es := hnone ▸ List.mem_cons_self
          simpa [linesOf] using hf
        refine iff_of_false (fun heq => hnew ?_) fun hall => hmem.2 (hall.1 f hmem.1 he)
        rw [← (List.cons.inj heq).1]
        exact List.mem_map_of_mem hmem.1
    · have hlines : linesOf (e :: es) = e :: linesOf es :=
        List.filter_cons_of_pos (by simpa using he)
      have htables : tablesIn (e :: es) = tablesIn es := List.filter_cons_of_neg (by simp [he])
      rw [hlines, htables, hkeys, hkeys, List.cons_append, List.cons_inj_right, ih hnodup]
      exact ⟨fun hpairs => ⟨fun f _ hhead => absurd hhead he, hpairs⟩, And.right⟩

/-! ### What holds everywhere -/

/-- Whether a property of containers does not depend on the order of the text. -/
structure OrderFree (P : Value → Prop) : Prop where
  object (es : List (String × Value)) : P (.object es) → P (.object (arrangedEntries es))
  array (xs ys : List Value) : P (.array xs) → P (.array ys)

mutual

/-- **What holds everywhere** in a value holds everywhere in the order of its text, if the order
    does not matter to it. -/
theorem every_arranged {P : Value → Prop} (hP : OrderFree P) : ∀ {v : Value}, Every P v →
    Every P (arranged v)
  | .null, hv => hv
  | .bool _, hv => hv
  | .number _, hv => hv
  | .string _, hv => hv
  | .array items, hv => by
    rw [arranged]
    split
    · exact ⟨hP.array _ _ hv.1, everyItem_arranged hP hv.2⟩
    · exact hv
  | .object es, hv => ⟨hP.object es hv.1, Value.everyEntry_iff.mpr fun e he => by
      rcases List.mem_append.mp he with he | he
      · exact Value.everyEntry_iff.mp hv.2 e (List.mem_filter.mp he).1
      · exact Value.everyEntry_iff.mp (everyEntry_arrangedTables hP hv.2) e he⟩

/-- What holds everywhere in the tables of an array holds everywhere in them as they are
    arranged. -/
theorem everyItem_arranged {P : Value → Prop} (hP : OrderFree P) : ∀ {items : List Value},
    EveryItem P items → EveryItem P (arrangedRows items)
  | [], _ => trivial
  | _ :: _, hv => ⟨every_arranged hP hv.1, everyItem_arranged hP hv.2⟩

/-- What holds everywhere in the entries of a table holds everywhere in those with headers as
    they are arranged. -/
theorem everyEntry_arrangedTables {P : Value → Prop} (hP : OrderFree P) :
    ∀ {es : List (String × Value)}, EveryEntry P es → EveryEntry P (arrangedTables es)
  | [], _ => trivial
  | (_, _) :: _, hes => by
    rw [arrangedTables]
    split
    · exact ⟨every_arranged hP hes.1, everyEntry_arrangedTables hP hes.2⟩
    · exact everyEntry_arrangedTables hP hes.2

end

/-- What can be written everywhere in a value can be written everywhere in the order of its text. -/
theorem every_isWritable_arranged {v : Value} (hv : Every IsWritable v) :
    Every IsWritable (arranged v) :=
  every_arranged ⟨fun _ h => ⟨keys_arranged_nodup h.1, h.2⟩, fun _ _ h => h⟩ hv

/-! ### Structural equality

Structural equality looks entries up by their keys, and so it does not see their order.
-/

/-- Each entry has a line or a header, so that none is lost and none comes twice. -/
theorem length_arrangedEntries (es : List (String × Value)) :
    (arrangedEntries es).length = es.length := by
  have hlines : (arrangedEntries es).length = (Entries.keys (arrangedEntries es)).length := by
    simp [Entries.keys]
  rw [hlines, keys_arranged, Entries.keys, Entries.keys, ← List.map_append, List.length_map]
  have hsplit := (List.filter_append_perm (fun e : String × Value => ! hasHeader e.2) es).length_eq
  simp only [Bool.not_not] at hsplit
  exact hsplit

mutual

/-- **A value is structurally equal** to itself in the order of its text. -/
theorem same_arranged : ∀ {v : Value}, v.WellFormed → v.FloatsFinite → (arranged v).same v = true
  | .null, _, _ => rfl
  | .bool _, hv, hfloat => Value.same_self hv.keysDistinct hfloat
  | .number _, hv, hfloat => Value.same_self hv.keysDistinct hfloat
  | .string _, hv, hfloat => Value.same_self hv.keysDistinct hfloat
  | .array items, hv, hfloat => by
    rw [arranged]
    split
    · exact sameItems_arranged hv.2 hfloat.2
    · exact Value.same_self hv.keysDistinct hfloat
  | .object es, hv, hfloat => by
    have hlength : ((arrangedEntries es).length == es.length) = true :=
      beq_iff_eq.mpr (length_arrangedEntries es)
    rw [arranged, Value.same]
    refine Bool.and_eq_true_iff.mpr ⟨hlength, Value.sameEntries_iff.mpr fun e he => ?_⟩
    rcases List.mem_append.mp he with he | he
    · -- an entry on a line is its own partner
      have hmem : e ∈ es := (List.mem_filter.mp he).1
      exact ⟨e.2, Entries.find_of_mem hv.1 hmem,
        Value.same_self (Value.everyEntry_iff.mp (Value.WellFormed.keysDistinct hv).2 e hmem)
          (Value.everyEntry_iff.mp hfloat.2 e hmem)⟩
    · obtain ⟨w, hmem, hsame⟩ := same_arrangedTables hv.2 hfloat.2 e he
      exact ⟨w, Entries.find_of_mem hv.1 hmem, hsame⟩

/-- The items of an array are structurally equal to themselves as they are arranged. -/
theorem sameItems_arranged : ∀ {items : List Value}, EveryItem IsWellFormed items →
    EveryItem IsFloatFinite items → Value.sameItems (arrangedRows items) items = true
  | [], _, _ => rfl
  | _ :: _, hv, hfloat => by
    rw [arrangedRows, Value.sameItems, same_arranged hv.1 hfloat.1,
      sameItems_arranged hv.2 hfloat.2]
    rfl

/-- An entry of a table as it is arranged has the key of one that was there, and a value that is
    structurally equal to it. -/
theorem same_arrangedTables : ∀ {es : List (String × Value)}, EveryEntry IsWellFormed es →
    EveryEntry IsFloatFinite es →
      ∀ e ∈ arrangedTables es, ∃ v, (e.1, v) ∈ es ∧ e.2.same v = true
  | [], _, _ => by simp [arrangedTables]
  | (k, v) :: rest, hv, hfloat => by
    intro e he
    rw [arrangedTables] at he
    split at he
    · rcases List.mem_cons.mp he with rfl | he
      · exact ⟨v, List.mem_cons_self, same_arranged hv.1 hfloat.1⟩
      · obtain ⟨w, hmem, hsame⟩ := same_arrangedTables hv.2 hfloat.2 e he
        exact ⟨w, List.mem_cons_of_mem _ hmem, hsame⟩
    · obtain ⟨w, hmem, hsame⟩ := same_arrangedTables hv.2 hfloat.2 e he
      exact ⟨w, List.mem_cons_of_mem _ hmem, hsame⟩

end

/-! ### What is defined -/

/-- The tree of entries in two parts is the trees of the parts. -/
theorem ofEntries_append (es fs : List (String × Value)) :
    Item.ofEntries (es ++ fs) = Item.ofEntries es ++ Item.ofEntries fs := by
  induction es with
  | nil => rfl
  | cons e es ih =>
    obtain ⟨k, v⟩ := e
    rw [List.cons_append, Item.ofEntries, Item.ofEntries, ih]
    rfl

/-- The finished array of some tables is the array of the finished tables. -/
theorem toItem_tablesOf {rows : List (Entries Draft)} (hne : rows ≠ []) :
    (tablesOf rows).toItem = .array (rows.map fun row => .table (Draft.toEntries row)) := by
  obtain ⟨before, last, rfl⟩ := (List.eq_nil_or_concat rows).resolve_left hne
  rw [List.concat_eq_append, tablesOf, Draft.toItem, Draft.toTables_eq_map]
  simp

mutual

/-- **What the sections of a value define** is the tree of the arranged value. -/
theorem toItem_draftOf : ∀ {v : Value}, hasHeader v = true →
    (draftOf v).toItem = Item.ofValue (arranged v)
  | .null, h => by cases h
  | .bool _, h => by cases h
  | .number _, h => by cases h
  | .string _, h => by cases h
  | .array items, h => by
    have hall : ∀ v ∈ items, isTable v = true := List.all_eq_true.mp (Bool.and_eq_true_iff.mp h).2
    rw [draftOf, toItem_tablesOf (rowDrafts_ne_nil h), toItems_rowDrafts hall, arranged, if_pos h]
    rfl
  | .object es, _ => by
    rw [draftOf, Draft.toItem, Draft.toEntries_append, toEntries_valueDrafts,
      toEntries_tableDrafts es,
      ← ofEntries_append]
    rfl

/-- What the sections of the tables in a table define is the tree of those tables as they are
    arranged. -/
theorem toEntries_tableDrafts : ∀ es : List (String × Value),
    Draft.toEntries (tableDrafts es) = Item.ofEntries (arrangedTables es)
  | [] => rfl
  | (k, v) :: rest => by
    rw [tableDrafts, arrangedTables]
    split
    · next hv => rw [Draft.toEntries, Item.ofEntries, toItem_draftOf hv, toEntries_tableDrafts rest]
    · exact toEntries_tableDrafts rest

/-- What the sections of the tables of an array define is the tree of those tables as they are
    arranged. -/
theorem toItems_rowDrafts : ∀ {items : List Value}, (∀ v ∈ items, isTable v = true) →
    (rowDrafts items).map (fun row => .table (Draft.toEntries row))
      = Item.ofItems (arrangedRows items)
  | [], _ => rfl
  | .object es :: rest, h => by
    rw [rowDrafts, List.map_cons, toItems_rowDrafts (List.forall_mem_cons.mp h).2,
      Draft.toEntries_append,
      toEntries_valueDrafts, toEntries_tableDrafts es, ← ofEntries_append]
    rfl
  | .null :: _, h => by cases h _ List.mem_cons_self
  | .bool _ :: _, h => by cases h _ List.mem_cons_self
  | .number _ :: _, h => by cases h _ List.mem_cons_self
  | .string _ :: _, h => by cases h _ List.mem_cons_self
  | .array _ :: _, h => by cases h _ List.mem_cons_self

end

/-- What the lines and the sections of a table define is the tree of its entries in the order of
    its text. -/
theorem toEntries_drafts (es : List (String × Value)) :
    Draft.toEntries (valueDrafts (linesOf es) ++ tableDrafts es)
      = Item.ofEntries (arrangedEntries es) := by
  rw [Draft.toEntries_append, toEntries_valueDrafts, toEntries_tableDrafts, ← ofEntries_append]
  rfl

end SchemaEmbed.Toml
