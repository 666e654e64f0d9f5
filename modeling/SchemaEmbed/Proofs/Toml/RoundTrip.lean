import SchemaEmbed.Format.Builtin
import SchemaEmbed.Proofs.Toml.Arranged

namespace SchemaEmbed.Toml

/-!
# TOML is read as it was written

The steps of the reader are put together: lines are read, tables assembled from them, tables that
spell date-times replaced, and the tree is copied. What was written comes through all of them if
nothing in it is beyond what the reader admits.

* `toValue_ofValue` — the tree of a value stands for it;
* `reviveNested_ofValue` — it stays what it is, unless a table in it begins with the key by which
  tables stand for date-times; then it can be held nowhere;
* `IsLegible` — what it takes for a text to be read back;
* `toml_round_trip` — what TOML reads back, and what not.
-/

open Value (Every EveryItem EveryEntry IsWellFormed IsFloatFinite)

/-! ### Trees of values

The reader copies the tree that it has made, and refuses what a document cannot hold. A tree that
was made from a writable value has nothing of the kind.
-/

mutual

/-- **The tree of a value** stands for it: copying the tree gives the value. -/
theorem toValue_ofValue : ∀ {v : Value}, Every IsWritable v → ∀ location : String,
    (Item.ofValue v).toValue location = .ok v
  | .null, hv, _ => hv.2.2.elim
  | .bool _, _, _ => rfl
  | .number (.int _), _, _ => rfl
  | .number (.float _), hv, _ => if_pos hv.2.1
  | .string _, _, _ => rfl
  | .array items, hv, location => by
    rw [Item.ofValue, Item.toValue, toValues_ofItems hv.2]
    rfl
  | .object es, hv, location => by
    rw [Item.ofValue, Item.toValue, toFields_ofEntries hv.2]
    rfl

/-- The trees of the items of a sequence stand for them. -/
theorem toValues_ofItems : ∀ {items : List Value}, EveryItem IsWritable items →
    ∀ (location : String) (index : Nat),
      Item.toValues location index (Item.ofItems items) = .ok items
  | [], _, _, _ => rfl
  | v :: rest, hv, location, index => by
    rw [Item.ofItems, Item.toValues, toValue_ofValue hv.1, ok_bind, toValues_ofItems hv.2]
    rfl

/-- The trees of the entries of a mapping stand for them. -/
theorem toFields_ofEntries : ∀ {es : List (String × Value)}, EveryEntry IsWritable es →
    ∀ location : String, Item.toFields location (Item.ofEntries es) = .ok es
  | [], _, _ => rfl
  | (k, v) :: rest, hv, location => by
    rw [Item.ofEntries, Item.toFields, toValue_ofValue hv.1, ok_bind, toFields_ofEntries hv.2]
    rfl

end

/-! ### Tables that stand for date-times

The library behind the reader passes a date-time on as a table with one key that nobody would
choose. If a document has a table that begins with this very key, it is taken for a date-time, or
refused because it spells none. Either way it is not held, and this is all that matters here. The
root is not looked at.
-/

/-- Whether a value itself is no mapping that would be taken for a date-time: its first key is
    not the one that marks these. -/
def IsUndated : Value → Prop
  | .object ((k, _) :: _) => k ≠ dateTimeKey
  | _ => True

instance : DecidablePred IsUndated
  | .object ((k, _) :: _) => inferInstanceAs (Decidable (k ≠ dateTimeKey))
  | .null | .bool _ | .number _ | .string _ | .array _ | .object [] => .isTrue trivial

/-- Whether a tree can be held nowhere. -/
def Item.Unheld (item : Item) : Prop := ∀ location, ∃ o, item.toValue location = .error o

/-- Whether entries can be held nowhere. -/
def FieldsUnheld (fields : List (String × Item)) : Prop :=
  ∀ location, ∃ o, Item.toFields location fields = .error o

/-- Whether items can be held nowhere. -/
def ItemsUnheld (items : List Item) : Prop :=
  ∀ location index, ∃ o, Item.toValues location index items = .error o

/-- Whether something is kept on a condition, and cannot be held otherwise. -/
def KeptIf {α : Type} (fits : Prop) (unheld : α → Prop) (r : Except Fault α) (a : α) : Prop :=
  (fits → r = .ok a) ∧ (¬ fits → ∀ b, r = .ok b → unheld b)

/-- A table can be held nowhere if its entries cannot. -/
theorem FieldsUnheld.table {fields : List (String × Item)} (h : FieldsUnheld fields) :
    (Item.table fields).Unheld := by
  intro location
  obtain ⟨o, ho⟩ := h location
  exact ⟨o, by rw [Item.toValue, ho]; rfl⟩

/-- Entries can be held nowhere if one of them cannot, whichever it is: copying stops at the
    first one that is refused. -/
theorem FieldsUnheld.cons (k : String) {item : Item} {fields : List (String × Item)}
    (h : item.Unheld ∨ FieldsUnheld fields) : FieldsUnheld ((k, item) :: fields) := by
  intro location
  rw [Item.toFields]
  cases hitem : item.toValue (Location.entry location k) with
  | error o => exact ⟨o, rfl⟩
  | ok v =>
    have hfields : FieldsUnheld fields := by
      refine h.resolve_left fun hunheld => ?_
      obtain ⟨o, ho⟩ := hunheld (Location.entry location k)
      rw [ho] at hitem
      cases hitem
    obtain ⟨o, ho⟩ := hfields location
    exact ⟨o, by rw [ho]; rfl⟩

/-- Items can be held nowhere if one of them cannot. -/
theorem ItemsUnheld.cons {item : Item} {items : List Item} (h : item.Unheld ∨ ItemsUnheld items) :
    ItemsUnheld (item :: items) := by
  intro location index
  rw [Item.toValues]
  cases hitem : item.toValue (Location.item location index) with
  | error o => exact ⟨o, rfl⟩
  | ok v =>
    have hitems : ItemsUnheld items := by
      refine h.resolve_left fun hunheld => ?_
      obtain ⟨o, ho⟩ := hunheld (Location.item location index)
      rw [ho] at hitem
      cases hitem
    obtain ⟨o, ho⟩ := hitems location (index + 1)
    exact ⟨o, by rw [ho]; rfl⟩

/-- What is made of two parts is kept if both are. If one of them is not, what is made cannot be
    held because that part cannot. -/
theorem KeptIf.bind {α β γ : Type} {fits fits' : Prop} {p : α → Prop} {q : β → Prop} {u : γ → Prop}
    {r : Except Fault α} {a : α} {r' : Except Fault β} {b : β} (h : KeptIf fits p r a)
    (h' : KeptIf fits' q r' b) (f : α → β → γ) (hf : ∀ x y, p x ∨ q y → u (f x y)) :
    KeptIf (fits ∧ fits') u (r >>= fun x => r' >>= fun y => .ok (f x y)) (f a b) := by
  constructor
  · rintro ⟨hfits, hfits'⟩
    rw [h.1 hfits, ok_bind, h'.1 hfits']
    rfl
  · intro hnot c hc
    obtain ⟨x, hx, hc⟩ := bind_eq_ok_iff.mp hc
    obtain ⟨y, hy, hc⟩ := bind_eq_ok_iff.mp hc
    obtain rfl := Except.ok.inj hc
    apply hf
    -- the part that does not fit is the second one if the first fits
    by_cases hfits : fits
    · exact .inr (h'.2 (fun hfits' => hnot ⟨hfits, hfits'⟩) y hy)
    · exact .inl (h.2 hfits x hx)

/-- A table that begins with another key stays a table, in which each entry is looked at. -/
theorem reviveNested_table {key : String} (hkey : key ≠ dateTimeKey) (item : Item)
    (entries : List (String × Item)) :
    Item.reviveNested (.table ((key, item) :: entries))
      = (Item.reviveEntries ((key, item) :: entries)).map .table := by
  rw [Item.reviveNested, if_neg hkey, Item.reviveEntries]
  cases item.reviveNested with
  | error e => rfl
  | ok item' => cases Item.reviveEntries entries <;> rfl

/-- A table that stands for a date-time becomes one, which can be held nowhere. -/
theorem spelledDateTime_unheld {item item' : Item} (h : item.spelledDateTime = .ok item') :
    item'.Unheld := by
  obtain ⟨d, rfl⟩ : ∃ d, item' = .dateTime d := by
    unfold Item.spelledDateTime at h
    split at h
    · split at h
      · exact ⟨_, (Except.ok.inj h).symm⟩
      · cases h
    · cases h
  exact fun location => ⟨_, rfl⟩

mutual

/-- **A tree stays what it is**, unless a table in it would be taken for a date-time. Then it may
    still be revived to a tree, but to none that a document holds. -/
theorem reviveNested_ofValue : ∀ v : Value,
    KeptIf (Every IsUndated v) Item.Unheld (Item.ofValue v).reviveNested (Item.ofValue v)
  | .null => ⟨fun _ => rfl, fun h => absurd trivial h⟩
  | .bool _ => ⟨fun _ => rfl, fun h => absurd trivial h⟩
  | .number (.int _) => ⟨fun _ => rfl, fun h => absurd trivial h⟩
  | .number (.float _) => ⟨fun _ => rfl, fun h => absurd trivial h⟩
  | .string _ => ⟨fun _ => rfl, fun h => absurd trivial h⟩
  | .array items => by
    -- an array is looked at item by item, and cannot be held if one of them cannot
    have hitems := reviveItems_ofItems items
    rw [Item.ofValue, Item.reviveNested]
    refine ⟨fun h => by rw [hitems.1 h.2]; rfl, fun h item hitem => ?_⟩
    obtain ⟨revived, hrevived, rfl⟩ := map_eq_ok_iff.mp hitem
    intro location
    obtain ⟨o, ho⟩ := hitems.2 (fun hall => h ⟨trivial, hall⟩) revived hrevived location 0
    exact ⟨o, by rw [Item.toValue, ho]; rfl⟩
  | .object [] => ⟨fun _ => rfl, fun h => absurd ⟨trivial, trivial⟩ h⟩
  | .object ((k, v) :: rest) => by
    have hentries := reviveEntries_ofEntries ((k, v) :: rest)
    -- only the first key decides what the table is taken for
    by_cases hk : k = dateTimeKey
    · rw [Item.ofValue, Item.ofEntries, Item.reviveNested, if_pos hk]
      exact ⟨fun h => absurd hk h.1, fun _ item hitem => spelledDateTime_unheld hitem⟩
    · rw [Item.ofValue, Item.ofEntries, reviveNested_table hk, ← Item.ofEntries]
      refine ⟨fun h => by rw [hentries.1 h.2]; rfl, fun h item hitem => ?_⟩
      obtain ⟨fields, hfields, rfl⟩ := map_eq_ok_iff.mp hitem
      exact (hentries.2 (fun hall => h ⟨hk, hall⟩) fields hfields).table

/-- The trees of items stay what they are, unless a table in one of them would be taken for a
    date-time. -/
theorem reviveItems_ofItems : ∀ items : List Value,
    KeptIf (EveryItem IsUndated items) ItemsUnheld (Item.reviveItems (Item.ofItems items))
      (Item.ofItems items)
  | [] => ⟨fun _ => rfl, fun h => absurd trivial h⟩
  | v :: rest =>
    (reviveNested_ofValue v).bind (reviveItems_ofItems rest) List.cons fun _ _ => ItemsUnheld.cons

/-- The trees of entries stay what they are, unless a table in one of them would be taken for a
    date-time. -/
theorem reviveEntries_ofEntries : ∀ es : List (String × Value),
    KeptIf (EveryEntry IsUndated es) FieldsUnheld (Item.reviveEntries (Item.ofEntries es))
      (Item.ofEntries es)
  | [] => ⟨fun _ => rfl, fun h => absurd trivial h⟩
  | (k, v) :: rest =>
    (reviveNested_ofValue v).bind (reviveEntries_ofEntries rest)
      (fun item fields => (k, item) :: fields)
      fun _ _ => FieldsUnheld.cons k

end

/-! ### Texts

What was written is a mapping, so the text is its lines and its tables. They are read and assembled
to the mapping in the order of the text, in which tables that stand for date-times are looked for.
-/

/-- A text that is written does not begin with a byte order mark, so the reader drops nothing. It
    begins with a key, a bracket, or not at all. -/
theorem dropByteOrderMark_tableChars (es : List (String × Value)) :
    dropByteOrderMark (tableChars es) = tableChars es := by
  unfold dropByteOrderMark
  split
  · next heq =>
    rcases tableChars_head es '\ufeff' (by rw [heq]; rfl) with h | h
    · exact absurd h (by decide)
    · exact absurd h (by decide)
  · rfl

/-- What it takes for the text of a mapping to be read back: every value fits on its line, every
    path in its header, and below the root no mapping begins with the key by which tables stand
    for date-times. -/
def IsLegible : Value → Prop
  | .object es => Fits es ∧ EveryEntry IsUndated (arrangedEntries es)
  | _ => False

instance : DecidablePred IsLegible
  | .object es => inferInstanceAs (Decidable (Fits es ∧ EveryEntry IsUndated (arrangedEntries es)))
  | .null | .bool _ | .number _ | .string _ | .array _ => .isFalse id

/-- What is written is a mapping without nulls, as its text. -/
theorem write_eq_ok_iff {v : Value} {text : String} :
    write v = .ok text ↔
      ∃ es, v = .object es ∧ v.Every IsPresent ∧ text = String.ofList (tableChars es) := by
  cases v with
  | object es =>
    unfold write
    cases hnull : findNull "" (.object es) with
    | none =>
      have hpresent := (findNull_eq_none_iff _ _).mp hnull
      simp [hpresent, eq_comm]
    | some location =>
      have hpresent : ¬ (Value.object es).Every IsPresent := fun h => by
        rw [(findNull_eq_none_iff _ _).mpr h] at hnull
        cases hnull
      simp [hpresent]
  | _ => simp [write]

/-- What a document is written as does not depend on its path: a mapping without nulls, as its
    text. -/
theorem serializeAt_eq_ok_iff {v : Value} {path text : String} :
    Format.toml.serializeAt path v = .ok text
      ↔ ∃ es, v = .object es ∧ v.Every IsPresent ∧ text = String.ofList (tableChars es) :=
  mapError_eq_ok_iff.trans (Iff.trans (b := serialize v = .ok text) Iff.rfl
    (mapError_eq_ok_iff.trans write_eq_ok_iff))

/-- What is read from a text that is a table is the value of the table, or the error about it. -/
theorem read_of_table {text : String} {entries : List (String × Item)}
    (h : readTable text = .ok entries) :
    read text = ((Item.table entries).toValue "").mapError .offence := by
  rw [read, h]
  rfl

section Written

variable {es : List (String × Value)} (hwell : (Value.object es).WellFormed)
  (hfinite : (Value.object es).FloatsFinite) (hpresent : (Value.object es).Every IsPresent)

include hwell hfinite hpresent

/-- In a mapping that is written every value is writable everywhere. -/
theorem everyEntry_isWritable : EveryEntry IsWritable es :=
  (Value.every_and hwell (Value.every_and hfinite hpresent)).2

/-- **The table of a text** is that of the mapping, if everything fits. -/
theorem readTable_tableChars :
    (Fits es → readTable (String.ofList (tableChars es))
        = Item.reviveEntries (Item.ofEntries (arrangedEntries es)))
      ∧ (¬ Fits es → ∃ e, readTable (String.ofList (tableChars es)) = .error e) := by
  -- the lines decide alone whether there is a table
  have hlines := readsLines_tableChars (everyEntry_isWritable hwell hfinite hpresent) _
    (Nat.lt_succ_self _)
  rw [readTable, String.toList_ofList, dropByteOrderMark_tableChars]
  constructor
  · intro hfits
    rw [hlines.1 hfits, ok_bind, assemble_lines hwell, ok_bind, toEntries_drafts]
  · intro hfits
    obtain ⟨e, he⟩ := hlines.2 hfits
    exact ⟨e, by rw [he]; rfl⟩

/-- **A text is read back** in its order if it is legible: its lines are read, no table is taken
    for a date-time, and the tree is copied. -/
theorem parse_tableChars (hlegible : IsLegible (.object es)) :
    parse (String.ofList (tableChars es)) = .ok (arranged (.object es)) := by
  have hwritable := Value.every_and hwell (Value.every_and hfinite hpresent)
  have htable := (readTable_tableChars hwell hfinite hpresent).1 hlegible.1
  rw [(reviveEntries_ofEntries _).1 hlegible.2] at htable
  have hvalue := toValue_ofValue (every_isWritable_arranged hwritable) ""
  rw [parse, read_of_table htable]
  exact mapError_eq_ok_iff.mpr (mapError_eq_ok_iff.mpr hvalue)

/-- A text that is not legible is not read at all. It fails at a line that does not fit, or else
    at a table that is taken for a date-time. -/
theorem parse_tableChars_error (hlegible : ¬ IsLegible (.object es)) :
    ∃ e, parse (String.ofList (tableChars es)) = .error e := by
  obtain ⟨hread, hfail⟩ := readTable_tableChars hwell hfinite hpresent
  have herror {e : Fault} (h : readTable (String.ofList (tableChars es)) = .error e) :
      ∃ e, parse (String.ofList (tableChars es)) = .error e :=
    ⟨_, by rw [parse, read, h]; rfl⟩
  by_cases hfits : Fits es
  · cases hrevived : Item.reviveEntries (Item.ofEntries (arrangedEntries es)) with
    | error e => exact herror ((hread hfits).trans hrevived)
    | ok fields =>
      -- the table of the text cannot be held
      have hunheld := (reviveEntries_ofEntries _).2 (fun h => hlegible ⟨hfits, h⟩) fields hrevived
      obtain ⟨o, ho⟩ := hunheld.table ""
      exact ⟨_, by rw [parse, read_of_table ((hread hfits).trans hrevived), ho]; rfl⟩
  · obtain ⟨e, he⟩ := hfail hfits
    exact herror he

end Written

/-! ### The round trip

Legibility does not ask how a text was made: it is a condition on the value alone, and it can be
decided. So each of the two examples below is one of the theorem.
-/

/-- **What is read** from the text of a value, if anything, is the value in the order of the text;
    and something is read exactly if the text is legible. -/
theorem parseAt_eq_ok_iff {v w : Value} (hv : v.WellFormed) (hfinite : v.FloatsFinite)
    {path text : String} (hwrite : Format.toml.serializeAt path v = .ok text) :
    Format.toml.parseAt path text = .ok w ↔ IsLegible v ∧ w = arranged v := by
  obtain ⟨es, rfl, hpresent, rfl⟩ := serializeAt_eq_ok_iff.mp hwrite
  have hparse : Format.toml.parseAt path (String.ofList (tableChars es)) = .ok w
      ↔ parse (String.ofList (tableChars es)) = .ok w := mapError_eq_ok_iff
  rw [hparse]
  by_cases hlegible : IsLegible (.object es)
  · rw [parse_tableChars hv hfinite hpresent hlegible, Except.ok.injEq]
    exact ⟨fun h => ⟨hlegible, h.symm⟩, fun h => h.2.symm⟩
  · obtain ⟨e, he⟩ := parse_tableChars_error hv hfinite hpresent hlegible
    rw [he]
    exact iff_of_false nofun fun h => hlegible h.1

/-- **What TOML reads back.** What is read from the text of a value is the value in the order of
    the text, which is structurally equal to it, exactly if the text is legible: its integers have
    64 bits with their sign, a value on one line nests at most eighty deep, a header has at most
    eighty keys, and no table below the root begins with the key by which tables stand for
    date-times. Otherwise reading fails. -/
theorem toml_round_trip {v : Value} (hv : v.WellFormed) (hfinite : v.FloatsFinite)
    {path text : String} (hwrite : Format.toml.serializeAt path v = .ok text) :
    (Format.toml.parseAt path text = .ok (arranged v) ↔ IsLegible v)
      ∧ (arranged v).same v = true
      ∧ ((∃ w, Format.toml.parseAt path text = .ok w) ↔ IsLegible v) := by
  have hread (w : Value) := parseAt_eq_ok_iff (w := w) hv hfinite hwrite
  refine ⟨(hread _).trans (and_iff_left rfl), ?_, ?_⟩
  · obtain ⟨es, rfl, -⟩ := serializeAt_eq_ok_iff.mp hwrite
    exact same_arranged hv hfinite
  · exact ⟨fun ⟨w, hw⟩ => ((hread w).mp hw).1, fun h => ⟨_, (hread _).mpr ⟨h, rfl⟩⟩⟩

/-- Tables before plain values, an array of tables, a table without lines of its own, keys and
    strings that need quotes, and a float are read back in the order of the text. -/
theorem toml_round_trip_tables :
    let v := Value.object [("t", .object [("x.y", .number (.float ⟨true, 1⟩))]),
      ("", .array [.string "a\nb\\", .string "c\"\"\""]),
      ("rows", .array [.object [("k", .object [("l", .object [])])], .object []]),
      ("n", .number (.int 9223372036854775807))]
    ∃ text, Format.toml.serializeAt "b.toml" v = .ok text
      ∧ Format.toml.parseAt "b.toml" text = .ok (arranged v) := by
  intro v
  have hv : v.WellFormed := by decide +kernel
  have hfinite : v.FloatsFinite := by decide +kernel
  have hlegible : IsLegible v := by decide +kernel
  obtain ⟨text, hwrite⟩ : ∃ text, Format.toml.serializeAt "b.toml" v = .ok text :=
    ⟨_, serializeAt_eq_ok_iff.mpr ⟨_, rfl, by decide +kernel, rfl⟩⟩
  exact ⟨text, hwrite, (toml_round_trip hv hfinite hwrite).1.mpr hlegible⟩

/-- An integer beyond 64 bits with its sign is written and then refused. -/
theorem toml_large_integer_refused :
    let v := Value.object [("a", .number (.int 9223372036854775808))]
    v.WellFormed ∧ v.FloatsFinite
      ∧ Format.toml.serializeAt "b.toml" v = .ok "a = 9223372036854775808\n"
      ∧ ∀ w, Format.toml.parseAt "b.toml" "a = 9223372036854775808\n" ≠ .ok w := by
  intro v
  have hv : v.WellFormed := by decide +kernel
  have hfinite : v.FloatsFinite := by decide +kernel
  have hwrite : Format.toml.serializeAt "b.toml" v = .ok "a = 9223372036854775808\n" := rfl
  have hillegible : ¬ IsLegible v := by decide +kernel
  exact ⟨hv, hfinite, hwrite, fun w hw =>
    hillegible ((parseAt_eq_ok_iff hv hfinite hwrite).mp hw).1⟩

end SchemaEmbed.Toml
