import SchemaEmbed.Proofs.Reordered
import SchemaEmbed.Proofs.Run.Steps

namespace SchemaEmbed

/-!
# Embedding a schema into a bundle

A schema is put under its key, unless the value there equals it already, up to the order of
entries. So embedding either leaves a bundle exactly as it is or makes one update of its entries,
and what it does is said by the laws of such updates.

* `every_embedded` — what holds everywhere in a bundle and a schema holds everywhere after
  embedding;
* `holds_embedded` — a schema is held once it is embedded;
* `find_embedded_ne`, `keys_embedded` — other keys keep their values, and all keep their order;
* `embedded_comm` — schemas can be embedded under two keys in either order, but for the order of
  the keys where both are new;
* `Document.embedState` — what embedding returns together with the document it leaves;
* `embed_frames` — **what embedding does** to a document.
-/

variable {key key' : String} {schema schema' : Value} {entries : Entries Value}

/-! ### Bundles with the schema embedded

What is said of a value at every depth, such as that the keys of its mappings are different, passes
from the bundle and the schema to the result.
-/

/-- What holds everywhere in a bundle and a schema holds everywhere after embedding, if it holds of
    the mapping itself. -/
theorem every_embedded {P : Value → Prop} (key : String) (hschema : schema.Every P)
    (h : (Value.object entries).Every P) (hobject : P (.object (Entries.put key schema entries))) :
    (Value.object (embedded key schema entries)).Every P := by
  unfold embedded
  split
  · exact h
  · exact ⟨hobject, Value.everyEntry_put hschema h.2 key⟩

/-- Embedding keeps keys different and integers in range. -/
theorem wellFormed_embedded (key : String) (hschema : schema.WellFormed)
    (h : (Value.object entries).WellFormed) :
    (Value.object (embedded key schema entries)).WellFormed :=
  every_embedded key hschema h (Entries.keys_put_nodup h.1 key schema)

/-- Embedding a schema without floats brings no float into a bundle without any. -/
theorem floatFree_embedded (key : String) (hschema : schema.FloatFree)
    (h : (Value.object entries).FloatFree) :
    (Value.object (embedded key schema entries)).FloatFree :=
  every_embedded key hschema h trivial

/-- Embedding keeps all floats finite. -/
theorem floatsFinite_embedded (key : String) (hschema : schema.FloatsFinite)
    (h : (Value.object entries).FloatsFinite) :
    (Value.object (embedded key schema entries)).FloatsFinite :=
  every_embedded key hschema h trivial

/-! ### One key

The value under the key is compared with the schema, and only if they differ is there an update.
-/

/-- A schema is held if the value under the key equals it, where equality does not see the order
    of entries. -/
theorem holds_iff : Document.holds entries key schema = true ↔
    ∃ v, Entries.find? key entries = some v ∧ v.same schema = true := by
  rw [Document.holds, Option.any_eq_true]

/-- Where the schema is held, the entries stay as they are, also in their order. -/
theorem embedded_of_holds (h : Document.holds entries key schema = true) :
    embedded key schema entries = entries := by
  rw [embedded, if_pos h]

/-- Where the schema is not held, it is put under the key. -/
theorem embedded_of_not_holds (h : Document.holds entries key schema = false) :
    embedded key schema entries = Entries.put key schema entries := by
  rw [embedded, h]
  rfl

/-- A schema is held once it is embedded, since it equals itself: its keys are different and its
    floats finite. -/
theorem holds_embedded (key : String) (entries : Entries Value) (hschema : schema.KeysDistinct)
    (hfinite : schema.FloatsFinite) :
    Document.holds (embedded key schema entries) key schema = true := by
  unfold embedded
  split
  · next h => exact h
  · exact holds_iff.mpr ⟨schema, by rw [Entries.find_put, if_pos rfl],
      Value.same_self hschema hfinite⟩

/-- Every key but that of the schema keeps its value. -/
theorem find_embedded_ne {k : String} (hk : k ≠ key) (schema : Value) (entries : Entries Value) :
    Entries.find? k (embedded key schema entries) = Entries.find? k entries := by
  unfold embedded
  split
  · rfl
  · rw [Entries.find_put, if_neg hk.symm]

/-- The keys of a bundle after one was set: it keeps its place, or is the last. -/
def keysWith (key : String) (keys : List String) : List String :=
  if key ∈ keys then keys else keys ++ [key]

/-- **Embedding** keeps the keys in order. -/
theorem keys_embedded (key : String) (schema : Value) (entries : Entries Value) :
    Entries.keys (embedded key schema entries) = keysWith key (Entries.keys entries) := by
  unfold embedded
  split
  · next hholds =>
    -- a schema that is held stands under the key
    obtain ⟨v, hv, -⟩ := holds_iff.mp hholds
    have hmem : key ∈ Entries.keys entries := Entries.find_isSome_iff.mp (by rw [hv]; rfl)
    rw [keysWith, if_pos hmem]
  · exact Entries.keys_put key schema entries

/-- What embedding a schema makes of the entries of a bundle, with the flag that it returns. -/
structure Embeds (key : String) (schema : Value) (changed : Bool) (before after : Entries Value) :
    Prop where
  /-- The value under the key equals the schema. -/
  held : ∃ v, Entries.find? key after = some v ∧ v.same schema = true
  /-- Every other key has the value it had. -/
  others : ∀ k, k ≠ key → Entries.find? k after = Entries.find? k before
  /-- The keys are in the order they were in, a new one at the end. -/
  keys : Entries.keys after = keysWith key (Entries.keys before)
  /-- Unchanged entries are the same, down to the order of entries within values. -/
  unchanged : changed = false → after = before
  /-- Changed ones have the schema itself. -/
  replaced : changed = true → Entries.find? key after = some schema

/-- **Embedding** does what `Embeds` says, with the flag that tells whether the schema was not
    held. -/
theorem embedded_embeds (key : String) (entries : Entries Value) (hschema : schema.KeysDistinct)
    (hfinite : schema.FloatsFinite) :
    Embeds key schema (! Document.holds entries key schema) entries
      (embedded key schema entries) where
  held := holds_iff.mp (holds_embedded key entries hschema hfinite)
  others _ hk := find_embedded_ne hk schema entries
  keys := keys_embedded key schema entries
  unchanged h := embedded_of_holds (by simpa using h)
  replaced h := by
    rw [embedded_of_not_holds (by simpa using h), Entries.find_put, if_pos rfl]

/-! ### Two keys

Under two different keys neither embedding sees what the other one did. Only the order of two new
keys tells which was first.
-/

/-- What is held under another key does not depend on embedding. -/
theorem holds_embedded_ne (hne : key' ≠ key) :
    Document.holds (embedded key schema entries) key' schema'
      = Document.holds entries key' schema' := by
  rw [Document.holds, find_embedded_ne hne, Document.holds]

/-- **Two keys**: the order of embedding does not count, but for the order of the keys where both
    are new. -/
theorem embedded_comm (schema schema' : Value) (entries : Entries Value) (hne : key' ≠ key) :
    embedded key' schema' (embedded key schema entries)
        = embedded key schema (embedded key' schema' entries)
      ∨ key ∉ Entries.keys entries ∧ key' ∉ Entries.keys entries
        ∧ embedded key' schema' (embedded key schema entries)
          = entries ++ [(key, schema), (key', schema')]
        ∧ embedded key schema (embedded key' schema' entries)
          = entries ++ [(key', schema'), (key, schema)] := by
  cases hholds : Document.holds entries key schema with
  | true =>
    rw [embedded_of_holds hholds, embedded_of_holds ((holds_embedded_ne hne.symm).trans hholds)]
    exact .inl rfl
  | false =>
    cases hholds' : Document.holds entries key' schema' with
    | true =>
      rw [embedded_of_holds hholds', embedded_of_holds ((holds_embedded_ne hne).trans hholds')]
      exact .inl rfl
    | false =>
      -- both are put, and what is put under the one key is no matter to the other
      rw [embedded_of_not_holds ((holds_embedded_ne hne).trans hholds'),
        embedded_of_not_holds ((holds_embedded_ne hne.symm).trans hholds),
        embedded_of_not_holds hholds, embedded_of_not_holds hholds']
      by_cases hmem : key' ∈ Entries.keys entries ∨ key ∈ Entries.keys entries
      · exact .inl (Entries.put_comm hne schema' schema hmem)
      · obtain ⟨hkey', hkey⟩ := not_or.mp hmem
        exact .inr ⟨hkey, hkey', Entries.put_put_of_not_mem hne schema schema' hkey hkey',
          Entries.put_put_of_not_mem hne.symm schema' schema hkey' hkey⟩

/-! ### Documents

A document keeps its path and its format. A failure leaves it alone, since only a mapping can take
a schema.
-/

namespace Document

/-- What embedding a schema returns, and the document as it is afterwards. -/
def embedState (d : Document) (key : String) (schema : Value) : Except Failure Bool × Document :=
  match d.embed key schema with
  | .ok (changed, d') => (.ok changed, d')
  | .error f => (.error f, d)

/-- What `embedState` returns is the flag of `embed`, or its failure. -/
theorem embedState_fst {d : Document} (key : String) (schema : Value) :
    (d.embedState key schema).1 = (d.embed key schema).map Prod.fst := by
  rw [embedState]
  cases d.embed key schema <;> rfl

/-- A schema can be embedded into a mapping, whatever its entries are. -/
theorem embedState_object {d : Document} (h : d.value = .object entries) (key : String)
    (schema : Value) :
    d.embedState key schema = (.ok (! holds entries key schema),
      { d with value := .object (embedded key schema entries) }) := by
  rw [embedState, embed_eq_ok_iff.mpr ⟨entries, h, rfl, rfl⟩]

/-- A schema cannot be embedded into anything else, and the failure names the kind of the value. -/
theorem embedState_other {d : Document} (h : ∀ entries, d.value ≠ .object entries) (key : String)
    (schema : Value) :
    d.embedState key schema = (.error (.notMapping d.path d.value.kindName), d) := by
  obtain ⟨path, f, v⟩ := d
  cases v with
  | object entries => exact absurd rfl (h entries)
  | _ => rfl

/-- A document that is reported as unchanged is the same as before. -/
theorem embedState_unchanged {d : Document} (h : (d.embedState key schema).1 = .ok false) :
    d.embedState key schema = (.ok false, d) := by
  obtain ⟨path, f, v⟩ := d
  cases v with
  | object entries =>
    rw [embedState_object rfl] at h ⊢
    have hholds : holds entries key schema = true := by simpa using h
    rw [hholds, embedded_of_holds hholds]
    rfl
  | _ => cases h

/-- Whether a schema can be embedded under each of two keys in either order: the flags do not
    depend on the order, and neither does the document, unless both keys are new; then they stand
    at the end in the order of embedding. -/
structure EmbedsCommute (d : Document) (key : String) (schema : Value) (key' : String)
    (schema' : Value) : Prop where
  first : ((d.embedState key' schema').2.embedState key schema).1 = (d.embedState key schema).1
  second : ((d.embedState key schema).2.embedState key' schema').1 = (d.embedState key' schema').1
  documents :
    ((d.embedState key schema).2.embedState key' schema').2
        = ((d.embedState key' schema').2.embedState key schema).2
      ∨ ∃ entries, d.value = .object entries
        ∧ key ∉ Entries.keys entries ∧ key' ∉ Entries.keys entries
        ∧ ((d.embedState key schema).2.embedState key' schema').2
          = { d with value := .object (entries ++ [(key, schema), (key', schema')]) }
        ∧ ((d.embedState key' schema').2.embedState key schema).2
          = { d with value := .object (entries ++ [(key', schema'), (key, schema)]) }

/-- Schemas can be embedded under two keys of a mapping in either order. -/
theorem embedsCommute {d : Document} (h : d.value = .object entries) (hne : key' ≠ key)
    (schema schema' : Value) : d.EmbedsCommute key schema key' schema' := by
  have hone : d.embedState key schema = (.ok (! holds entries key schema), _) :=
    embedState_object h key schema
  have htwo : d.embedState key' schema' = (.ok (! holds entries key' schema'), _) :=
    embedState_object h key' schema'
  -- the second embedding finds under its key what the first one did
  have honeTwo : (d.embedState key schema).2.embedState key' schema'
      = (.ok (! holds entries key' schema'),
        { d with value := .object (embedded key' schema' (embedded key schema entries)) }) := by
    rw [hone, embedState_object rfl, holds_embedded_ne hne]
  have htwoOne : (d.embedState key' schema').2.embedState key schema
      = (.ok (! holds entries key schema),
        { d with value := .object (embedded key schema (embedded key' schema' entries)) }) := by
    rw [htwo, embedState_object rfl, holds_embedded_ne hne.symm]
  refine ⟨by rw [htwoOne, hone], by rw [honeTwo, htwo], ?_⟩
  rw [honeTwo, htwoOne]
  rcases embedded_comm schema schema' entries hne with heq | ⟨hkey, hkey', hleft, hright⟩
  · exact .inl (by rw [heq])
  · exact .inr ⟨entries, h, hkey, hkey', by rw [hleft], by rw [hright]⟩

/-- **What embedding does to a document**, for a schema as documents have it. What is no mapping is
    refused with its kind and left alone. In a mapping:

* the value under the key equals the schema, other keys keep their values and all keys their
  order, a new one at the end; path and format stay, and so does everything if nothing is reported
  as changed, while the schema itself is there if something is;
* embedding the schema again changes nothing;
* schemas can be embedded under two keys in either order. -/
theorem embed_frames (d : Document) (key : String) {schema : Value}
    (hschema : schema.KeysDistinct) (hfinite : schema.FloatsFinite) :
    ((∀ entries, d.value ≠ .object entries) →
      d.embedState key schema = (.error (.notMapping d.path d.value.kindName), d))
    ∧ ∀ entries, d.value = .object entries → ∃ changed after,
      d.embedState key schema = (.ok changed, { d with value := .object after })
      ∧ Embeds key schema changed entries after
      ∧ Document.embedState { d with value := .object after } key schema
        = (.ok false, { d with value := .object after })
      ∧ ∀ key' schema', key' ≠ key → d.EmbedsCommute key schema key' schema' := by
  refine ⟨fun h => embedState_other h key schema, fun entries h => ⟨_, _, embedState_object h key
    schema, embedded_embeds key entries hschema hfinite, ?_, fun key' schema' hne =>
      embedsCommute h hne schema schema'⟩⟩
  have hholds := holds_embedded key entries hschema hfinite
  rw [embedState_object rfl, hholds, embedded_of_holds hholds]
  rfl

/-- A schema that is held in another order stays in that order. -/
theorem embed_keeps_order :
    let stored := Value.object [("a", .null), ("b", .bool true)]
    let schema := Value.object [("b", .bool true), ("a", .null)]
    let d : Document := ⟨"b.json", Format.json, .object [("k", stored), ("x", .null)]⟩
    d.embedState "k" schema = (.ok false, d)
      ∧ Embeds "k" schema false [("k", stored), ("x", .null)] [("k", stored), ("x", .null)] := by
  intro stored schema d
  have hschema : schema.KeysDistinct := by decide
  have hfinite : schema.FloatsFinite := by decide
  obtain ⟨-, hmapping⟩ := embed_frames d "k" hschema hfinite
  obtain ⟨changed, after, hstate, hembeds, -⟩ := hmapping _ rfl
  have hrun : d.embedState "k" schema = (.ok false, d) := rfl
  obtain ⟨hchanged, hafter⟩ := Prod.ext_iff.mp (hstate.symm.trans hrun)
  cases hchanged
  cases hafter
  exact ⟨hrun, hembeds⟩

end Document

end SchemaEmbed
