import SchemaEmbed.Proofs.Json.Shape
import SchemaEmbed.Proofs.Run.Json
import SchemaEmbed.Proofs.Toml.Order
import SchemaEmbed.Proofs.Toml.RoundTrip
import SchemaEmbed.Proofs.Yaml.DocumentOrder
import SchemaEmbed.Proofs.Yaml.Order

namespace SchemaEmbed

/-!
# The order of keys

* `HasKeys` — the keys of a mapping in order;
* `json_keys_reloaded` / `toml_keys_reloaded` / `yaml_keys_reloaded` — which keys a mapping has
  after it was written and read again;
* `keys_keep_order` — **loading and rewriting** keep the order of keys, but for merge keys and
  headers of tables that are there already on loading, and for plain values after tables in TOML;
* `toml_key_moves_up` — such a value.

Each format has its own reason. JSON keeps keys as they are read and written. In TOML a plain value
after a table would belong to the table, so the writer moves it before; and a header may name a
table that was there before. In YAML the merge key is replaced by the last entry of its mapping.
-/

variable {key path text : String} {schema w : Value} {entries : Entries Value}

/-! ### Reading again

What was written is read again as a mapping with keys; for TOML these are the keys in the order of
the text, which the writer may have changed.
-/

/-- Whether a value is a mapping with these keys in this order. -/
def HasKeys (v : Value) (keys : List String) : Prop :=
  ∃ fields, v = .object fields ∧ Entries.keys fields = keys

section Reloaded

variable (hwell : (Value.object entries).WellFormed) (hfinite : (Value.object entries).FloatsFinite)

include hwell hfinite

/-- A mapping that was written as JSON has the same keys in the same order, when it is read. -/
theorem json_keys_reloaded (hwrite : Format.json.serializeAt path (.object entries) = .ok text)
    (hread : Format.json.parseAt path text = .ok w) : HasKeys w (Entries.keys entries) := by
  cases hwrite
  cases Json.parse_render_shape hwell hfinite (mapError_eq_ok_iff.mp hread) with
  | refl => exact ⟨entries, rfl, rfl⟩
  | object hkeys => exact ⟨_, rfl, hkeys.symm⟩

/-- A mapping that was written as TOML has the same keys exactly if no plain value follows a
    table. -/
theorem toml_keys_reloaded (hwrite : Format.toml.serializeAt path (.object entries) = .ok text)
    (hread : Format.toml.parseAt path text = .ok w) :
    HasKeys w (Entries.keys entries)
      ↔ entries.Pairwise fun e f => Toml.hasHeader e.2 = true → Toml.hasHeader f.2 = true := by
  obtain ⟨-, rfl⟩ := (Toml.parseAt_eq_ok_iff hwell hfinite hwrite).mp hread
  rw [← Toml.keys_arranged_iff hwell.1]
  constructor
  · rintro ⟨fields, hfields, hkeys⟩
    cases hfields
    exact hkeys
  · exact fun hkeys => ⟨_, rfl, hkeys⟩

/-- A mapping that was written as YAML has the same keys in the same order, if `<<` is none of
    them. -/
theorem yaml_keys_reloaded (hmerge : "<<" ∉ Entries.keys entries)
    (hwrite : Format.yaml.serializeAt path (.object entries) = .ok text)
    (hread : Format.yaml.parseAt path text = .ok w) : HasKeys w (Entries.keys entries) := by
  cases hwrite
  exact Yaml.parse_render_keys hwell hfinite hmerge (mapError_eq_ok_iff.mp hread)

end Reloaded

/-! ### The formats

On loading, order is compared with the text, or with the table or tree that the text defines. After
embedding, it is compared with the entries that were written.
-/

/-- **The order of keys** on loading:

* a JSON mapping has its keys as they stand in the text, a repeated one at its first place;
* a TOML mapping has them as they stand in the table that the lines of the text define, to which
  each line adds its keys at the end, exactly if no header takes out a table that others follow;
  the table of the first lines is then how the whole table begins;
* a TOML inline table, wherever it stands, has them as its entries first name them;
* a YAML mapping has them as they stand in the loaded tree, and so in the text, before those that
  it takes over, exactly if no two entries follow a merge key.

And when a schema is embedded in a mapping, which is then written and read again:

* the keys stay in order, with the new one at its old place or at the end;
* so they are read from JSON;
* so they are read from TOML exactly if no plain value follows a table;
* so they are read from YAML if `<<` is none of them. -/
theorem keys_keep_order (path : String) :
    (∀ text v, Format.json.parseAt path text = .ok v →
      ∃ rest, Json.Spells text.toList v rest ∧ Json.skipBlanks rest = [])
    ∧ (∀ text v, Format.toml.parseAt path text = .ok v →
      ∃ lines root, Toml.Defines text lines root
        ∧ Toml.Holds (.table (Toml.Draft.toEntries root)) v
        ∧ (Toml.InOrder lines ↔ ¬ Toml.Reopens lines)
        ∧ (Toml.InOrder lines → ∀ before, before <+: lines →
          ∃ first, Toml.assemble before = .ok first ∧ Toml.Draft.Grows first root))
    ∧ (∀ fuel depth s root rest, Toml.readEntries fuel depth [] s = .ok (root, rest) →
      ∃ pairs, Toml.readPairs fuel depth s = .ok (pairs, rest) ∧ Toml.fill pairs [] = .ok root
        ∧ ∀ before, before <+: pairs →
          ∃ first, Toml.fill before [] = .ok first ∧ Toml.Draft.Grows first root)
    ∧ (∀ text v, Format.yaml.parseAt path text = .ok v →
      ∃ t t', Yaml.load text = .ok t ∧ Yaml.InTextOrder text t ∧ t.mergeKeys = .ok t'
        ∧ (Yaml.InOrder t t' ↔ ¬ Yaml.Displaces t) ∧ Yaml.Carries true t' v)
    ∧ ∀ (key : String) (schema : Value) (entries : Entries Value),
      (Value.object entries).WellFormed → (Value.object entries).FloatsFinite →
      schema.WellFormed → schema.FloatsFinite →
      Entries.keys (embedded key schema entries) = keysWith key (Entries.keys entries)
      ∧ ∀ text w,
        (Format.json.serializeAt path (.object (embedded key schema entries)) = .ok text →
          Format.json.parseAt path text = .ok w → HasKeys w (keysWith key (Entries.keys entries)))
        ∧ (Format.toml.serializeAt path (.object (embedded key schema entries)) = .ok text →
          Format.toml.parseAt path text = .ok w →
          (HasKeys w (keysWith key (Entries.keys entries)) ↔ (embedded key schema entries).Pairwise
            fun e f => Toml.hasHeader e.2 = true → Toml.hasHeader f.2 = true))
        ∧ (Format.yaml.serializeAt path (.object (embedded key schema entries)) = .ok text →
          Format.yaml.parseAt path text = .ok w → "<<" ∉ keysWith key (Entries.keys entries) →
          HasKeys w (keysWith key (Entries.keys entries))) := by
  refine ⟨fun text v h => Json.parse_spells (mapError_eq_ok_iff.mp h),
    fun text v h => Toml.parse_defines (mapError_eq_ok_iff.mp h),
    fun _ _ _ _ _ h => Toml.readEntries_in_order h, ?_, ?_⟩
  · intro text v h
    obtain ⟨t, t', hload, hmerge, horder, hcarries⟩ := Yaml.parse_in_order (mapError_eq_ok_iff.mp h)
    exact ⟨t, t', hload, Yaml.load_in_order hload, hmerge, horder, hcarries⟩
  -- the value that is written is as documents have it, and its keys are those of the bundle and
  -- the new one
  intro key schema entries hwell hfinite hschema hfloats
  have hwell' := wellFormed_embedded key hschema hwell
  have hfinite' := floatsFinite_embedded key hfloats hfinite
  rw [← keys_embedded key schema entries]
  exact ⟨rfl, fun text w => ⟨json_keys_reloaded hwell' hfinite',
    toml_keys_reloaded hwell' hfinite',
    fun hwrite hread hmerge => yaml_keys_reloaded hwell' hfinite' hmerge hwrite hread⟩⟩

/-- A table that is embedded after a table stays there. -/
theorem toml_table_stays_last :
    let entries := [("t", Value.object [("x", .number (.int 1))])]
    ∃ text w,
      Format.toml.serializeAt "b.toml" (.object (embedded "k" (.object []) entries)) = .ok text
      ∧ Format.toml.parseAt "b.toml" text = .ok w ∧ HasKeys w ["t", "k"] := by
  intro entries
  have hwrite : Format.toml.serializeAt "b.toml" (.object (embedded "k" (.object []) entries))
      = .ok "[t]\nx = 1\n\n[k]\n" := rfl
  have hread : Format.toml.parseAt "b.toml" "[t]\nx = 1\n\n[k]\n"
      = .ok (.object [("t", .object [("x", .number (.int 1))]), ("k", .object [])]) := by
    decide +kernel
  obtain ⟨-, hreload⟩ := (keys_keep_order "b.toml").2.2.2.2 "k" (.object []) entries (by decide)
    (by decide) (by decide) (by decide)
  exact ⟨_, _, hwrite, hread, ((hreload _ _).2.1 hwrite hread).mpr (by decide)⟩

/-- **A plain value that is embedded after a table** is read before it. -/
theorem toml_key_moves_up :
    let table := Value.object [("x", .number (.int 1))]
    Format.toml.parseAt "b.toml" "[t]\nx = 1\n" = .ok (.object [("t", table)])
      ∧ Format.toml.serializeAt "b.toml" (.object (embedded "k" (.number (.int 5)) [("t", table)]))
        = .ok "k = 5\n\n[t]\nx = 1\n"
      ∧ Format.toml.parseAt "b.toml" "k = 5\n\n[t]\nx = 1\n"
        = .ok (.object [("k", .number (.int 5)), ("t", table)]) := by
  decide +kernel

end SchemaEmbed
