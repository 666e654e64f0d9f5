import SchemaEmbed.Proofs.Json.Reread
import SchemaEmbed.Proofs.Run.Detection
import SchemaEmbed.Proofs.Run.Embedding
import SchemaEmbed.Proofs.Toml.Reprinted

namespace SchemaEmbed

/-!
# Bundles that are read and written again as they were

* `Rereads` — whether a text is read in a format as a mapping that holds the schema, and is
  written again as it was;
* `json_rereads_iff` — a mapping written as JSON does exactly if it does not nest too deep and every
  float in it is read as itself;
* `yaml_rereads_iff` — one written as YAML exactly if it is read back as it was;
* `toml_rereads_iff` — one written as TOML exactly if its text is legible: the order of its
  entries settles with the first text.

A bundle stays as it is in the next run if its text is read as a mapping that holds the schema, and
the mapping is written as the same text. The second condition is not about the value that was
written before, since reading may have made another one of it.
-/

variable {key text : String} {schema : Value} {entries : Entries Value}

/-- Whether a text is read as a mapping that holds the schema, and is written again as it was. -/
def Rereads (f : Format) (key : String) (schema : Value) (text : String) : Prop :=
  ∃ entries, f.parse text = .ok (.object entries) ∧ Document.holds entries key schema = true
    ∧ f.serialize (.object entries) = .ok text

/-! ### JSON

Reading makes another value of a float whose decimal digits are rounded wrongly. Two values may
still have one text.
-/

/-- **A mapping written as JSON** stays as it is exactly if it can be read and every number in it
    is read as itself. -/
theorem json_rereads_iff (hwell : (Value.object entries).WellFormed)
    (hfinite : (Value.object entries).FloatsFinite)
    (hholds : Document.holds entries key schema = true) :
    Rereads Format.json key schema (Json.render (.object entries))
      ↔ (Value.object entries).depth ≤ Json.maxDepth
        ∧ (Value.object entries).Every Json.IsExact := by
  constructor
  · rintro ⟨es, hparse, -, hserialize⟩
    have hsame : Json.render (.object es) = Json.render (.object entries) :=
      Except.ok.inj hserialize
    exact ((Json.parse_render_self_iff hwell hfinite).mp ⟨hparse, hsame⟩).2
  · intro hexact
    obtain ⟨hparse, -⟩ := (Json.parse_render_self_iff hwell hfinite).mpr ⟨rfl, hexact⟩
    exact ⟨entries, hparse, hholds, rfl⟩

/-! ### YAML

The tree of a value is loaded from its text, and a value can be told from its tree. So if another
value is read, its text is another one too.
-/

/-- **A value can be told from its text** if that can be loaded. -/
theorem Yaml.eq_of_render {v w : Value} (hv : v.WellFormed) (hvfinite : v.FloatsFinite)
    (hw : w.WellFormed) (hwfinite : w.FloatsFinite) (hdepth : v.depth ≤ Yaml.maxOpen)
    (h : Yaml.render w = Yaml.render v) : w = v := by
  have hload : Yaml.load (Yaml.render v) = .ok (Yaml.Tree.ofValue v) :=
    (Yaml.load_render hv hvfinite).trans (if_pos hdepth)
  rw [← h, Yaml.load_render hw hwfinite] at hload
  split at hload
  · -- the trees are the same, and each of them means its value
    have htree : Yaml.Tree.ofValue w = Yaml.Tree.ofValue v := Except.ok.inj hload
    have hvalue := Yaml.toValue_ofValue hw hwfinite
    rw [htree, Yaml.toValue_ofValue hv hvfinite] at hvalue
    exact (Except.ok.inj hvalue).symm
  · cases hload

/-- **A mapping written as YAML** stays as it is exactly if it is read back. -/
theorem yaml_rereads_iff (hwell : (Value.object entries).WellFormed)
    (hfinite : (Value.object entries).FloatsFinite)
    (hholds : Document.holds entries key schema = true) :
    Rereads Format.yaml key schema (Yaml.render (.object entries))
      ↔ (Value.object entries).depth ≤ 128 ∧ Yaml.MergeFree (.object entries) := by
  constructor
  · rintro ⟨es, hparse, -, hserialize⟩
    have hparse : Yaml.parse (Yaml.render (.object entries)) = .ok (.object es) := hparse
    obtain ⟨hes, hesfinite⟩ := Value.every_isSound_iff.mp (Yaml.parse_sound hparse)
    have hdepth : (Value.object entries).depth ≤ 128 := by
      refine Decidable.byContradiction fun hdeep => ?_
      rw [Yaml.parse_render_deep hwell hfinite (Nat.lt_of_not_le hdeep)] at hparse
      cases hparse
    have heq : Value.object es = .object entries :=
      Yaml.eq_of_render hwell hfinite hes hesfinite hdepth (Except.ok.inj hserialize)
    refine ⟨hdepth, Classical.byContradiction fun hmerge => ?_⟩
    -- what is read of a mapping with a merge key is another value
    have hother := Yaml.not_same_of_merge hwell hfinite hmerge hparse
    rw [heq, Value.same_self hwell.keysDistinct hfinite] at hother
    cases hother
  · rintro ⟨hdepth, hmerge⟩
    exact ⟨entries, Yaml.parse_render hwell hfinite hdepth hmerge, hholds, rfl⟩

/-! ### TOML

Writing brings plain values before tables. What is read has this order already, so that it is
written as it was read from the second time on.
-/

/-- A mapping that holds a schema still holds it in the order of its text. -/
theorem holds_arrangedEntries (hwell : (Value.object entries).WellFormed)
    (hfinite : (Value.object entries).FloatsFinite)
    (hholds : Document.holds entries key schema = true) :
    Document.holds (Toml.arrangedEntries entries) key schema = true := by
  obtain ⟨v, hfind, hsame⟩ := holds_iff.mp hholds
  refine holds_iff.mpr ⟨_, Toml.find_arrangedEntries hwell.1 hfind, ?_⟩
  have hmem := Entries.mem_of_find hfind
  have hv : v.WellFormed := Value.everyEntry_iff.mp hwell.2 _ hmem
  have hvfinite : v.FloatsFinite := Value.everyEntry_iff.mp hfinite.2 _ hmem
  split
  · have harranged : (Toml.arranged v).KeysDistinct :=
      Toml.every_arranged ⟨fun _ => Toml.keys_arranged_nodup, fun _ _ h => h⟩ hv.keysDistinct
    rw [Value.same_iff_reordered harranged]
    exact ((Value.same_iff_reordered harranged v).mp (Toml.same_arranged hv hvfinite)).trans
      ((Value.same_iff_reordered hv.keysDistinct schema).mp hsame)
  · exact hsame

/-- **A mapping written as TOML** stays as it is from its first text on, exactly if that is
    legible. -/
theorem toml_rereads_iff (hwell : (Value.object entries).WellFormed)
    (hfinite : (Value.object entries).FloatsFinite)
    (hholds : Document.holds entries key schema = true)
    (hwrite : Format.toml.serialize (.object entries) = .ok text) :
    Rereads Format.toml key schema text ↔ Toml.IsLegible (.object entries) := by
  obtain ⟨es, hes, hpresent, rfl⟩ := Toml.serializeAt_eq_ok_iff.mp
    (mapError_eq_ok_iff.mpr hwrite : Format.toml.serializeAt "" _ = _)
  obtain rfl := Value.object.inj hes
  constructor
  · rintro ⟨es, hparse, -, -⟩
    refine Classical.byContradiction fun hlegible => ?_
    obtain ⟨e, he⟩ := Toml.parse_tableChars_error hwell hfinite hpresent hlegible
    have hparse : Toml.parse _ = .ok (.object es) := hparse
    rw [he] at hparse
    cases hparse
  · intro hlegible
    have hagain := Toml.serializeAt_arranged
      (mapError_eq_ok_iff.mpr hwrite : Format.toml.serializeAt "" _ = _)
    exact ⟨Toml.arrangedEntries entries, Toml.parse_tableChars hwell hfinite hpresent hlegible,
      holds_arrangedEntries hwell hfinite hholds, mapError_eq_ok_iff.mp hagain⟩

end SchemaEmbed
