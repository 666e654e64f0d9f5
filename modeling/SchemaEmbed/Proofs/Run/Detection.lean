import SchemaEmbed.Proofs.Run.WellFormed
import SchemaEmbed.Proofs.Toml.Recognition
import SchemaEmbed.Proofs.Yaml.Recognition
import SchemaEmbed.Proofs.Yaml.RoundTrip

namespace SchemaEmbed

/-!
# Which format a bundle has after a run

A bundle at a path that no format claims is written in the format that recognised its text, and the
next run asks again which one does. Formats are asked in the order in which they are registered:
JSON first, then TOML, and YAML last, which accepts almost any text. So the question is when a text
of one format is recognised by one that is asked before.

* `detect_json_iff`, `detect_toml_iff`, `detect_yaml_iff` — **the first format** that recognises a
  text;
* `detect_json_render`, `detect_toml_tableChars`, `detect_yaml_render` — which one that is for a
  text that was written;
* `format_found_again` — all of this for a bundle with a schema embedded;
* `toml_header_found_as_json`, `yaml_entry_found_as_toml`, `yaml_entry_found_as_json` — three
  bundles whose format is not found again.
-/

variable {path text : String} {entries : Entries Value}

/-! ### The first format

At a path without a known extension the formats are asked one after the other. What is recognised
by the first is of that format, whatever the others would say.
-/

/-- Formats of different names are different. -/
theorem Format.ne_of_name {f g : Format} (h : f.name ≠ g.name) : f ≠ g := fun heq => h (heq ▸ rfl)

/-- A format that is detected is a registered one, whether by the extension of the path or by the
    text. -/
theorem Registry.mem_of_detect {r : Registry} {f : Format} (h : r.detect path text = .ok f) :
    f ∈ r.formats := by
  unfold Registry.detect at h
  split at h
  · next hfind =>
    cases h
    exact List.mem_of_find?_eq_some hfind
  · split at h
    · next hfind =>
      cases h
      exact List.mem_of_find?_eq_some hfind
    · cases h

/-- At a path that no format claims, the first format is taken that recognises the text. -/
theorem detect_unclaimed (hpath : Registry.standard.byExtension? path = none) (text : String) :
    Registry.standard.detect path text = if Json.sniff text then .ok Format.json
      else if Toml.sniff text then .ok Format.toml
      else if Yaml.canLoad text then .ok Format.yaml else .error (.unknownFormat path) := by
  have hfind : Registry.standard.formats.find? (·.sniff text)
      = if Json.sniff text then some Format.json else if Toml.sniff text then some Format.toml
        else if Yaml.canLoad text then some Format.yaml else none := by
    show List.find? (·.sniff text) [Format.json, Format.toml, Format.yaml] = _
    simp only [List.find?_cons, List.find?_nil, Format.json, Format.toml, Format.yaml]
    cases Json.sniff text <;> cases Toml.sniff text <;> cases Yaml.canLoad text <;> rfl
  -- the path names no format, so the text is asked
  rw [Registry.detect, hpath, hfind]
  cases Json.sniff text <;> cases Toml.sniff text <;> cases Yaml.canLoad text <;> rfl

section Unclaimed

variable (hpath : Registry.standard.byExtension? path = none)

include hpath

/-- A text is detected as JSON exactly if it is recognised as JSON. -/
theorem detect_json_iff :
    Registry.standard.detect path text = .ok Format.json ↔ Json.sniff text = true := by
  have htoml : Format.toml ≠ Format.json := Format.ne_of_name (by decide)
  have hyaml : Format.yaml ≠ Format.json := Format.ne_of_name (by decide)
  rw [detect_unclaimed hpath]
  cases Json.sniff text <;> cases Toml.sniff text <;> cases Yaml.canLoad text <;>
    simp [htoml, hyaml]

/-- A text is detected as TOML exactly if it is recognised as TOML, and not as JSON. -/
theorem detect_toml_iff : Registry.standard.detect path text = .ok Format.toml
    ↔ Toml.sniff text = true ∧ Json.sniff text = false := by
  have hjson : Format.json ≠ Format.toml := Format.ne_of_name (by decide)
  have hyaml : Format.yaml ≠ Format.toml := Format.ne_of_name (by decide)
  rw [detect_unclaimed hpath]
  cases Json.sniff text <;> cases Toml.sniff text <;> cases Yaml.canLoad text <;>
    simp [hjson, hyaml]

/-- A text is detected as YAML exactly if it can be loaded as YAML, and is recognised as neither
    of the others. -/
theorem detect_yaml_iff : Registry.standard.detect path text = .ok Format.yaml
    ↔ Yaml.canLoad text = true ∧ Json.sniff text = false ∧ Toml.sniff text = false := by
  have hjson : Format.json ≠ Format.yaml := Format.ne_of_name (by decide)
  have htoml : Format.toml ≠ Format.yaml := Format.ne_of_name (by decide)
  rw [detect_unclaimed hpath]
  cases Json.sniff text <;> cases Toml.sniff text <;> cases Yaml.canLoad text <;>
    simp [hjson, htoml]

/-! ### Texts that were written

A text that the writer of a format has made is recognised by that format if it can be read at all.
What is left of the conditions is that no earlier format recognises it.
-/

/-- **A mapping written as JSON** is detected as JSON exactly if it is read. -/
theorem detect_json_render (entries : Entries Value) :
    Registry.standard.detect path (Json.render (.object entries)) = .ok Format.json
      ↔ ∃ w, Format.json.parse (Json.render (.object entries)) = .ok w := by
  have hread : (Json.parseChars (Json.render (.object entries)).toList).isOk = true
      ↔ ∃ w, Json.parse (Json.render (.object entries)) = .ok w := by
    simp only [Json.parse_eq_ok_iff]
    cases Json.parseChars (Json.render (.object entries)).toList <;>
      simp [Except.isOk, Except.toBool]
  rw [detect_json_iff hpath, Json.sniff_render_eq (v := .object entries) trivial]
  exact hread

/-- A mapping without floats that is written as JSON is detected as JSON exactly if it does not
    nest too deep. -/
theorem detect_json_floatFree (hwell : (Value.object entries).WellFormed)
    (hfloat : (Value.object entries).FloatFree) :
    Registry.standard.detect path (Json.render (.object entries)) = .ok Format.json
      ↔ (Value.object entries).depth ≤ Json.maxDepth := by
  rw [detect_json_render hpath]
  constructor
  · rintro ⟨w, hw⟩
    -- without floats only the depth can keep a text from being read
    by_contra hdepth
    obtain ⟨fault, -, hfault⟩ := Json.parse_render_deep hwell hfloat (Nat.lt_of_not_le hdepth)
    have hparse : Json.parse (Json.render (.object entries)) = .ok w := hw
    rw [hfault] at hparse
    cases hparse
  · exact fun hdepth => ⟨_, Json.parse_render hwell hfloat hdepth⟩

/-- **A legible mapping written as TOML** is TOML unless it is recognised as JSON. -/
theorem detect_toml_tableChars (hwell : (Value.object entries).WellFormed)
    (hfinite : (Value.object entries).FloatsFinite)
    (hpresent : (Value.object entries).Every Toml.IsPresent) (hne : entries ≠ [])
    (hlegible : Toml.IsLegible (.object entries)) :
    Registry.standard.detect path (String.ofList (Toml.tableChars entries)) = .ok Format.toml
      ↔ Json.sniff (String.ofList (Toml.tableChars entries)) = false := by
  rw [detect_toml_iff hpath, Toml.sniff_tableChars hwell hfinite hpresent hne hlegible]
  exact and_iff_right rfl

/-- **A mapping written as YAML** is YAML exactly if it does not nest too deep and is not recognised
    as one of the others. -/
theorem detect_yaml_render (hwell : (Value.object entries).WellFormed)
    (hfinite : (Value.object entries).FloatsFinite) :
    Registry.standard.detect path (Yaml.render (.object entries)) = .ok Format.yaml
      ↔ (Value.object entries).depth ≤ Yaml.maxOpen
        ∧ Json.sniff (Yaml.render (.object entries)) = false
        ∧ Toml.sniff (Yaml.render (.object entries)) = false := by
  have hload : Yaml.canLoad (Yaml.render (.object entries)) = true
      ↔ (Value.object entries).depth ≤ Yaml.maxOpen := by
    rw [Yaml.canLoad, Yaml.load_render hwell hfinite]
    split <;> simp_all [Except.isOk, Except.toBool]
  rw [detect_yaml_iff hpath, hload]

end Unclaimed

/-- A document is what the format that is detected reads from the text. The format decides alone,
    and no other is tried if it fails. -/
theorem ofText_of_detect {r : Registry} {f : Format} {v : Value}
    (hdetect : r.detect path text = .ok f) (hparse : f.parseAt path text = .ok v) :
    Document.ofText r path text = .ok ⟨path, f, v⟩ := by
  rw [Document.ofText, hdetect, ok_bind, hparse]
  rfl

/-- A mapping that is detected as YAML and has no merge key is read back as it was. -/
theorem ofText_yaml_render (hpath : Registry.standard.byExtension? path = none)
    (hwell : (Value.object entries).WellFormed)
    (hfinite : (Value.object entries).FloatsFinite) (hdepth : (Value.object entries).depth ≤ 128)
    (hmerge : Yaml.MergeFree (.object entries)) (htext : Yaml.render (.object entries) = text)
    (hjson : Json.sniff text = false) (htoml : Toml.sniff text = false) :
    Document.ofText .standard path text = .ok ⟨path, Format.yaml, .object entries⟩ := by
  subst htext
  have hdetect := (detect_yaml_render hpath hwell hfinite).mpr ⟨hdepth, hjson, htoml⟩
  have hparse : Format.yaml.parseAt path (Yaml.render (.object entries)) = .ok (.object entries) :=
    mapError_eq_ok_iff.mpr (Yaml.parse_render hwell hfinite hdepth hmerge)
  exact ofText_of_detect hdetect hparse

/-! ### Bundles

A bundle that was detected, changed and written is a mapping with at least one entry, so its text
is one of those above.
-/

/-- A bundle has an entry once a schema is embedded, under the key of the schema if under no
    other. -/
theorem embedded_ne_nil (key : String) (schema : Value) (entries : Entries Value) :
    embedded key schema entries ≠ [] := by
  intro hnil
  have hkeys := keys_embedded key schema entries
  rw [hnil] at hkeys
  -- the key was there, or is now the last one
  have hmem : key ∈ keysWith key (Entries.keys entries) := by
    unfold keysWith
    split
    · assumption
    · simp
  rw [← hkeys] at hmem
  cases hmem

/-- **The next run finds a bundle in its format**, at a path that no format claims, as follows.
    A bundle is JSON, TOML or YAML, and once a schema is embedded and it is written

* JSON is found again exactly if it is read, which it is without floats exactly if it nests at most
  127 deep;
* TOML is found again exactly if it is not recognised as JSON, if it is legible, and is not read in
  its format otherwise; what is recognised as JSON has nothing but tables one in another, and its
  text is a header;
* YAML is found again exactly if it nests at most 128 deep and is recognised neither as JSON nor as
  TOML; what is recognised as JSON has a first key that begins with white space, and what is
  recognised as TOML has an equals sign in its first key or in a string under it. -/
theorem format_found_again {path content text : String} {d d' : Document} {key : String}
    {schema : Value} {changed : Bool} (hpath : Registry.standard.byExtension? path = none)
    (hload : Document.ofText .standard path content = .ok d)
    (hschema : schema.WellFormed) (hfloats : schema.FloatsFinite)
    (hembed : d.embed key schema = .ok (changed, d')) (hwrite : d'.render = .ok text) :
    d.format ∈ Format.builtin
    ∧ (d.format = Format.json →
      (Registry.standard.detect path text = .ok Format.json ↔ ∃ w, Format.json.parse text = .ok w)
      ∧ (d'.value.FloatFree →
        (Registry.standard.detect path text = .ok Format.json ↔ d'.value.depth ≤ 127)))
    ∧ (d.format = Format.toml →
      (Toml.IsLegible d'.value →
        (Registry.standard.detect path text = .ok Format.toml ↔ Json.sniff text = false))
      ∧ (¬ Toml.IsLegible d'.value → ∀ w, Format.toml.parse text ≠ .ok w)
      ∧ (Json.sniff text = true → ∃ row keys, keys ≠ [] ∧ d'.value = Toml.lone row keys
        ∧ text = String.ofList (Toml.Section.chars ⟨row, keys, []⟩)))
    ∧ (d.format = Format.yaml →
      (Registry.standard.detect path text = .ok Format.yaml
        ↔ d'.value.depth ≤ 128 ∧ Json.sniff text = false ∧ Toml.sniff text = false)
      ∧ ∀ k v rest, d'.value = .object ((k, v) :: rest) →
        (Json.sniff text = true → ∃ c ∈ k.toList.head?, Text.isWhiteSpace c = true)
        ∧ (Toml.sniff text = true →
          '=' ∈ k.toList ∨ ∃ str, v = .string str ∧ '=' ∈ str.toList)) := by
  obtain ⟨f, hdetect, hload⟩ := bind_eq_ok_iff.mp hload
  obtain ⟨value, hparse, hload⟩ := bind_eq_ok_iff.mp hload
  cases hload
  -- what was read is as documents have it, and so it is with the schema embedded
  obtain ⟨entries, rfl, -, rfl⟩ := embed_eq_ok_iff.mp hembed
  have hf : f ∈ Format.builtin := Registry.mem_of_detect hdetect
  obtain ⟨hwell, hfinite⟩ := Value.every_isSound_iff.mp (sound_of_parseAt hf hparse)
  have hwell' := wellFormed_embedded key hschema hwell
  have hfinite' := floatsFinite_embedded key hfloats hfinite
  have hne := embedded_ne_nil key schema entries
  generalize embedded key schema entries = after at hwrite hwell' hfinite' hne ⊢
  refine ⟨hf, ?_, ?_, ?_⟩
  · rintro rfl
    cases hwrite
    exact ⟨detect_json_render hpath after, detect_json_floatFree hpath hwell'⟩
  · rintro rfl
    obtain ⟨es, hes, hpresent, rfl⟩ := Toml.serializeAt_eq_ok_iff.mp hwrite
    obtain rfl := Value.object.inj hes
    refine ⟨detect_toml_tableChars hpath hwell' hfinite' hpresent hne, fun hlegible w hw => ?_,
      fun hsniff => ?_⟩
    · -- a text that is not legible fails in its own format
      obtain ⟨e, he⟩ := Toml.parse_tableChars_error hwell' hfinite' hpresent hlegible
      have hw : Toml.parse (String.ofList (Toml.tableChars after)) = .ok w := hw
      rw [he] at hw
      cases hw
    · obtain ⟨row, keys, hkeys, hlone, htext⟩ := Toml.lone_of_sniff hwell'.2 hsniff
      exact ⟨row, keys, hkeys, hlone, by rw [htext]⟩
  · rintro rfl
    cases hwrite
    refine ⟨detect_yaml_render hpath hwell' hfinite', fun k v rest heq => ?_⟩
    obtain rfl := Value.object.inj heq
    exact ⟨Yaml.white_of_sniff, Yaml.equals_of_sniff hfinite'.2.1.head⟩

/-- An empty schema embedded into a YAML bundle, whose first line has no equals sign. -/
theorem format_found_again_yaml :
    let d : Document := ⟨"b", Format.yaml, .object [("a", .number (.int 1))]⟩
    ∃ changed d' text, d.embed "k" (.object []) = .ok (changed, d') ∧ d'.render = .ok text
      ∧ Registry.standard.detect "b" text = .ok Format.yaml := by
  intro d
  let d' : Document := ⟨"b", Format.yaml, .object [("a", .number (.int 1)), ("k", .object [])]⟩
  have hload : Document.ofText .standard "b" "a: 1\n" = .ok d :=
    ofText_yaml_render rfl (by decide) (by decide) (by decide) (by decide) rfl (by decide)
      (by decide +kernel)
  have hembed : d.embed "k" (.object []) = .ok (true, d') := rfl
  obtain ⟨-, -, -, hyaml⟩ := format_found_again rfl hload (by decide) (by decide) hembed rfl
  obtain ⟨hdetect, hfirst⟩ := hyaml rfl
  obtain ⟨hjson, htoml⟩ := hfirst "a" (.number (.int 1)) [("k", .object [])] rfl
  refine ⟨true, d', _, hembed, rfl, hdetect.mpr ⟨by decide, ?_, ?_⟩⟩
  · refine Bool.eq_false_iff.mpr fun h => ?_
    obtain ⟨c, hc, hwhite⟩ := hjson h
    cases hc
    exact absurd hwhite (by decide)
  · refine Bool.eq_false_iff.mpr fun h => ?_
    rcases htoml h with hkey | ⟨str, hstr, -⟩
    · exact absurd hkey (by decide)
    · cases hstr

/-- **A header that is a JSON list**: a TOML bundle is JSON after an empty schema was embedded. -/
theorem toml_header_found_as_json :
    let d : Document := ⟨"b", Format.toml, .object [("1", .number (.int 0))]⟩
    let d' : Document := ⟨"b", Format.toml, .object [("1", .object [])]⟩
    Document.ofText .standard "b" "1 = 0\n" = .ok d
      ∧ d.embed "1" (.object []) = .ok (true, d') ∧ d'.render = .ok "[1]\n"
      ∧ Document.ofText .standard "b" "[1]\n"
        = .ok ⟨"b", Format.json, .array [.number (.int 1)]⟩ := by
  intro d d'
  have htoml : Registry.standard.detect "b" "1 = 0\n" = .ok Format.toml :=
    (detect_toml_iff rfl).mpr (by decide +kernel)
  have hjson : Registry.standard.detect "b" "[1]\n" = .ok Format.json :=
    (detect_json_iff rfl).mpr (by decide +kernel)
  exact ⟨ofText_of_detect htoml (by decide +kernel), rfl, rfl,
    ofText_of_detect hjson (by decide +kernel)⟩

/-- **An entry that is a line of TOML**: a YAML bundle is TOML after a string was embedded, with
    another key and another value. -/
theorem yaml_entry_found_as_toml :
    let d : Document := ⟨"b", Format.yaml, .object [("a = \"x", .string "y")]⟩
    let d' : Document := ⟨"b", Format.yaml, .object [("a = \"x", .string "z\"")]⟩
    Document.ofText .standard "b" "a = \"x: y\n" = .ok d
      ∧ d.embed "a = \"x" (.string "z\"") = .ok (true, d') ∧ d'.render = .ok "a = \"x: z\"\n"
      ∧ Document.ofText .standard "b" "a = \"x: z\"\n"
        = .ok ⟨"b", Format.toml, .object [("a", .string "x: z")]⟩ := by
  intro d d'
  have htoml : Registry.standard.detect "b" "a = \"x: z\"\n" = .ok Format.toml :=
    (detect_toml_iff rfl).mpr (by decide +kernel)
  refine ⟨?_, rfl, rfl, ofText_of_detect htoml (by decide +kernel)⟩
  exact ofText_yaml_render rfl (by decide) (by decide) (by decide) (by decide) rfl (by decide)
    (by decide +kernel)

/-- **A key with a no-break space before a bracket**: a YAML bundle is JSON after a string was
    embedded, and cannot be read. -/
theorem yaml_entry_found_as_json :
    let d : Document := ⟨"b", Format.yaml, .object [("\u00a0[\"a", .string "y")]⟩
    let d' : Document := ⟨"b", Format.yaml, .object [("\u00a0[\"a", .string "x\"]")]⟩
    Document.ofText .standard "b" "\u00a0[\"a: y\n" = .ok d
      ∧ d.embed "\u00a0[\"a" (.string "x\"]") = .ok (true, d')
      ∧ d'.render = .ok "\u00a0[\"a: x\"]\n"
      ∧ Registry.standard.detect "b" "\u00a0[\"a: x\"]\n" = .ok Format.json
      ∧ ∀ w, Format.json.parse "\u00a0[\"a: x\"]\n" ≠ .ok w := by
  intro d d'
  have hjson : Registry.standard.detect "b" "\u00a0[\"a: x\"]\n" = .ok Format.json :=
    (detect_json_iff rfl).mpr (by decide +kernel)
  refine ⟨?_, rfl, rfl, hjson, fun w h => by cases h⟩
  exact ofText_yaml_render rfl (by decide) (by decide) (by decide) (by decide) rfl
    (by decide +kernel) (by decide +kernel)

end SchemaEmbed
