import SchemaEmbed.Proofs.Json.Grammar
import SchemaEmbed.Proofs.Run.Steps
import SchemaEmbed.Proofs.Toml.Offence
import SchemaEmbed.Proofs.Yaml.Scalars

namespace SchemaEmbed

/-!
# Scalars that a format cannot hold

What a structured value cannot hold, which is a float that is infinite or no number, should never
be replaced by something else:

* `embedFile_unparsed` — a bundle that cannot be read is not rewritten;
* `parse_keeps_scalars` — **the formats**: JSON has no such float, TOML rejects it, and YAML loads
  it as null;
* `toml_infinity_rejected` / `yaml_infinity_becomes_null` — the same float in two formats.

A bundle whose format rejects the float stays as it is, with a message that names the float. YAML
has texts for such floats, but no step after loading refuses them, so the bundle is written back
with null in their place.
-/

/-- A bundle that cannot be read in its format is left alone, with the failure of the format. -/
theorem embedFile_unparsed {actor : Actor} {r : Registry} {options : Options} {schema : Value}
    {files : FileSystem} {path text : String} {f : Format} {e : Failure}
    (htext : files.readText actor path = .ok text) (hformat : r.detect path text = .ok f)
    (hparse : f.parseAt path text = .error e) :
    embedFile actor r options schema path files = (.error e, files) := by
  refine embedFile_unloaded ?_
  rw [loadFile, htext, mapError_ok, ok_bind, Document.ofText, hformat, ok_bind, hparse]
  rfl

/-- **Loading** keeps every scalar, but for the floats that YAML turns into null:

* a JSON value is null exactly where the text spells the word, and a number where it has a
  numeral;
* a TOML value holds the table, which has no null, and a table in which something cannot be held
  is rejected with a message that names it, so that its bundle stays as it is;
* a YAML value has the scalars of the merged tree exactly if all floats in the tree are finite,
  and the other ones are the only scalars that are replaced. -/
theorem parse_keeps_scalars (path text : String) :
    (∀ v, Format.json.parseAt path text = .ok v →
      ∃ rest, Json.Spells text.toList v rest ∧ Json.skipBlanks rest = [])
    ∧ (∀ v, Format.toml.parseAt path text = .ok v →
      ∃ entries, Toml.readTable text = .ok entries ∧ Toml.Holds (.table entries) v)
    ∧ (∀ entries o, Toml.readTable text = .ok entries → Toml.Offends "" (.table entries) o →
      ∃ first, Toml.Offends "" (.table entries) first
        ∧ Format.toml.parseAt path text = .error (.parseFailed path "toml" first.message)
        ∧ ∀ (actor : Actor) (r : Registry) (options : Options) (schema : Value)
            (files : FileSystem),
          files.readText actor path = .ok text → r.detect path text = .ok Format.toml →
          embedFile actor r options schema path files
            = (.error (.parseFailed path "toml" first.message), files))
    ∧ (∀ v, Format.yaml.parseAt path text = .ok v →
      ∃ t t', Yaml.load text = .ok t ∧ t.mergeKeys = .ok t' ∧ Yaml.Carries true t' v
        ∧ (Yaml.Carries false t' v ↔ t'.Every Yaml.IsFinite)
        ∧ (t.Every Yaml.IsFinite → t'.Every Yaml.IsFinite)) := by
  refine ⟨fun v h => ?_, fun v h => ?_, fun entries o hread ho => ?_, fun v h => ?_⟩
  · exact Json.parse_spells (mapError_eq_ok_iff.mp h)
  · exact Toml.parse_holds (mapError_eq_ok_iff.mp h)
  · rcases Toml.parse_settles hread with ⟨-, -, -, hnone⟩ | ⟨first, hparse, hfirst⟩
    · exact absurd ho (hnone o)
    · have hparseAt : Format.toml.parseAt path text
          = .error (.parseFailed path "toml" first.message) :=
        mapError_eq_error_iff.mpr ⟨_, hparse, rfl⟩
      exact ⟨first, hfirst, hparseAt, fun _ _ _ _ _ htext hformat =>
        embedFile_unparsed htext hformat hparseAt⟩
  · exact Yaml.parse_carries (mapError_eq_ok_iff.mp h)

/-- An infinite float in a table is rejected, and the message names it. -/
theorem toml_infinity_rejected :
    Format.toml.parseAt "doc" "a = inf\n"
      = .error (.parseFailed "doc" "toml" "non-finite float `inf` at `a` is not supported") := by
  have hread : Toml.readTable "a = inf\n" = .ok [("a", .float (.infinity false))] := by
    decide +kernel
  have hoffends : Toml.Offends "" (.table [("a", .float (.infinity false))])
      ⟨.float (.infinity false), "a"⟩ := .entry List.mem_cons_self (.float rfl)
  obtain ⟨first, hfirst, hparse, -⟩ :=
    (parse_keeps_scalars "doc" "a = inf\n").2.2.1 _ _ hread hoffends
  -- nothing else offends
  obtain rfl : first = ⟨.float (.infinity false), "a"⟩ := by
    cases hfirst with
    | entry he h =>
      cases List.mem_singleton.mp he
      cases h
      rfl
  exact hparse

/-- **An infinite float in a YAML text** is accepted, and becomes null. -/
theorem yaml_infinity_becomes_null :
    let t := Yaml.Tree.mapping [(.string "a", .number (.float (.infinity false)))]
    Yaml.load "a: .inf\n" = .ok t
      ∧ Format.yaml.parseAt "doc" "a: .inf\n" = .ok (.object [("a", .null)]) := by
  intro t
  have hload : Yaml.load "a: .inf\n" = .ok t :=
    Yaml.load_flat [(("a", .plain), (".inf", .plain))] (by decide +kernel) rfl rfl
      (.cons ⟨rfl, rfl⟩ .nil) (by simp [Yaml.findRepeatedKey, Yaml.Tree.hasKey])
  have hmerge : t.mergeKeys = .ok t :=
    Yaml.mergeKeys_flat (by simp [Yaml.isMergeKey]) (by simp [Yaml.Tree.IsScalar])
  have hparse : Yaml.parse "a: .inf\n" = .ok (.object [("a", .null)]) :=
    Yaml.parse_eq_ok_iff.mpr ⟨t, t, hload, hmerge, rfl, rfl⟩
  exact ⟨hload, mapError_eq_ok_iff.mpr hparse⟩

end SchemaEmbed
