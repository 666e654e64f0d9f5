import SchemaEmbed.Proofs.Run.Embedding
import SchemaEmbed.Proofs.Toml.Parsed
import SchemaEmbed.Proofs.Toml.RoundTrip

namespace SchemaEmbed

/-!
# Nulls in TOML documents

TOML has no null, so a value with a null in it cannot be written. A bundle that was read from TOML
has none; so if it cannot be written after a schema was embedded, the null is in the schema, and
the message says where the first one is, counted from the root of the bundle.

* `serializeAt_toml_null` — what has a null cannot be written, and the message says where the first
  one is;
* `present_of_holds` — a schema that a TOML bundle holds has no null;
* `toml_unwritable_iff` — **only the schema** can make a TOML bundle unwritable.
-/

open Value (Every)
open Toml (IsPresent firstNull?)

variable {key path text : String} {schema : Value} {entries : Entries Value}

/-- A mapping with a null cannot be written, and the failure names the location of the first one. -/
theorem serializeAt_toml_null {location : String}
    (h : Toml.findNull "" (.object entries) = some location) :
    Format.toml.serializeAt path (.object entries) = .error (.serializeFailed path "toml"
      s!"null value at `{location}` has no TOML representation") := by
  have hwrite : Toml.write (.object entries) = .error (.nullAt location) := by
    rw [Toml.write, h]
  exact mapError_eq_error_iff.mpr ⟨_, mapError_eq_error_iff.mpr ⟨_, hwrite, rfl⟩, rfl⟩

/-- A value that is another one in another order is no null unless the other one is. -/
theorem isPresent_of_reordered {v w : Value} (h : Value.Reordered v w) (hv : IsPresent v) :
    IsPresent w := by
  cases h with
  | null => exact hv
  | _ => trivial

/-- A schema that is held by a bundle without nulls has none itself, as it equals a part of the
    bundle. -/
theorem present_of_holds (hkeys : (Value.object entries).KeysDistinct)
    (hpresent : (Value.object entries).Every IsPresent)
    (hholds : Document.holds entries key schema = true) : schema.Every IsPresent := by
  obtain ⟨stored, hstored, hsame⟩ := holds_iff.mp hholds
  have hmem := Entries.mem_of_find hstored
  have hreordered : Value.Reordered stored schema :=
    (Value.same_iff_reordered (Value.everyEntry_iff.mp hkeys.2 _ hmem) schema).mp hsame
  exact hreordered.every isPresent_of_reordered (Value.everyEntry_iff.mp hpresent.2 _ hmem)

/-- **Only the schema** can make a TOML bundle unwritable. What is read from TOML is a mapping
    without nulls and without integers beyond 64 bits with their sign, and can be written. After a
    schema was embedded under a key that is not empty, it can be written if the schema has no null;
    otherwise the message names the key, followed by the steps to the first null of the schema. -/
theorem toml_unwritable_iff {v : Value} (h : Format.toml.parseAt path text = .ok v) :
    (∃ entries, v = .object entries) ∧ v.Every IsPresent ∧ v.Every Toml.IsSigned
    ∧ (∃ out, Format.toml.serializeAt path v = .ok out)
    ∧ ∀ (key : String) (schema : Value), key ≠ "" → ∃ changed d,
      Document.embed ⟨path, Format.toml, v⟩ key schema = .ok (changed, d)
      ∧ (schema.Every IsPresent → ∃ out, d.render = .ok out)
      ∧ (¬ schema.Every IsPresent → ∃ steps, firstNull? schema = some steps
        ∧ d.render = .error (.serializeFailed path "toml"
          s!"null value at `{key ++ Location.suffix steps}` has no TOML representation")) := by
  obtain ⟨entries, rfl, hread⟩ := Toml.parse_isRead (mapError_eq_ok_iff.mp h)
  have hpresent : (Value.object entries).Every IsPresent := hread.imp fun _ hv => hv.isPresent
  have hkeys : (Value.object entries).KeysDistinct :=
    (Toml.parse_wellFormed (mapError_eq_ok_iff.mp h)).keysDistinct
  refine ⟨⟨entries, rfl⟩, hpresent, hread.imp fun _ hv => hv.2,
    ⟨_, Toml.serializeAt_eq_ok_iff.mpr ⟨entries, rfl, hpresent, rfl⟩⟩, fun key schema hkey => ?_⟩
  refine ⟨_, _, embed_eq_ok_iff.mpr ⟨entries, rfl, rfl, rfl⟩, fun hschema => ?_, fun hschema => ?_⟩
  · exact ⟨_, Toml.serializeAt_eq_ok_iff.mpr
      ⟨_, rfl, every_embedded key hschema hpresent trivial, rfl⟩⟩
  · -- the bundle cannot hold the schema, so that it is put among entries without nulls
    obtain ⟨steps, hsteps⟩ : ∃ steps, firstNull? schema = some steps :=
      Option.ne_none_iff_exists'.mp (mt Toml.firstNull?_eq_none_iff.mp hschema)
    have hholds : Document.holds entries key schema = false :=
      Bool.eq_false_iff.mpr (mt (present_of_holds hkeys hpresent) hschema)
    have hfind : Toml.findNull "" (.object (Entries.put key schema entries))
        = some (key ++ Location.suffix steps) := by
      rw [Toml.findNull_put key schema hpresent.2, hsteps, Option.map_some,
        Location.follow_eq hkey]
    refine ⟨steps, hsteps, ?_⟩
    rw [embedded_of_not_holds hholds]
    exact serializeAt_toml_null hfind

/-- The message names the first of two nulls, below the key that was embedded. -/
theorem toml_null_located :
    let schema := Value.object [("x", .array [.bool true, .null]), ("y", .null)]
    let bundle := Value.object [("a", .number (.int 1))]
    Format.toml.parseAt "b.toml" "a = 1\n" = .ok bundle
      ∧ ∃ changed d, Document.embed ⟨"b.toml", Format.toml, bundle⟩ "k" schema = .ok (changed, d)
        ∧ d.render = .error (.serializeFailed "b.toml" "toml"
          "null value at `k.x[1]` has no TOML representation") := by
  intro schema bundle
  have hread : Format.toml.parseAt "b.toml" "a = 1\n" = .ok bundle := by decide +kernel
  obtain ⟨-, -, -, -, hembed⟩ := toml_unwritable_iff hread
  obtain ⟨changed, d, hd, -, hnull⟩ := hembed "k" schema (by decide)
  obtain ⟨steps, hsteps, hrender⟩ := hnull (by decide)
  have hfirst : firstNull? schema = some [.entry "x", .item 1] := rfl
  cases hsteps.symm.trans hfirst
  exact ⟨hread, changed, d, hd, hrender⟩

end SchemaEmbed
