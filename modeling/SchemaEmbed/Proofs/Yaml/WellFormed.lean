import SchemaEmbed.Proofs.Yaml.Resolved

namespace SchemaEmbed.Yaml

/-!
# What values are read from YAML

A text of YAML may have integers that no document can hold, keys that become the same string, and
floats that are not finite. None of these is left in the value that is read.

* `every_inRange` — merging brings no integer into a tree that a document cannot hold;
* `toValue_sound` — the value of a tree has different keys in every mapping, whichever keys become
  the same string, and no float that is infinite or NaN;
* `parse_sound` — **so has the value of a text**.
-/

open Value (Every EveryItem EveryEntry IsSound)

/-- Merging leaves integers in range, since it only moves entries from one mapping to another. -/
theorem every_inRange {t t' : Tree} (hloaded : t.Every IsLoaded) (h : t.mergeKeys = .ok t') :
    t'.Every IsInRange :=
  every_mergeKeysWithin (fun _ ht => ht.2) (fun _ => trivial) (fun _ _ => trivial)
    (fun _ _ _ _ _ _ => trivial) hloaded h

/-- The value of a number can be held: an integer in range is itself, and a float that is not
    finite is null. -/
theorem numberValue_sound {n : Number} (h : IsInRange (.number n)) :
    Every IsSound (numberValue n) := by
  cases n with
  | int i => exact ⟨h, trivial⟩
  | float x =>
    rw [numberValue]
    split
    · next hfinite => exact ⟨trivial, hfinite⟩
    · exact ⟨trivial, trivial⟩

mutual

/-- **The value of a tree** is as documents have it, if integers are in range. -/
theorem toValue_sound : ∀ {t : Tree} {v : Value}, t.Every IsInRange → t.toValue = .ok v →
    Every IsSound v
  | .null, _, _, h | .bool _, _, _, h | .string _, _, _, h => by
    cases h
    exact ⟨trivial, trivial⟩
  | .number _, _, hrange, h => by
    cases h
    exact numberValue_sound hrange
  | .sequence _, _, hrange, h => by
    obtain ⟨values, hvalues, rfl⟩ := map_eq_ok_iff.mp h
    exact ⟨⟨trivial, trivial⟩, toItems_sound hrange.2 hvalues⟩
  | .mapping _, _, hrange, h => by
    obtain ⟨entries, hentries, rfl⟩ := map_eq_ok_iff.mp h
    -- what is kept of the entries has different keys
    obtain ⟨hnodup, hkept⟩ := Entries.ofList_spec (P := fun e => Every IsSound e.2)
      (Value.everyEntry_iff.mp (toEntries_sound hrange.2 hentries))
    exact ⟨⟨hnodup, trivial⟩, Value.everyEntry_iff.mpr hkept⟩
  | .tagged .., _, _, h => by cases h

/-- The values of items are as documents have them, if integers are in range. -/
theorem toItems_sound : ∀ {items : List Tree} {values : List Value},
    Tree.EveryItem IsInRange items → Tree.toItems items = .ok values → EveryItem IsSound values
  | [], _, _, h => by
    cases h
    trivial
  | _ :: _, _, hrange, h => by
    obtain ⟨v, hv, h⟩ := bind_eq_ok_iff.mp h
    obtain ⟨values, hvalues, h⟩ := bind_eq_ok_iff.mp h
    cases h
    exact ⟨toValue_sound hrange.1 hv, toItems_sound hrange.2 hvalues⟩

/-- The values of entries are as documents have them, if integers are in range. Of the keys
    nothing is said yet, as some may be equal. -/
theorem toEntries_sound : ∀ {fields : Fields} {entries : List (String × Value)},
    Tree.EveryEntry IsInRange fields → Tree.toEntries fields = .ok entries →
    EveryEntry IsSound entries
  | [], _, _, h => by
    cases h
    trivial
  | (_, _) :: _, _, hrange, h => by
    obtain ⟨k, -, h⟩ := bind_eq_ok_iff.mp h
    obtain ⟨v, hv, h⟩ := bind_eq_ok_iff.mp h
    obtain ⟨entries, hentries, h⟩ := bind_eq_ok_iff.mp h
    cases h
    exact ⟨toValue_sound hrange.1.2 hv, toEntries_sound hrange.2 hentries⟩

end

/-- **The value of a text** is as documents have it: its keys are different in every mapping, its
    integers are in range and its floats are finite. -/
theorem parse_sound {text : String} {v : Value} (h : parse text = .ok v) : Every IsSound v := by
  obtain ⟨t, t', hload, hmerge, -, hvalue⟩ := parse_eq_ok_iff.mp h
  exact toValue_sound (every_inRange (load_loaded hload) hmerge) hvalue

end SchemaEmbed.Yaml
