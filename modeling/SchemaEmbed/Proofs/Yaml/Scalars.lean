import SchemaEmbed.Proofs.Yaml.Collisions

namespace SchemaEmbed.Yaml

/-!
# Scalars that become null

Structured values have no infinite floats and none that are no number, since JSON has no text for
them. YAML can write them, as `.inf` and `.nan`; they become null when a tree is structured,
without an error.

* `IsFinite` — whether a tree itself is no such float;
* `Carries` — whether a value has the scalars of a tree, each in its place; with leave to do so, a
  float that is not finite is null;
* `toValue_carries`, `every_of_carries` — no scalar is changed except by this leave, which is
  needed exactly if a float in the tree is not finite;
* `parse_carries` — the same for **loading**, where merging brings no such float in.

Keys are no exception to be named: a float that is not finite is refused as a key, so the keys of a
tree that has a value are finite.
-/

/-- Whether a tree itself is no infinite float and no float that is no number; integers and all
    that is no number are finite. -/
def IsFinite : Tree → Prop
  | .number (.float x) => x.isFinite = true
  | _ => True

/-- Whether a value has the scalars of a tree, each in its place.  With leave to do so, a float
    that is not finite is null.  Every key is a string, and of those that become the same one the
    last value counts. -/
inductive Carries (leave : Bool) : Tree → Value → Prop
  | null : Carries leave .null .null
  | bool (b) : Carries leave (.bool b) (.bool b)
  | number {n} (h : IsFinite (.number n)) : Carries leave (.number n) (.number n)
  | lost {n} (hleave : leave = true) (h : ¬ IsFinite (.number n)) : Carries leave (.number n) .null
  | string (s) : Carries leave (.string s) (.string s)
  | sequence {items values} (h : List.Forall₂ (Carries leave) items values) :
    Carries leave (.sequence items) (.array values)
  | mapping {fields : Fields} {written : List (String × Value)}
    (keys : fields.map (fun e => keyOf e.1) = (Entries.keys written).map .ok)
    (values : List.Forall₂ (Carries leave) (fields.map Prod.snd) (written.map Prod.snd)) :
    Carries leave (.mapping fields) (.object (Entries.ofList written))

/-! ### What is carried

By induction on the tree, and in the other direction too: from the value alone it can be told that
the tree had no such float.
-/

/-- The value of a number is the number if it is finite, and null if not, for which there must be
    leave. -/
theorem numberValue_carries {leave : Bool} {n : Number}
    (h : leave = false → IsFinite (.number n)) : Carries leave (.number n) (numberValue n) := by
  by_cases hfinite : IsFinite (.number n)
  · have hvalue : numberValue n = .number n := by
      cases n with
      | int i => rfl
      | float x => exact if_pos hfinite
    exact hvalue ▸ .number hfinite
  · have hvalue : numberValue n = .null := by
      cases n with
      | int i => exact absurd trivial hfinite
      | float x => exact if_neg hfinite
    cases leave with
    | true => exact hvalue ▸ .lost rfl hfinite
    | false => exact absurd (h rfl) hfinite

mutual

/-- **The value of a tree** has the scalars of the tree.  There must be leave unless all floats
    are finite. -/
theorem toValue_carries {leave : Bool} : ∀ {t : Tree} {v : Value}, t.toValue = .ok v →
    (leave = false → t.Every IsFinite) → Carries leave t v
  | .null, _, hv, _ => by cases hv; exact .null
  | .bool b, _, hv, _ => by cases hv; exact .bool b
  | .number n, _, hv, h => by cases hv; exact numberValue_carries h
  | .string s, _, hv, _ => by cases hv; exact .string s
  | .tagged .., _, hv, _ => by cases hv
  | .sequence items, _, hv, h => by
    obtain ⟨values, hvalues, rfl⟩ := map_eq_ok_iff.mp hv
    exact .sequence (toItems_carries hvalues fun hleave => (h hleave).2)
  | .mapping fields, _, hv, h => by
    obtain ⟨entries, hentries, rfl⟩ := map_eq_ok_iff.mp hv
    exact .mapping (map_keyOf hentries) (toEntries_carries hentries fun hleave => (h hleave).2)

/-- Each value has the scalars of the item in its place. -/
theorem toItems_carries {leave : Bool} : ∀ {items : List Tree} {values : List Value},
    Tree.toItems items = .ok values → (leave = false → Tree.EveryItem IsFinite items) →
    List.Forall₂ (Carries leave) items values
  | [], _, hitems, _ => by cases hitems; exact .nil
  | t :: items, _, hitems, h => by
    obtain ⟨v, hv, hitems⟩ := bind_eq_ok_iff.mp hitems
    obtain ⟨values, hvalues, heq⟩ := bind_eq_ok_iff.mp hitems
    cases heq
    exact .cons (toValue_carries hv fun hleave => (h hleave).1)
      (toItems_carries hvalues fun hleave => (h hleave).2)

/-- Each value under a key has the scalars of the tree under that key. -/
theorem toEntries_carries {leave : Bool} : ∀ {fields : Fields} {entries : List (String × Value)},
    Tree.toEntries fields = .ok entries → (leave = false → Tree.EveryEntry IsFinite fields) →
    List.Forall₂ (Carries leave) (fields.map Prod.snd) (entries.map Prod.snd)
  | [], _, hfields, _ => by cases hfields; exact .nil
  | (k, t) :: fields, _, hfields, h => by
    obtain ⟨s, -, hfields⟩ := bind_eq_ok_iff.mp hfields
    obtain ⟨v, hv, hfields⟩ := bind_eq_ok_iff.mp hfields
    obtain ⟨entries, hentries, heq⟩ := bind_eq_ok_iff.mp hfields
    cases heq
    exact .cons (toValue_carries hv fun hleave => (h hleave).1.2)
      (toEntries_carries hentries fun hleave => (h hleave).2)

end

/-- A key that becomes a string is finite, all of it: it is a scalar, and a float that is not
    finite is refused. -/
theorem every_of_keyOf {k : Tree} {s : String} (h : keyOf k = .ok s) : k.Every IsFinite := by
  cases k with
  | number n =>
    cases n with
    | int i => trivial
    | float x =>
      rw [keyOf] at h
      split at h
      · next hfinite => exact hfinite
      · cases h
  | string | bool => trivial
  | _ => cases h

mutual

/-- **Without leave** all floats are finite, in a tree whose scalars a value has. -/
theorem every_of_carries : ∀ {t : Tree} {v : Value}, Carries false t v → t.Every IsFinite
  | .null, _, _ | .bool _, _, _ | .string _, _, _ => trivial
  | .number _, _, .number h => h
  | .number _, _, .lost hleave _ => nomatch hleave
  | .sequence _, _, .sequence h => ⟨trivial, everyItem_of_carries h⟩
  | .mapping _, _, .mapping hkeys hvalues => by
    refine ⟨trivial, everyEntry_of_carries (fun e he => ?_) hvalues⟩
    obtain ⟨s, -, hs⟩ := List.mem_map.mp (hkeys ▸ List.mem_map_of_mem he)
    exact every_of_keyOf hs.symm

/-- If values have the scalars of items without leave, all floats of the items are finite. -/
theorem everyItem_of_carries : ∀ {items : List Tree} {values : List Value},
    List.Forall₂ (Carries false) items values → Tree.EveryItem IsFinite items
  | [], _, _ => trivial
  | _ :: _, _, .cons h hs => ⟨every_of_carries h, everyItem_of_carries hs⟩

/-- If values have the scalars of entries without leave, all floats of the entries are finite;
    for the keys this is known. -/
theorem everyEntry_of_carries : ∀ {fields : Fields} {values : List Value},
    (∀ e ∈ fields, e.1.Every IsFinite) → List.Forall₂ (Carries false) (fields.map Prod.snd) values →
    Tree.EveryEntry IsFinite fields
  | [], _, _, _ => trivial
  | (_, _) :: _, _, hkeys, .cons h hs =>
    have hkeys := List.forall_mem_cons.mp hkeys
    ⟨⟨hkeys.1, every_of_carries h⟩, everyEntry_of_carries hkeys.2 hs⟩

end

/-! ### Texts -/

/-- **Loading** changes no scalar of the merged tree, except that a float that is not finite
    becomes null.  Merging brings no such float in. -/
theorem parse_carries {text : String} {v : Value} (h : parse text = .ok v) :
    ∃ t t', load text = .ok t ∧ t.mergeKeys = .ok t' ∧ Carries true t' v
      ∧ (Carries false t' v ↔ t'.Every IsFinite) ∧ (t.Every IsFinite → t'.Every IsFinite) := by
  obtain ⟨t, t', hload, hmerge, -, hvalue⟩ := parse_eq_ok_iff.mp h
  refine ⟨t, t', hload, hmerge, toValue_carries hvalue nofun, ?_, fun hfinite => ?_⟩
  · exact ⟨every_of_carries, fun hfinite => toValue_carries hvalue fun _ => hfinite⟩
  · exact every_mergeKeysWithin (fun _ h => h) (fun _ => trivial) (fun _ _ => trivial)
      (fun _ _ _ _ _ _ => trivial) hfinite hmerge

end SchemaEmbed.Yaml
