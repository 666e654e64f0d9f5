import SchemaEmbed.Proofs.Json.Members
import SchemaEmbed.Proofs.Run.Embedding
import SchemaEmbed.Proofs.Toml.Parsed
import SchemaEmbed.Proofs.Yaml.WellFormed

namespace SchemaEmbed

/-!
# Values in memory

* `sound_of_parseAt` — what is read in any format has different keys in every mapping, integers in
  range and finite floats;
* `Document.embedEach` — a document after schemas were embedded one after the other;
* `embedEach_sound` — **embedding** keeps a document so, whatever is embedded and how often;
* `keys_embedEach` — the keys are then those of the bundle and the new ones, without repetitions;
* `values_well_formed` — all of this for every value that a run can hold.

The three formats have different reasons for what they read: JSON keeps one of several entries
with the same key, YAML one of several whose keys become the same string, and TOML refuses a second
one. Embedding is an update of the entries, so it adds a key at most once.
-/

open Value (Every IsSound)

/-! ### Reading

What a format reads is as documents have it, which is shown format by format; here it is said of
all formats that are always known.
-/

/-- **What is read** in a format that is always known is as documents have it. -/
theorem sound_of_parseAt {f : Format} (hf : f ∈ Format.builtin) {path text : String} {v : Value}
    (h : f.parseAt path text = .ok v) : Every IsSound v := by
  have hparse : f.parse text = .ok v := mapError_eq_ok_iff.mp h
  simp only [Format.builtin, List.mem_cons, List.not_mem_nil, or_false] at hf
  rcases hf with rfl | rfl | rfl
  · exact Json.parse_sound hparse
  · exact Toml.parse_sound hparse
  · exact Yaml.parse_sound hparse

/-! ### Embedding one schema after the other

A list of calls is taken from its end on, so that each proof is about one more call of a document
that is known to be sound.
-/

namespace Document

variable {d : Document} {entries : Entries Value} {calls : List (String × Value)}

/-- A document after schemas were embedded one after the other, each under its key.  A call that
    fails leaves it alone. -/
def embedEach (d : Document) (calls : List (String × Value)) : Document :=
  calls.foldl (fun d c => (d.embedState c.1 c.2).2) d

/-- One more call is made on the document that the others left. -/
theorem embedEach_concat (d : Document) (calls : List (String × Value)) (c : String × Value) :
    d.embedEach (calls ++ [c]) = ((d.embedEach calls).embedState c.1 c.2).2 := by
  rw [embedEach, List.foldl_append]
  rfl

/-- **One schema** that is as documents have it keeps a document so. What is no mapping is left
    as it is, since the call fails. -/
theorem embedState_sound (hd : d.value.Every IsSound) (key : String) {schema : Value}
    (hschema : schema.Every IsSound) : (d.embedState key schema).2.value.Every IsSound := by
  -- a mapping has the schema put into it, and all else is refused
  by_cases hobject : ∃ entries, d.value = .object entries
  · obtain ⟨entries, hentries⟩ := hobject
    rw [hentries] at hd
    rw [embedState_object hentries]
    exact every_embedded key hschema hd ⟨Entries.keys_put_nodup hd.1.1 key schema, trivial⟩
  · rw [embedState_other (fun entries h => hobject ⟨entries, h⟩)]
    exact hd

/-- **Any number of schemas**, embedded one after the other, keep a document as it should be. -/
theorem embedEach_sound (hd : d.value.Every IsSound) (hcalls : ∀ c ∈ calls, c.2.Every IsSound) :
    (d.embedEach calls).value.Every IsSound := by
  induction calls using List.reverseRecOn with
  | nil => exact hd
  | append_singleton calls c ih =>
    obtain ⟨hcalls, hc⟩ := List.forall_mem_append.mp hcalls
    rw [embedEach_concat]
    exact embedState_sound (ih hcalls) c.1 (hc c (List.mem_singleton_self c))

/-- **The keys** of a mapping after any number of calls: those it had, and the others in the order
    in which they first came. -/
theorem keys_embedEach (hvalue : d.value = .object entries) (hkeys : (Entries.keys entries).Nodup)
    (calls : List (String × Value)) : ∃ after, d.embedEach calls = { d with value := .object after }
      ∧ Entries.keys after = (Entries.keys entries ++ calls.map Prod.fst).eraseDups := by
  induction calls using List.reverseRecOn with
  | nil =>
    refine ⟨entries, ?_, ?_⟩
    · rw [← hvalue]
      rfl
    · rw [List.map_nil, List.append_nil, Entries.eraseDups_of_nodup hkeys]
  | append_singleton calls c ih =>
    obtain ⟨after, hafter, horder⟩ := ih
    -- the last call keeps the place of its key, or appends it
    refine ⟨embedded c.1 c.2 after, ?_, ?_⟩
    · rw [embedEach_concat, hafter, embedState_object rfl]
    · rw [keys_embedded, horder, keysWith, List.map_append, List.map_singleton, ← List.append_assoc,
        Entries.eraseDups_concat]
      simp only [List.mem_eraseDups]

/-- No key is there twice, and one under which a schema was embedded is there. -/
theorem count_embedEach {key : String} (hvalue : d.value = .object entries)
    (hkeys : (Entries.keys entries).Nodup) {after : Entries Value}
    (hafter : (d.embedEach calls).value = .object after) (hkey : key ∈ calls.map Prod.fst) :
    (Entries.keys after).count key = 1 := by
  obtain ⟨after', hstate, horder⟩ := keys_embedEach hvalue hkeys calls
  rw [hstate] at hafter
  cases hafter
  rw [horder]
  refine List.count_eq_one_of_mem (Entries.nodup_eraseDups _) ?_
  rw [List.mem_eraseDups]
  exact List.mem_append_right _ hkey

end Document

/-! ### All values -/

/-- **Values in memory** are as documents have them: at every depth the keys of a mapping are
    different, integers are in range and floats finite.

* So is every value that is read in any of the formats.
* What is read from JSON is what the text spells, and a mapping in it is what the members of an
  object in the text leave: each key in its first place, with its last value.
* A document stays so, whatever schemas that are so are embedded in it and how often.  Its keys are
  those that it had, and the others in the order in which they first came, so that there is one
  entry for each. -/
theorem values_well_formed :
    (∀ f ∈ Format.builtin, ∀ path text v, f.parseAt path text = .ok v →
      v.WellFormed ∧ v.FloatsFinite)
    ∧ (∀ path text v, Format.json.parseAt path text = .ok v →
      (∃ rest, Json.Spells text.toList v rest ∧ Json.skipBlanks rest = [])
        ∧ v.Every (Json.IsWritten text.toList))
    ∧ ∀ (d : Document) (calls : List (String × Value)), d.value.WellFormed → d.value.FloatsFinite →
      (∀ c ∈ calls, c.2.WellFormed ∧ c.2.FloatsFinite) →
      (d.embedEach calls).value.WellFormed ∧ (d.embedEach calls).value.FloatsFinite
      ∧ ∀ entries, d.value = .object entries → ∃ after,
        d.embedEach calls = { d with value := .object after }
        ∧ Entries.keys after = (Entries.keys entries ++ calls.map Prod.fst).eraseDups
        ∧ ∀ c ∈ calls, (Entries.keys after).count c.1 = 1 := by
  refine ⟨fun f hf path text v h => Value.every_isSound_iff.mp (sound_of_parseAt hf h),
    fun path text v h => ⟨Json.parse_spells (mapError_eq_ok_iff.mp h),
      Json.parse_isWritten (mapError_eq_ok_iff.mp h)⟩,
    fun d calls hwell hfinite hcalls => ?_⟩
  have hsound := Document.embedEach_sound (Value.every_isSound_iff.mpr ⟨hwell, hfinite⟩)
    fun c hc => Value.every_isSound_iff.mpr (hcalls c hc)
  obtain ⟨hwell', hfinite'⟩ := Value.every_isSound_iff.mp hsound
  refine ⟨hwell', hfinite', fun entries hentries => ?_⟩
  -- for the keys the document has to be a mapping
  rw [hentries] at hwell
  obtain ⟨after, hafter, horder⟩ := Document.keys_embedEach hentries hwell.1 calls
  exact ⟨after, hafter, horder, fun c hc => Document.count_embedEach hentries hwell.1
    (by rw [hafter]) (List.mem_map_of_mem hc)⟩

/-- A key that is repeated in a text and embedded twice. -/
theorem values_well_formed_repeated :
    let text := "[\x7b\"k\": 1, \"m\": 2, \"k\": 3\x7d]"
    let entries : Entries Value := [("k", .number (.int 3)), ("m", .number (.int 2))]
    let d : Document := ⟨"b.toml", Format.toml, .object entries⟩
    let calls := [("n", Value.null), ("m", .bool true), ("n", .object entries)]
    Format.json.parseAt "s.json" text = .ok (.array [.object entries])
      ∧ (Value.array [.object entries]).Every (Json.IsWritten text.toList)
      ∧ (d.embedEach calls).value.WellFormed
      ∧ ∃ after, (d.embedEach calls).value = .object after
        ∧ Entries.keys after = ["k", "m", "n"] := by
  have hparse : Format.json.parseAt "s.json" "[\x7b\"k\": 1, \"m\": 2, \"k\": 3\x7d]"
      = .ok (.array [.object [("k", .number (.int 3)), ("m", .number (.int 2))]]) := by
    decide +kernel
  intro text entries d calls
  obtain ⟨-, hwritten, hembed⟩ := values_well_formed
  obtain ⟨hwell, -, hkeys⟩ := hembed d calls (by decide) (by decide) (by decide)
  obtain ⟨after, hafter, horder, -⟩ := hkeys entries rfl
  exact ⟨hparse, (hwritten _ _ _ hparse).2, hwell, after, by rw [hafter], horder⟩

end SchemaEmbed
