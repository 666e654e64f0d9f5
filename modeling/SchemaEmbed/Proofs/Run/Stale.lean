import SchemaEmbed.Proofs.Run.Check
import SchemaEmbed.Proofs.Run.Embedding

namespace SchemaEmbed

/-!
# When a bundle is out of date

* `Document.embed_false_iff` — **a bundle is up to date** if it holds the schema under the key but
  for the order of entries, at any depth;
* `Document.embedState_reordered` — in which order the schema has its entries does not count;
* `embedFiles_reordered` — nor does it for a check.

Values are compared entry by entry: two mappings are equal if they have as many entries and every
value of the one equals the value of the other under the same key. With different keys in every
mapping this is the relation `Value.Reordered`, which does not mention how the comparison goes.
-/

namespace Document

variable {d : Document} {key : String} {schema schema' : Value} {entries : Entries Value}

/-- **A bundle is up to date** if it holds the schema but for the order of entries. -/
theorem embed_false_iff (h : d.value = .object entries) (hkeys : d.value.KeysDistinct) :
    (d.embedState key schema).1 = .ok false ↔
      ∃ stored, Entries.find? key entries = some stored ∧ Value.Reordered stored schema := by
  rw [embedState_object h, Except.ok.injEq, Bool.not_eq_false', holds_iff]
  refine exists_congr fun stored => and_congr_right fun hstored => ?_
  rw [h] at hkeys
  exact Value.same_iff_reordered
    (Value.everyEntry_iff.mp hkeys.2 _ (Entries.mem_of_find hstored)) schema

/-- In which order the schema has its entries does not count for what is reported. -/
theorem embedState_reordered (hkeys : d.value.KeysDistinct) (h : Value.Reordered schema schema')
    (key : String) :
    (d.embedState key schema).1 = (d.embedState key schema').1 := by
  by_cases hobject : ∃ entries, d.value = .object entries
  · obtain ⟨entries, hentries⟩ := hobject
    have hiff : (d.embedState key schema).1 = .ok false
        ↔ (d.embedState key schema').1 = .ok false := by
      rw [embed_false_iff hentries hkeys, embed_false_iff hentries hkeys]
      exact exists_congr fun stored => and_congr_right fun _ =>
        ⟨fun hstored => hstored.trans h, fun hstored => hstored.trans h.symm⟩
    rw [embedState_object hentries, embedState_object hentries] at hiff ⊢
    rw [Except.ok.injEq, Except.ok.injEq, Bool.not_eq_false', Bool.not_eq_false'] at hiff
    rw [Bool.eq_iff_iff.mpr hiff]
  · have hother : ∀ entries, d.value ≠ .object entries := fun entries h => hobject ⟨entries, h⟩
    rw [embedState_other hother, embedState_other hother]

/-- **When a bundle is out of date.** If keys are different in a mapping at every depth:

* nothing is reported as changed exactly if the value under the key is the schema but for the order
  of entries;
* the relation that decides this is reflexive, symmetric and transitive;
* so that what is up to date with a schema is so with every reordering of it. -/
theorem up_to_date_iff_reordered :
    (∀ (d : Document) (key : String) (schema : Value) (entries : Entries Value),
      d.value = .object entries → d.value.KeysDistinct →
      ((d.embedState key schema).1 = .ok false ↔
        ∃ stored, Entries.find? key entries = some stored ∧ Value.Reordered stored schema))
    ∧ (∀ v : Value, v.KeysDistinct → v.FloatsFinite → v.same v = true)
    ∧ (∀ v w : Value, v.KeysDistinct → w.KeysDistinct → v.same w = w.same v)
    ∧ (∀ u v w : Value, u.KeysDistinct → v.KeysDistinct →
      u.same v = true → v.same w = true → u.same w = true)
    ∧ ∀ (d : Document) (key : String) (schema schema' : Value), d.value.KeysDistinct →
      Value.Reordered schema schema' → d.embedState key schema = (.ok false, d) →
      d.embedState key schema' = (.ok false, d) := by
  refine ⟨fun d key schema entries => embed_false_iff, fun v => Value.same_self,
    fun v w hv hw => ?_, fun u v w hu hv huv hvw => ?_,
    fun d key schema schema' hkeys hreordered h => ?_⟩
  · rw [Bool.eq_iff_iff, Value.same_iff_reordered hv, Value.same_iff_reordered hw]
    exact ⟨.symm, .symm⟩
  · rw [Value.same_iff_reordered hu] at huv ⊢
    exact huv.trans ((Value.same_iff_reordered hv w).mp hvw)
  · have hflag : (d.embedState key schema').1 = .ok false := by
      rw [← embedState_reordered hkeys hreordered, h]
    exact embedState_unchanged hflag

/-- A schema file that lists its keys in another order leaves a bundle up to date. -/
theorem up_to_date_reordered :
    let stored := Value.object
      [("a", .array [.object [("x", .null), ("y", .bool true)]]), ("b", .null)]
    let schema := Value.object
      [("b", .null), ("a", .array [.object [("y", .bool true), ("x", .null)]])]
    let d : Document := ⟨"b.json", Format.json, .object [("k", stored)]⟩
    d.value.KeysDistinct ∧ Value.Reordered stored schema
      ∧ d.embedState "k" schema = (.ok false, d) := by
  intro stored schema d
  obtain ⟨hiff, -, -, -, hstays⟩ := up_to_date_iff_reordered
  have hkeys : d.value.KeysDistinct := by decide
  have hself : d.embedState "k" stored = (.ok false, d) := rfl
  obtain ⟨v, hv, hreordered⟩ := (hiff d "k" schema _ rfl hkeys).mp rfl
  cases hv
  exact ⟨hkeys, hreordered, hstays d "k" stored schema hkeys hreordered hself⟩

end Document

/-! ### Checks -/

/-- **A check** does not see in which order the schema has its entries, if the keys of the bundles
    are different. -/
theorem embedFiles_reordered {actor : Actor} {r : Registry} {options : Options}
    {schema schema' : Value} {bundles : List String} {files : FileSystem}
    (hcheck : options.check = true) (h : Value.Reordered schema schema')
    (hkeys : ∀ path ∈ bundles, ∀ d, loadFile actor r files path = .ok d → d.value.KeysDistinct) :
    embedFiles actor r options schema bundles files
      = embedFiles actor r options schema' bundles files := by
  induction bundles with
  | nil => rfl
  | cons path rest ih =>
    have hfirst : embedFile actor r options schema path files
        = embedFile actor r options schema' path files := by
      rw [embedFile_check hcheck, embedFile_check hcheck, prepareFile, prepareFile]
      cases hload : loadFile actor r files path with
      | error f => rfl
      | ok d =>
        have hflag := Document.embedState_reordered (hkeys path List.mem_cons_self d hload) h
          options.key
        rw [Document.embedState_fst, Document.embedState_fst] at hflag
        exact congrArg (·, files) hflag
    have hafter : (embedFile actor r options schema' path files).2 = files := by
      rw [embedFile_check hcheck]
    -- a check leaves the tree, so that the bundles that follow are loaded as before
    rcases hrun : embedFile actor r options schema' path files with ⟨f | changed, files'⟩
    · rw [embedFiles_of_error (hfirst.trans hrun), embedFiles_of_error hrun]
    · obtain rfl : files' = files := by rw [← hafter, hrun]
      rw [embedFiles_of_ok (hfirst.trans hrun), embedFiles_of_ok hrun,
        ih fun p hp => hkeys p (List.mem_cons_of_mem _ hp)]

end SchemaEmbed
