import Mathlib.Data.List.Nodup
import SchemaEmbed.Format.Builtin
import SchemaEmbed.Proofs.Entries
import SchemaEmbed.Proofs.Path

namespace SchemaEmbed

/-!
# Registering formats

* `Registry.offer` — what registering a format returns together with the registry it leaves;
* `Registered` — which of the formats offered so far a registry has: the first of each name, in
  order;
* `registered_offer` / `registered_offerAll` — **one more format**, and any number of them;
* `detect_offer` — what a new format changes about detection;
* `byExtension?_toLower` — the case of letters in a path does not count;
* `registry_stable` — all of this for every registry that can be made.
-/

/-- Formats claim a path by its extension in lower case. -/
theorem Format.claims_toLower (f : Format) {path path' : String}
    (h : path.toLower = path'.toLower) : f.claims path = f.claims path' := by
  have hext : (Path.extension? path).map String.toLower
      = (Path.extension? path').map String.toLower := by
    rw [← Path.extension?_toLower, ← Path.extension?_toLower, h]
  unfold Format.claims sameExtension
  rcases hone : Path.extension? path with _ | ext <;>
    rcases htwo : Path.extension? path' with _ | ext' <;> rw [hone, htwo] at hext
  · cases hext
  · cases hext
  · rw [Option.map_some, Option.map_some, Option.some.injEq] at hext
    simp only [hext]

/-- Two extensions are the same exactly if they are so letter by letter in lower case. -/
theorem sameExtension_eq (a b : String) :
    sameExtension a b = decide (a.toList.map Char.toLower = b.toList.map Char.toLower) := by
  have hlower (s : String) : s.toLower.toList = s.toList.map Char.toLower := String.toList_map
  rw [sameExtension, ← hlower, ← hlower, Bool.eq_iff_iff, beq_iff_eq, decide_eq_true_iff,
    String.toList_inj]

/-- What a format claims of a path with an extension, without a text in lower case. -/
theorem Format.claims_eq (f : Format) {path ext : String} (h : Path.extension? path = some ext) :
    f.claims path = f.extensions.any fun e =>
      decide (e.toList.map Char.toLower = ext.toList.map Char.toLower) := by
  simp only [Format.claims, h, sameExtension_eq]

namespace Registry

/-! ### One more format -/

/-- What registering a format returns, and the registry as it is afterwards. -/
def offer (r : Registry) (f : Format) : Except Failure Unit × Registry :=
  match r.register f with
  | .ok r' => (.ok (), r')
  | .error e => (.error e, r)

/-- The registry after formats were offered one after the other, some of which may be refused. -/
def offerAll (r : Registry) (fs : List Format) : Registry := fs.foldl (fun r f => (r.offer f).2) r

/-- A format is found by name if the name is there. -/
theorem get?_isSome_iff {r : Registry} {name : String} :
    (r.get? name).isSome = true ↔ name ∈ r.names := by
  simp [get?, names]

/-- A format whose name is there is refused. -/
theorem offer_of_mem {r : Registry} {f : Format} (h : f.name ∈ r.names) :
    r.offer f = (.error (.duplicateFormat f.name), r) := by
  rw [offer, register, if_pos (get?_isSome_iff.mpr h)]

/-- A format whose name is new is added after all the others, which stay as they are. -/
theorem offer_of_not_mem {r : Registry} {f : Format} (h : f.name ∉ r.names) :
    r.offer f = (.ok (), ⟨r.formats ++ [f]⟩) := by
  rw [offer, register, if_neg (mt get?_isSome_iff.mp h)]

/-- A format that was added is found under its name, since no format before it has that name. -/
theorem get?_offer {r : Registry} {f : Format} (h : f.name ∉ r.names) :
    (r.offer f).2.get? f.name = some f := by
  have hnone : r.formats.find? (·.name == f.name) = none := by
    rw [← Option.not_isSome_iff_eq_none]
    exact mt get?_isSome_iff.mp h
  rw [offer_of_not_mem h, get?, List.find?_append, hnone]
  simp

/-- Which of the formats offered so far a registry has: names are different and in the order in
    which they were first offered, and each stands for the first format of that name. -/
structure Registered (offered : List Format) (r : Registry) : Prop where
  nodup : r.names.Nodup
  order : r.names = (offered.map Format.name).eraseDups
  found : ∀ name, r.get? name = offered.find? (·.name == name)

variable {r : Registry} {offered : List Format}

/-- **One more format** is registered if its name is new. -/
theorem registered_offer (h : Registered offered r) (f : Format) :
    Registered (offered ++ [f]) (r.offer f).2 := by
  have hmem : f.name ∈ r.names ↔ f.name ∈ offered.map Format.name := by
    rw [h.order, List.mem_eraseDups]
  by_cases hnew : f.name ∈ r.names
  · rw [offer_of_mem hnew]
    refine ⟨h.nodup, ?_, fun name => ?_⟩
    · rw [List.map_append, List.map_singleton, Entries.eraseDups_concat, if_pos (hmem.mp hnew),
        h.order]
    · rw [h.found, List.find?_append]
      by_cases hname : f.name = name
      · -- a format of that name was offered before
        have hthere : (offered.find? (·.name == name)).isSome = true := by
          rw [← h.found, get?_isSome_iff, ← hname]
          exact hnew
        obtain ⟨g, hg⟩ := Option.isSome_iff_exists.mp hthere
        rw [hg, Option.some_or]
      · simp [hname]
  · rw [offer_of_not_mem hnew]
    refine ⟨?_, ?_, fun name => ?_⟩
    · show (r.formats ++ [f]).map Format.name |>.Nodup
      rw [List.map_append, List.map_singleton]
      refine h.nodup.append (List.nodup_singleton _) ?_
      rwa [List.disjoint_singleton]
    · rw [List.map_append, List.map_singleton, Entries.eraseDups_concat, if_neg (mt hmem.mpr hnew),
        ← h.order]
      exact List.map_append
    · have hfound : r.formats.find? (·.name == name) = _ := h.found name
      rw [get?, List.find?_append, hfound, List.find?_append]

/-- **Formats offered one after the other**, of which the first of each name are registered. -/
theorem registered_offerAll (h : Registered offered r) (fs : List Format) :
    Registered (offered ++ fs) (r.offerAll fs) := by
  induction fs generalizing offered r with
  | nil => rwa [List.append_nil]
  | cons f fs ih =>
    have hrest := ih (registered_offer h f)
    rwa [List.append_assoc] at hrest

/-- No format was offered to the empty registry. -/
theorem registered_empty : Registered [] .empty := ⟨List.nodup_nil, rfl, fun _ => rfl⟩

/-- The formats that are always known have different names. -/
theorem registered_standard : Registered Format.builtin .standard :=
  ⟨by decide, by decide, fun _ => rfl⟩

/-! ### Detection -/

/-- **What a new format changes** about detection. -/
theorem detect_offer {f : Format} (h : f.name ∉ r.names) (path text : String) :
    (r.offer f).2.detect path text =
      if r.formats.any (·.claims path) then r.detect path text
      else if f.claims path then .ok f
      else if r.formats.any (·.sniff text) then r.detect path text
      else if f.sniff text then .ok f
      else .error (.unknownFormat path) := by
  rw [offer_of_not_mem h]
  simp only [detect, byExtension?, List.find?_append, ← List.isSome_find?]
  cases r.formats.find? (·.claims path) with
  | some g => rfl
  | none =>
    cases hclaims : f.claims path with
    | true => simp [hclaims]
    | false =>
      cases r.formats.find? (·.sniff text) with
      | some g => simp [hclaims]
      | none => cases hsniff : f.sniff text <;> simp [hclaims, hsniff]

/-- A path that is claimed has one format, whatever its text. -/
theorem detect_of_claimed {path : String} {g : Format} (h : r.byExtension? path = some g)
    (text : String) : r.detect path text = .ok g := by
  rw [detect, h]

/-- **The case of letters** in a path does not count for its extension. -/
theorem byExtension?_toLower (r : Registry) {path path' : String}
    (h : path.toLower = path'.toLower) : r.byExtension? path = r.byExtension? path' := by
  unfold byExtension?
  simp only [Format.claims_toLower _ h]

/-- **Registries stay in order.** After any formats were offered to the empty registry or to that
    of the formats that are always known, it has the first format of each name in order, and for
    one more format:

* it is refused if its name is there, and the registry is left alone; else it is added at the end
  and found under its name;
* if it is added, a path that was claimed by extension has the format that it had, whatever its
  text; else the new format takes the paths that it claims; else what was recognised by text stays;
  else the new format takes what it recognises, and nothing has the rest;
* the case of letters in a path does not count for its extension. -/
theorem registry_stable {start : Registry} (hstart : start = .empty ∨ start = .standard)
    (fs : List Format) :
    let r := start.offerAll fs
    Registered (start.formats ++ fs) r
    ∧ (∀ f : Format,
      (f.name ∈ r.names → r.offer f = (.error (.duplicateFormat f.name), r))
      ∧ (f.name ∉ r.names →
        r.offer f = (.ok (), ⟨r.formats ++ [f]⟩) ∧ (r.offer f).2.get? f.name = some f))
    ∧ (∀ f : Format, f.name ∉ r.names → ∀ path,
      (r.formats.any (·.claims path) = true →
        ∃ g, ∀ text, r.detect path text = .ok g ∧ (r.offer f).2.detect path text = .ok g)
      ∧ ∀ text, (r.offer f).2.detect path text =
        if r.formats.any (·.claims path) then r.detect path text
        else if f.claims path then .ok f
        else if r.formats.any (·.sniff text) then r.detect path text
        else if f.sniff text then .ok f
        else .error (.unknownFormat path))
    ∧ ∀ path path' : String, path.toLower = path'.toLower →
      r.byExtension? path = r.byExtension? path'
      ∧ ∀ text, (r.byExtension? path).isSome = true → r.detect path text = r.detect path' text := by
  intro r
  have hr : Registered (start.formats ++ fs) r := by
    rcases hstart with rfl | rfl
    · exact registered_offerAll registered_empty fs
    · exact registered_offerAll registered_standard fs
  refine ⟨hr, fun f => ⟨offer_of_mem, fun hnew => ⟨offer_of_not_mem hnew, get?_offer hnew⟩⟩,
    fun f hnew path => ⟨fun hclaimed => ?_, detect_offer hnew path⟩, fun path path' h => ?_⟩
  · rw [← List.isSome_find?] at hclaimed
    obtain ⟨g, hg⟩ := Option.isSome_iff_exists.mp hclaimed
    refine ⟨g, fun text => ⟨detect_of_claimed hg text, ?_⟩⟩
    rw [detect_offer hnew, ← List.isSome_find?, hclaimed]
    exact detect_of_claimed hg text
  · refine ⟨byExtension?_toLower r h, fun text hsome => ?_⟩
    obtain ⟨g, hg⟩ := Option.isSome_iff_exists.mp hsome
    rw [detect_of_claimed hg, detect_of_claimed (byExtension?_toLower r h ▸ hg)]

/-- A format that claims an extension takes a path from the format that recognises its text. -/
theorem detect_claimed_after_recognised :
    let hcl : Format := { Format.json with name := "hcl", extensions := ["HCL"] }
    Registry.standard.detect "a.hcl" "[]" = .ok Format.json
      ∧ (Registry.standard.offer hcl).2.detect "a.hcl" "[]" = .ok hcl := by
  intro hcl
  have hnew : hcl.name ∉ Registry.standard.names := by decide
  have hext : Path.extension? "a.hcl" = some "hcl" := by decide
  have hunclaimed : Registry.standard.formats.any (·.claims "a.hcl") = false := by
    show [Format.json, Format.toml, Format.yaml].any (·.claims "a.hcl") = false
    simp only [List.any_cons, List.any_nil, Format.claims_eq _ hext]
    decide
  have hclaims : hcl.claims "a.hcl" = true := by
    rw [Format.claims_eq _ hext]
    decide
  have hbefore : Registry.standard.detect "a.hcl" "[]" = .ok Format.json := by
    have hnone : Registry.standard.byExtension? "a.hcl" = none :=
      List.find?_eq_none.mpr (List.any_eq_false.mp hunclaimed)
    have hsniff : Format.json.sniff "[]" = true := by decide +kernel
    have hfind : Registry.standard.formats.find? (·.sniff "[]") = some Format.json :=
      List.find?_cons_of_pos hsniff
    rw [detect, hnone, hfind]
  obtain ⟨-, -, hdetect, -⟩ := registry_stable (.inr rfl) []
  have hafter : (Registry.standard.offer hcl).2.detect "a.hcl" "[]" = _ :=
    (hdetect hcl hnew "a.hcl").2 "[]"
  refine ⟨hbefore, hafter.trans ?_⟩
  show (if Registry.standard.formats.any (·.claims "a.hcl") = true then _ else _) = _
  rw [hunclaimed, if_neg Bool.false_ne_true, if_pos hclaims]

end Registry

end SchemaEmbed
