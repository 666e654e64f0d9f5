import SchemaEmbed.Proofs.FileSystem.Root
import SchemaEmbed.Proofs.Json.Document
import SchemaEmbed.Proofs.Run.Embedding

namespace SchemaEmbed

/-!
# JSON documents in a run

Most examples of runs are with JSON bundles, since a JSON text without floats is read back as it
was written. The lemmas here say so for a file in a tree: what is loaded from it, and what the tree
is after a schema was embedded.

* `Fits` — whether a value can be written as JSON and read again;
* `loadFile_json` — a JSON document that was written is loaded;
* `embedFile_json` — what becomes of a JSON bundle;
* `run_nested` — a run whose schema is nested lists.
-/

variable {actor : Actor} {options : Options} {key path : String} {schema v : Value}
  {entries : Entries Value} {files files' : FileSystem}

/-- Whether a value can be written as JSON and read again: it is as documents have it, has
    no floats and does not nest too deep. -/
structure Fits (v : Value) : Prop where
  wellFormed : v.WellFormed
  floatFree : v.FloatFree
  depth_le : v.depth ≤ Json.maxDepth

/-! ### Loading and writing -/

/-- A JSON document that was written is loaded. -/
theorem loadFile_json (hpath : Format.json.claims path = true) (hv : Fits v)
    (hread : files.readText actor path = .ok (Json.render v)) :
    loadFile actor .standard files path = .ok ⟨path, Format.json, v⟩ :=
  loadFile_eq_ok_iff.mpr ⟨Json.render v, hread, rfl, Json.detect_json hpath _,
    Json.parse_render hv.wellFormed hv.floatFree hv.depth_le⟩

/-- A JSON document that nests too deep is not loaded, though it could be written. -/
theorem loadFile_json_deep (hpath : Format.json.claims path = true) (hv : v.WellFormed)
    (hfloat : v.FloatFree) (hdepth : Json.maxDepth < v.depth)
    (hread : files.readText actor path = .ok (Json.render v)) :
    ∃ reason, loadFile actor .standard files path = .error (.parseFailed path "json" reason) := by
  obtain ⟨f, -, hparse⟩ := Json.parse_render_deep hv hfloat hdepth
  have hparseAt : Format.json.parseAt path (Json.render v)
      = .error (.parseFailed path "json" (f.message (Json.render v).toList)) :=
    mapError_eq_error_iff.mpr ⟨_, hparse, rfl⟩
  refine ⟨f.message (Json.render v).toList, ?_⟩
  rw [loadFile, hread]
  show Document.ofText .standard path (Json.render v) = _
  rw [Document.ofText, Json.detect_json hpath, ok_bind, hparseAt]
  rfl

/-- A JSON bundle that was written is prepared: it is read as its entries, and has the schema
    embedded. -/
theorem prepareFile_json (hpath : Format.json.claims path = true)
    (hentries : Fits (.object entries))
    (hread : files.readText actor path = .ok (Json.render (.object entries))) :
    prepareFile actor .standard key schema files path
      = .ok (! Document.holds entries key schema,
          ⟨path, Format.json, .object (embedded key schema entries)⟩) :=
  prepareFile_eq_ok_iff.mpr ⟨_, _, entries, hread, Json.detect_json hpath _,
    Json.parse_render hentries.wellFormed hentries.floatFree hentries.depth_le, rfl, rfl⟩

/-- **What becomes of a JSON bundle**: it is written with the schema embedded. -/
theorem embedFile_json (hcheck : options.check = false) (hpath : Format.json.claims path = true)
    (hentries : Fits (.object entries))
    (hread : files.readText actor path = .ok (Json.render (.object entries)))
    (hwrite : files.writeText actor options.mode path
      (Json.render (.object (embedded options.key schema entries))) = .ok files') :
    embedFile actor .standard options schema path files
      = (.ok (! Document.holds entries options.key schema), files') := by
  have hstore : storeFile actor options.mode
      ⟨path, Format.json, .object (embedded options.key schema entries)⟩ files = .ok files' :=
    storeFile_eq_ok_iff.mpr ⟨_, rfl, hwrite⟩
  rw [embedFile, prepareFile_json hpath hentries hread]
  simp only [hcheck, hstore, Bool.false_eq_true, ↓reduceIte]

/-! ### Nested lists as a schema

Lists that nest to a given depth are the simplest values at the limit of what JSON reads. With such
a schema the bundle is one level deeper than the schema.
-/

/-- Lists that nest `n` deep as a schema, and a bundle with these entries. -/
def nestedFiles (n : Nat) (entries : Entries Value) : FileSystem :=
  .schemaAndBundle (Json.render (.nested n)) (Json.render (.object entries))

/-- The schema of nested lists is loaded, if it is not too deep. -/
theorem loadFile_nested {n : Nat} (hn : n ≤ 127) (entries : Entries Value) :
    loadFile .superuser .standard (nestedFiles n entries) "s.json"
      = .ok ⟨"s.json", Format.json, .nested n⟩ :=
  loadFile_json (Json.claims_json (by decide))
    ⟨Value.wellFormed_nested n, Value.floatFree_nested n, by rw [Value.depth_nested]; exact hn⟩
    (FileSystem.readText_schema _ _)

/-- A run embeds nested lists into an empty bundle. -/
theorem run_nested {n : Nat} (hn : n ≤ 127) :
    World.run .superuser .standard ⟨"k", .inPlace, false⟩ "s.json" ["b.json"] (nestedFiles n [])
      = (.ok ⟨["b.json"], []⟩, nestedFiles n [("k", .nested n)]) := by
  have hempty : Fits (.object []) :=
    ⟨⟨List.nodup_nil, trivial⟩, ⟨trivial, trivial⟩, by decide⟩
  have hembed : embedFile .superuser .standard ⟨"k", .inPlace, false⟩ (.nested n) "b.json"
      (nestedFiles n []) = (.ok true, nestedFiles n [("k", .nested n)]) :=
    embedFile_json rfl (Json.claims_json (by decide)) hempty
      (FileSystem.readText_bundle _ _) (FileSystem.writeText_bundle _ _ _)
  rw [World.run_eq, loadFile_nested hn]
  simp only [embedFiles, hembed]
  rfl

end SchemaEmbed
