import SchemaEmbed.Proofs.FileSystem.Overwrite
import SchemaEmbed.Proofs.Run.Files

namespace SchemaEmbed

/-!
# The steps of a run

A bundle goes through two steps: it is prepared, which is to load it and embed the schema, and it
is stored. Everything that can become of it is one of the four cases of `Step`; each proof about
runs takes them apart once, instead of unfolding what a run does.

* `prepareFile_eq_ok_iff`, `storeFile_eq_ok_iff` — what it takes to embed a schema into a bundle
  and to write it back;
* `prepareFile_error`, `storeFile_error` — the failures of the one are none of the other;
* `prepareFile_kept` — a bundle that reads as before is prepared as before;
* `Step` — what can become of a bundle, and of the tree with it;
* `embedFiles_touched` — **the frame of a run**: only bundles are written.
-/

variable {actor : Actor} {r : Registry} {options : Options} {key : String} {schema : Value}
  {files files' : FileSystem} {path : String}

/-! ### Preparing and storing

For each function one lemma says when it succeeds and with what, and one says which failures it
has. The failures of storing are recognised by `Failure.isStoreFailure`.
-/

/-- The entries of a bundle with the schema embedded: they stay if they hold it already, also in
    their order. -/
def embedded (key : String) (schema : Value) (entries : Entries Value) : Entries Value :=
  if Document.holds entries key schema then entries else Entries.put key schema entries

/-- A document is loaded if its path has a text, a format is detected for it, and the format
    reads it. -/
theorem loadFile_eq_ok_iff {d : Document} :
    loadFile actor r files path = .ok d ↔
      ∃ text, files.readText actor path = .ok text ∧ d.path = path ∧
        r.detect path text = .ok d.format ∧ d.format.parse text = .ok d.value := by
  unfold loadFile Document.ofText Format.parseAt
  constructor
  · intro h
    obtain ⟨text, htext, h⟩ := bind_eq_ok_iff.mp h
    obtain ⟨f, hf, h⟩ := bind_eq_ok_iff.mp h
    obtain ⟨v, hv, h⟩ := bind_eq_ok_iff.mp h
    cases h
    exact ⟨text, mapError_eq_ok_iff.mp htext, rfl, hf, mapError_eq_ok_iff.mp hv⟩
  · rintro ⟨text, htext, hpath, hf, hv⟩
    refine bind_eq_ok_iff.mpr ⟨text, mapError_eq_ok_iff.mpr htext, bind_eq_ok_iff.mpr
      ⟨d.format, hf, bind_eq_ok_iff.mpr ⟨d.value, mapError_eq_ok_iff.mpr hv, ?_⟩⟩⟩
    rw [← hpath]
    rfl

/-- A schema can be embedded into a document exactly if that is a mapping, and only its entries
    change. -/
theorem embed_eq_ok_iff {changed : Bool} {d d' : Document} :
    d.embed key schema = .ok (changed, d') ↔
      ∃ entries, d.value = .object entries ∧ changed = ! Document.holds entries key schema ∧
        d' = { d with value := .object (embedded key schema entries) } := by
  obtain ⟨path, f, v⟩ := d
  unfold Document.embed embedded
  cases v with
  | object entries =>
    simp only [Value.object.injEq, exists_eq_left']
    -- what the bundle holds already is not put again, so that its entries stay
    cases hholds : Document.holds entries key schema
    · constructor
      · rintro ⟨⟩; exact ⟨rfl, rfl⟩
      · rintro ⟨rfl, rfl⟩; rfl
    · constructor
      · rintro ⟨⟩; exact ⟨rfl, rfl⟩
      · rintro ⟨rfl, rfl⟩; rfl
  | _ => simp

/-- A bundle is prepared if it is loaded and is a mapping; its entries are then those with the
    schema embedded. -/
theorem prepareFile_eq_ok_iff {changed : Bool} {d : Document} :
    prepareFile actor r key schema files path = .ok (changed, d) ↔
      ∃ text f entries, files.readText actor path = .ok text ∧ r.detect path text = .ok f ∧
        f.parse text = .ok (.object entries) ∧ changed = ! Document.holds entries key schema ∧
        d = ⟨path, f, .object (embedded key schema entries)⟩ := by
  constructor
  · intro h
    obtain ⟨⟨path', f, v⟩, hload, hembed⟩ := bind_eq_ok_iff.mp h
    obtain ⟨text, htext, rfl, hf, hv⟩ := loadFile_eq_ok_iff.mp hload
    obtain ⟨entries, rfl, hchanged, rfl⟩ := embed_eq_ok_iff.mp hembed
    exact ⟨text, f, entries, htext, hf, hv, hchanged, rfl⟩
  · rintro ⟨text, f, entries, htext, hf, hv, hchanged, rfl⟩
    exact bind_eq_ok_iff.mpr ⟨⟨path, f, .object entries⟩,
      loadFile_eq_ok_iff.mpr ⟨text, htext, rfl, hf, hv⟩,
      embed_eq_ok_iff.mpr ⟨entries, rfl, hchanged, rfl⟩⟩

/-- A document is written back if it has a text in its format, and the text can be written to its
    path. -/
theorem storeFile_eq_ok_iff {mode : WriteMode} {d : Document} :
    storeFile actor mode d files = .ok files' ↔
      ∃ text, d.format.serialize d.value = .ok text ∧
        files.writeText actor mode d.path text = .ok files' := by
  unfold storeFile Document.render Format.serializeAt
  rw [bind_eq_ok_iff]
  simp only [mapError_eq_ok_iff]

/-- Whether a document could not be written back, because it has no text or because the text
    could not be written. -/
def Failure.isStoreFailure : Failure → Bool
  | serializeFailed .. | writeFailed .. => true
  | _ => false

/-- If a document cannot be written back, the failure is one of those of writing. -/
theorem storeFile_error {mode : WriteMode} {d : Document} {f : Failure}
    (h : storeFile actor mode d files = .error f) : f.isStoreFailure = true := by
  unfold storeFile Document.render Format.serializeAt at h
  rcases bind_eq_error_iff.mp h with h | ⟨text, -, h⟩
  · obtain ⟨e, -, rfl⟩ := mapError_eq_error_iff.mp h; rfl
  · obtain ⟨e, -, rfl⟩ := mapError_eq_error_iff.mp h; rfl

/-- If a document cannot be loaded, the failure is none of those of writing, and is not that of a
    check either. -/
theorem loadFile_error {f : Failure} (h : loadFile actor r files path = .error f) :
    f.isStoreFailure = false ∧ ∀ paths, f ≠ .outOfDate paths := by
  unfold loadFile Document.ofText Format.parseAt at h
  rcases bind_eq_error_iff.mp h with h | ⟨text, -, h⟩
  · obtain ⟨e, -, rfl⟩ := mapError_eq_error_iff.mp h
    unfold World.readFailure
    split <;> exact ⟨rfl, fun _ h => by cases h⟩
  · -- no format, or one that cannot read the text
    rcases bind_eq_error_iff.mp h with h | ⟨g, -, h⟩
    · unfold Registry.detect at h
      split at h
      · cases h
      · split at h
        · cases h
        · cases h; exact ⟨rfl, fun _ h => by cases h⟩
    · rcases bind_eq_error_iff.mp h with h | ⟨v, -, h⟩
      · obtain ⟨e, -, rfl⟩ := mapError_eq_error_iff.mp h
        exact ⟨rfl, fun _ h => by cases h⟩
      · cases h

/-- If a bundle cannot be prepared, the failure is none of those of writing, and is not that of a
    check either. -/
theorem prepareFile_error {f : Failure}
    (h : prepareFile actor r key schema files path = .error f) :
    f.isStoreFailure = false ∧ ∀ paths, f ≠ .outOfDate paths := by
  rcases bind_eq_error_iff.mp h with h | ⟨d, -, h⟩
  · exact loadFile_error h
  · unfold Document.embed at h
    split at h
    · split at h <;> cases h
    · cases h; exact ⟨rfl, fun _ h => by cases h⟩

/-- The failure that an error of the operating system is reported as. -/
def pathFailure (path : String) (e : OsError) : Failure := World.readFailure path (.os e)

/-- A document that reads as before is loaded as before, or at the limit of links fails in the
    way that is given. -/
theorem loadFile_kept {limit beyond : OsError}
    (h : Kept limit beyond (files.readBytes actor path) (files'.readBytes actor path)) :
    Kept (pathFailure path limit) (pathFailure path beyond) (loadFile actor r files path)
      (loadFile actor r files' path) :=
  ((FileSystem.readText_kept h).mapError (World.readFailure path)).bind fun _ _ => .same

/-- A bundle that reads as before is prepared as before, or at the limit of links fails in the
    way that is given. -/
theorem prepareFile_kept {limit beyond : OsError}
    (h : Kept limit beyond (files.readBytes actor path) (files'.readBytes actor path)) :
    Kept (pathFailure path limit) (pathFailure path beyond)
      (prepareFile actor r key schema files path) (prepareFile actor r key schema files' path) :=
  (loadFile_kept h).bind fun _ _ => .same

/-! ### What can become of a bundle

The cases carry all that is known in each of them, so that a proof needs nothing else.
-/

/-- What can become of a bundle, and of the tree with it: it could not be prepared, it was
    only compared, it could not be stored, or it was. -/
inductive Step (actor : Actor) (r : Registry) (options : Options) (schema : Value)
    (path : String) (files : FileSystem) : Except Failure Bool × FileSystem → Prop
  | unprepared {f} (hprepare : prepareFile actor r options.key schema files path = .error f) :
    Step actor r options schema path files (.error f, files)
  | compared {changed d} (hcheck : options.check = true)
    (hprepare : prepareFile actor r options.key schema files path = .ok (changed, d)) :
    Step actor r options schema path files (.ok changed, files)
  | unstored {changed d f} (hcheck : options.check = false)
    (hprepare : prepareFile actor r options.key schema files path = .ok (changed, d))
    (hstore : storeFile actor options.mode d files = .error f) :
    Step actor r options schema path files (.error f, files)
  | stored {changed d files'} (hcheck : options.check = false)
    (hprepare : prepareFile actor r options.key schema files path = .ok (changed, d))
    (hstore : storeFile actor options.mode d files = .ok files') :
    Step actor r options schema path files (.ok changed, files')

/-- What becomes of a bundle is one of these cases. -/
theorem embedFile_step (actor : Actor) (r : Registry) (options : Options) (schema : Value)
    (path : String) (files : FileSystem) :
    Step actor r options schema path files (embedFile actor r options schema path files) := by
  unfold embedFile
  cases hprepare : prepareFile actor r options.key schema files path with
  | error f => exact .unprepared hprepare
  | ok prepared =>
    obtain ⟨changed, d⟩ := prepared
    simp only
    -- in a check nothing is stored, whatever was changed
    cases hcheck : options.check
    · cases hstore : storeFile actor options.mode d files with
      | error f => exact .unstored hcheck hprepare hstore
      | ok files' => exact .stored hcheck hprepare hstore
    · exact .compared hcheck hprepare

/-- A bundle that cannot be loaded is left alone. -/
theorem embedFile_unloaded {f : Failure} (h : loadFile actor r files path = .error f) :
    embedFile actor r options schema path files = (.error f, files) := by
  simp only [embedFile, prepareFile, h]
  rfl

/-- A run whose first bundle cannot be loaded leaves the tree, and ends with that failure. -/
theorem World.run_unloaded {schema : String} {bundles : List String} {d : Document} {f : Failure}
    (hschema : loadFile actor r files schema = .ok d)
    (hpath : loadFile actor r files path = .error f) :
    World.run actor r options schema (path :: bundles) files = (.error f, files) := by
  have hembed : embedFile actor r options d.value path files = (.error f, files) :=
    embedFile_unloaded hpath
  rw [World.run_eq, hschema]
  simp only [embedFiles_of_error hembed]
  rfl

/-- A bundle that was stored was overwritten with the text of its document. -/
theorem storeFile_overwritten {mode : WriteMode} {changed : Bool} {d : Document}
    (tree : files.IsTree)
    (hprepare : prepareFile actor r key schema files path = .ok (changed, d))
    (hstore : storeFile actor mode d files = .ok files') :
    ∃ text, d.format.serialize d.value = .ok text ∧
      FileSystem.Overwritten actor mode path text files files' := by
  obtain ⟨before, f, entries, hbefore, -, -, -, rfl⟩ := prepareFile_eq_ok_iff.mp hprepare
  obtain ⟨text, htext, hwrite⟩ := storeFile_eq_ok_iff.mp hstore
  exact ⟨text, htext, FileSystem.writeText_overwritten tree hbefore hwrite⟩

/-- What becomes of one bundle touches no other file. -/
theorem embedFile_touched (tree : files.IsTree) :
    FileSystem.Touched actor options.mode [path] files
      (embedFile actor r options schema path files).2 := by
  have hstep := embedFile_step actor r options schema path files
  -- the result is forgotten but for the case that it is in
  generalize embedFile actor r options schema path files = after at hstep
  cases hstep with
  | unprepared hprepare => exact .refl tree
  | compared hcheck hprepare => exact .refl tree
  | unstored hcheck hprepare hstore => exact .refl tree
  | stored hcheck hprepare hstore =>
    obtain ⟨text, -, hover⟩ := storeFile_overwritten tree hprepare hstore
    exact .of_overwritten hover

/-- **The frame of a run**: it touches only bundles, by induction on them. -/
theorem embedFiles_touched (tree : files.IsTree) (bundles : List String) :
    FileSystem.Touched actor options.mode bundles files
      (embedFiles actor r options schema bundles files).2 := by
  induction bundles generalizing files with
  | nil => exact .refl tree
  | cons path rest ih =>
    have hfirst : FileSystem.Touched actor options.mode [path] files
        (embedFile actor r options schema path files).2 := embedFile_touched tree
    rw [embedFiles]
    generalize embedFile actor r options schema path files = after at hfirst ⊢
    obtain ⟨f | changed, files₁⟩ := after
    -- a bundle that fails is the last, and nothing is touched after it
    · exact hfirst.cons (.refl hfirst.tree)
    · exact hfirst.cons (ih hfirst.tree)

end SchemaEmbed
