import SchemaEmbed.Proofs.FileSystem.Renewal
import SchemaEmbed.Proofs.Run.Check
import SchemaEmbed.Proofs.Run.Reread

namespace SchemaEmbed

/-!
# When a second run changes nothing

After a run that succeeded, every bundle holds the schema. A second run changes nothing if, in
addition, every bundle can be read again and is written back as it was read. This is a property of
each bundle by itself, which is decided format by format.

* `Settled` — a bundle that holds the schema and is written back as it was read;
* `embedFiles_rewritable` — what a run has written can be written again;
* `embedFiles_settled` — **settled bundles stay what they are** when the schema is embedded once
  more;
* `settled_of_embedFiles` — and bundles apart that stay what they are were settled;
* `Rewritten.settled_json_iff` — JSON bundles are settled exactly if they do not nest too deep and
  every float in them is read as itself;
* `Rewritten.settled_toml_iff`, `Rewritten.settled_yaml_iff` — TOML bundles exactly if they are
  legible, and YAML bundles if they have no merge key and do not nest too deep;
* `converges_of_settled`, `settled_of_converges` — settled bundles and a second run decide each
  other;
* `run_converges` — what that says about a run after a run, and a check after a run.

Trees are compared by what is read from them, for the actor and for the superuser: a second run
writes every bundle once more, so the files may be new ones, but nobody reads anything else.
-/

variable {actor : Actor} {r : Registry} {options : Options} {key : String} {schema : Value}
  {files files' : FileSystem} {path : String} {bundles : List String}

/-- Whether a bundle holds the schema, and is written back as it was read. -/
def Settled (actor : Actor) (r : Registry) (key : String) (schema : Value)
    (files : FileSystem) (path : String) : Prop :=
  ∃ text f entries, files.readText actor path = .ok text ∧ r.detect path text = .ok f ∧
    f.parse text = .ok (.object entries) ∧ Document.holds entries key schema = true ∧
    f.serialize (.object entries) = .ok text

/-- Whether two trees read alike, for an actor and for the superuser, at every path. -/
def SameReads (actor : Actor) (files files' : FileSystem) : Prop :=
  ∀ who, who = actor ∨ who = .superuser → ∀ q, files'.readBytes who q = files.readBytes who q

/-- Trees that read alike one after the other read alike. -/
theorem SameReads.trans {files'' : FileSystem} (h : SameReads actor files files')
    (h' : SameReads actor files' files'') : SameReads actor files files'' :=
  fun who hwho q => (h' who hwho q).trans (h who hwho q)

/-- Where trees read alike, every path has the same text. -/
theorem SameReads.readText {who : Actor} (h : SameReads actor files files')
    (hwho : who = actor ∨ who = .superuser) (q : String) :
    files'.readText who q = files.readText who q := by
  unfold FileSystem.readText
  rw [h who hwho q]

/-- A bundle that is settled in one tree is settled in another one that reads alike. -/
theorem Settled.of_sameReads (h : Settled actor r key schema files path)
    (hsame : SameReads actor files files') : Settled actor r key schema files' path := by
  obtain ⟨text, f, entries, htext, hrest⟩ := h
  exact ⟨text, f, entries, (hsame.readText (.inl rfl) path).trans htext, hrest⟩

/-! ### What can be written again -/

/-- What can be written again can be so after a step, and so can its bundle if it was
    stored. -/
theorem embedFile_rewritable (actor : Actor) (r : Registry) (schema : Value) (path : String)
    (hcheck : options.check = false) (tree : files.IsTree) :
    (∀ p, files.Rewritable actor options.mode p →
      (embedFile actor r options schema path files).2.Rewritable actor options.mode p) ∧
    ∀ changed, (embedFile actor r options schema path files).1 = .ok changed →
      (embedFile actor r options schema path files).2.Rewritable actor options.mode path := by
  have hstep := embedFile_step actor r options schema path files
  generalize embedFile actor r options schema path files = after at hstep ⊢
  cases hstep with
  | unprepared hprepare => exact ⟨fun _ h => h, fun _ h => by cases h⟩
  | compared hcheck' hprepare => rw [hcheck] at hcheck'; cases hcheck'
  | unstored hcheck' hprepare hstore => exact ⟨fun _ h => h, fun _ h => by cases h⟩
  | stored hcheck' hprepare hstore =>
    obtain ⟨before, f, entries, hbefore, -, -, -, rfl⟩ := prepareFile_eq_ok_iff.mp hprepare
    obtain ⟨text, -, hwrite⟩ := storeFile_eq_ok_iff.mp hstore
    exact ⟨fun p hp => hp.writeText tree hbefore hwrite,
      fun _ _ => FileSystem.rewritable_of_writeText tree hbefore hwrite⟩

/-- **What a run has written can be written again.** -/
theorem embedFiles_rewritable (actor : Actor) (r : Registry) (schema : Value)
    (bundles : List String) (hcheck : options.check = false) (tree : files.IsTree) :
    (∀ p, files.Rewritable actor options.mode p →
      (embedFiles actor r options schema bundles files).2.Rewritable actor options.mode p) ∧
    ∀ s, (embedFiles actor r options schema bundles files).1 = .ok s → ∀ p ∈ bundles,
      (embedFiles actor r options schema bundles files).2.Rewritable actor options.mode p := by
  induction bundles generalizing files with
  | nil => exact ⟨fun _ h => h, fun _ _ => List.forall_mem_nil _⟩
  | cons path rest ih =>
    have htouched : FileSystem.Touched actor options.mode [path] files
        (embedFile actor r options schema path files).2 := embedFile_touched tree
    have hfirst := embedFile_rewritable actor r schema path hcheck tree
    rw [embedFiles]
    generalize embedFile actor r options schema path files = after at htouched hfirst ⊢
    obtain ⟨hstays, hstored⟩ := hfirst
    obtain ⟨f | changed, files₁⟩ := after
    · exact ⟨hstays, fun _ h => by cases h⟩
    · obtain ⟨hlater, hrest⟩ := ih htouched.tree
      refine ⟨fun p hp => hlater p (hstays p hp), fun s hs p hp => ?_⟩
      rcases List.mem_cons.mp hp with rfl | hp
      -- a bundle that was stored stays rewritable while the others are stored
      · exact hlater _ (hstored changed rfl)
      · simp only at hs ⊢
        cases hresult : (embedFiles actor r options schema rest files₁).1 with
        | error f => rw [hresult] at hs; cases hs
        | ok s' => exact hrest s' hresult p hp

/-! ### Settled bundles

A bundle that is settled is written with the text that it has, so every path reads as before and
the bundles that are left are still settled.
-/

/-- A settled bundle is prepared as it is, without a change, and its text is the one that it has. -/
theorem Settled.prepareFile (h : Settled actor r key schema files path) :
    ∃ text f entries, files.readText actor path = .ok text ∧
      prepareFile actor r key schema files path = .ok (false, ⟨path, f, .object entries⟩) ∧
      f.serialize (.object entries) = .ok text := by
  obtain ⟨text, f, entries, htext, hf, hparse, hholds, hserialize⟩ := h
  refine ⟨text, f, entries, htext, prepareFile_eq_ok_iff.mpr
    ⟨text, f, entries, htext, hf, hparse, by rw [hholds]; rfl, ?_⟩, hserialize⟩
  rw [embedded, if_pos hholds]

/-- A settled bundle that can be written stays what it is, and so does all that can be read. -/
theorem embedFile_settled (hcheck : options.check = false) (tree : files.IsTree)
    (hpath : files.Rewritable actor options.mode path)
    (h : Settled actor r options.key schema files path) :
    ∃ files', embedFile actor r options schema path files = (.ok false, files') ∧
      SameReads actor files files' := by
  obtain ⟨text, f, entries, htext, hprepare, hserialize⟩ := h.prepareFile
  obtain ⟨files', hwrite, hsame⟩ := hpath.again tree htext
  have hstore : storeFile actor options.mode ⟨path, f, .object entries⟩ files = .ok files' :=
    storeFile_eq_ok_iff.mpr ⟨text, hserialize, hwrite⟩
  refine ⟨files', ?_, hsame⟩
  simp only [embedFile, hprepare, hcheck, hstore]
  rfl

/-- **Settled bundles stay what they are** when the schema is embedded once more. -/
theorem embedFiles_settled (options : Options) (hcheck : options.check = false)
    (tree : files.IsTree)
    (hpath : ∀ p ∈ bundles, files.Rewritable actor options.mode p)
    (h : ∀ p ∈ bundles, Settled actor r options.key schema files p) :
    ∃ files', embedFiles actor r options schema bundles files = (.ok ⟨[], bundles⟩, files') ∧
      SameReads actor files files' := by
  induction bundles generalizing files with
  | nil => exact ⟨files, rfl, fun _ _ _ => rfl⟩
  | cons path rest ih =>
    obtain ⟨files₁, hfirst, hsame⟩ := embedFile_settled hcheck tree
      (hpath path List.mem_cons_self) (h path List.mem_cons_self)
    have htouched : FileSystem.Touched actor options.mode [path] files
        (embedFile actor r options schema path files).2 := embedFile_touched tree
    have hstays := (embedFile_rewritable actor r schema path hcheck tree).1
    rw [hfirst] at htouched hstays
    -- what was written again reads alike, so the others are settled in the new tree too
    obtain ⟨files', hrest, hsame'⟩ := ih htouched.tree
      (fun p hp => hstays p (hpath p (List.mem_cons_of_mem _ hp)))
      fun p hp => (h p (List.mem_cons_of_mem _ hp)).of_sameReads hsame
    refine ⟨files', ?_, hsame.trans hsame'⟩
    rw [embedFiles_of_ok hfirst, hrest]
    rfl

/-- A check finds settled bundles up to date. -/
theorem embedFiles_check_settled (hcheck : options.check = true)
    (h : ∀ p ∈ bundles, Settled actor r options.key schema files p) :
    embedFiles actor r options schema bundles files = (.ok ⟨[], bundles⟩, files) := by
  induction bundles with
  | nil => rfl
  | cons path rest ih =>
    obtain ⟨text, f, entries, -, hprepare, -⟩ := (h path List.mem_cons_self).prepareFile
    have hfirst : embedFile actor r options schema path files = (.ok false, files) := by
      rw [embedFile_check hcheck, hprepare]
      rfl
    rw [embedFiles_of_ok hfirst, ih fun p hp => h p (List.mem_cons_of_mem _ hp)]
    rfl

/-- **Bundles apart that stay what they are were settled.** -/
theorem settled_of_embedFiles (options : Options) (hcheck : options.check = false)
    (tree : files.IsTree) (apart : Apart files bundles)
    (hrun : embedFiles actor r options schema bundles files = (.ok ⟨[], bundles⟩, files'))
    (hsame : SameReads actor files files') (p : String) (hp : p ∈ bundles) :
    Settled actor r options.key schema files p := by
  have hout : UpToFailure actor r options.key schema bundles files
      (embedFiles actor r options schema bundles files) := embedFiles_rewrites hcheck tree apart
  rw [hrun] at hout
  obtain ⟨before, f, entries, after, hbefore, hf, hparse, hholds, hserialize, hafter⟩ :=
    hout.2.1 p hp
  have hholds : Document.holds entries options.key schema = true := by simpa using hholds
  -- what was written is what was read before, because both are read now
  obtain rfl : before = after := by
    rw [hsame.readText (.inr rfl) p, FileSystem.readText_superuser hbefore] at hafter
    exact Except.ok.inj hafter
  rw [embedded, if_pos hholds] at hserialize
  exact ⟨before, f, entries, hbefore, hf, hparse, hholds, hserialize⟩

/-! ### Bundles of one format

The text of a bundle after a run is the one that its format gives to the entries with the schema.
So a bundle is settled if this text is read and written again as it was, which is `Rereads`.
-/

/-- Whether a path names a bundle that is recognised in a format and read as a mapping with these
    entries. -/
def IsBundle (actor : Actor) (files : FileSystem) (path : String) (f : Format)
    (entries : Entries Value) : Prop :=
  ∃ text, files.readText actor path = .ok text ∧ Registry.standard.detect path text = .ok f ∧
    f.parse text = .ok (.object entries)

/-- Whether a bundle is JSON by its path, and a mapping without floats. -/
structure JsonBundle (actor : Actor) (files : FileSystem) (path : String)
    (entries : Entries Value) : Prop where
  claims : Format.json.claims path = true
  reads : ∃ text, files.readText actor path = .ok text ∧ Json.parse text = .ok (.object entries)
  floatFree : (Value.object entries).FloatFree

/-- A bundle that is JSON by its path is recognised as JSON, whatever its text is. -/
theorem JsonBundle.isBundle {entries : Entries Value}
    (hbundle : JsonBundle actor files path entries) :
    IsBundle actor files path Format.json entries := by
  obtain ⟨text, htext, hentries⟩ := hbundle.reads
  exact ⟨text, htext, Json.detect_json hbundle.claims text, hentries⟩

/-- A bundle is settled exactly if its text is read in its format and written again as it was. -/
theorem settled_iff_rereads {text : String} {f : Format}
    (hread : files.readText actor path = .ok text) (hf : r.detect path text = .ok f) :
    Settled actor r key schema files path ↔ Rereads f key schema text := by
  constructor
  · rintro ⟨text', f', entries, htext, hf', hrest⟩
    rw [hread] at htext
    cases htext
    rw [hf] at hf'
    cases hf'
    exact ⟨entries, hrest⟩
  · rintro ⟨entries, hrest⟩
    exact ⟨text, f, entries, hread, hf, hrest⟩

/-- Once a schema is embedded, it is held, and the bundle is still as documents are. -/
theorem IsBundle.embedded {f : Format} {entries : Entries Value}
    (hbundle : IsBundle actor files path f entries) (key : String) (hschema : schema.WellFormed)
    (hfloats : schema.FloatsFinite) :
    (Value.object (embedded key schema entries)).WellFormed ∧
      (Value.object (embedded key schema entries)).FloatsFinite ∧
      Document.holds (embedded key schema entries) key schema = true := by
  obtain ⟨text, -, hf, hentries⟩ := hbundle
  have hparse : f.parseAt path text = .ok (.object entries) := mapError_eq_ok_iff.mpr hentries
  obtain ⟨hwell, hfinite⟩ :=
    Value.every_isSound_iff.mp (sound_of_parseAt (Registry.mem_of_detect hf) hparse)
  exact ⟨wellFormed_embedded key hschema hwell, floatsFinite_embedded key hfloats hfinite,
    holds_embedded key entries hschema.keysDistinct hfloats⟩

/-- A bundle that was rewritten has the text that its format gives to it with the schema. -/
theorem Rewritten.serialize {changed : Bool} {f : Format} {entries : Entries Value} {now : String}
    (h : Rewritten actor .standard key schema files files' path changed)
    (hbundle : IsBundle actor files path f entries) (hnow : files'.readText actor path = .ok now) :
    f.serialize (.object (embedded key schema entries)) = .ok now := by
  obtain ⟨before, g, entries', after, hbefore, hg, hparse, -, hserialize, hafter⟩ := h
  obtain ⟨text, htext, hf, hentries⟩ := hbundle
  rw [htext] at hbefore
  cases hbefore
  rw [hf] at hg
  cases hg
  rw [hentries] at hparse
  cases hparse
  rw [FileSystem.readText_superuser hnow] at hafter
  cases hafter
  exact hserialize

section Again

variable {changed : Bool} {entries : Entries Value} {now : String}
  (h : Rewritten actor .standard key schema files files' path changed)
  (hschema : schema.WellFormed) (hfloats : schema.FloatsFinite)
  (hnow : files'.readText actor path = .ok now)

include h hschema hfloats hnow

/-- **A JSON bundle that was rewritten** and is JSON again is settled if it nests at most 127 deep
    with the schema and every number in it is read as itself, and only then. -/
theorem Rewritten.settled_json_iff (hbundle : IsBundle actor files path Format.json entries)
    (hagain : Registry.standard.detect path now = .ok Format.json) :
    Settled actor .standard key schema files' path
      ↔ (Value.object (embedded key schema entries)).depth ≤ 127
        ∧ (Value.object (embedded key schema entries)).Every Json.IsExact := by
  obtain ⟨hwell, hfinite, hholds⟩ := hbundle.embedded key hschema hfloats
  have htext := h.serialize hbundle hnow
  cases htext
  rw [settled_iff_rereads hnow hagain]
  exact json_rereads_iff hwell hfinite hholds

/-- **A TOML bundle that was rewritten** and is TOML again is settled if its text is legible, and
    only then. -/
theorem Rewritten.settled_toml_iff (hbundle : IsBundle actor files path Format.toml entries)
    (hagain : Registry.standard.detect path now = .ok Format.toml) :
    Settled actor .standard key schema files' path
      ↔ Toml.IsLegible (.object (embedded key schema entries)) := by
  obtain ⟨hwell, hfinite, hholds⟩ := hbundle.embedded key hschema hfloats
  rw [settled_iff_rereads hnow hagain]
  exact toml_rereads_iff hwell hfinite hholds (h.serialize hbundle hnow)

/-- **A YAML bundle that was rewritten** and is YAML again is settled if it nests at most 128 deep
    and has no merge key, and only then. -/
theorem Rewritten.settled_yaml_iff (hbundle : IsBundle actor files path Format.yaml entries)
    (hagain : Registry.standard.detect path now = .ok Format.yaml) :
    Settled actor .standard key schema files' path
      ↔ (Value.object (embedded key schema entries)).depth ≤ 128
        ∧ Yaml.MergeFree (.object (embedded key schema entries)) := by
  obtain ⟨hwell, hfinite, hholds⟩ := hbundle.embedded key hschema hfloats
  have htext := h.serialize hbundle hnow
  cases htext
  rw [settled_iff_rereads hnow hagain]
  exact yaml_rereads_iff hwell hfinite hholds

end Again

/-- A JSON bundle without floats that was rewritten is settled if it does not nest too deep with the
    schema, and only then. -/
theorem Rewritten.settled_floatFree_iff {changed : Bool} {entries : Entries Value} {now : String}
    (h : Rewritten actor .standard key schema files files' path changed)
    (hschema : schema.WellFormed) (hfloat : schema.FloatFree)
    (hnow : files'.readText actor path = .ok now)
    (hbundle : JsonBundle actor files path entries) :
    Settled actor .standard key schema files' path
      ↔ (Value.object (embedded key schema entries)).depth ≤ 127 := by
  have hiff := h.settled_json_iff hschema hfloat.floatsFinite hnow hbundle.isBundle
    (Json.detect_json hbundle.claims now)
  obtain ⟨hwell, -, -⟩ := hbundle.isBundle.embedded key hschema hfloat.floatsFinite
  rwa [and_iff_left (Json.every_isExact hwell (floatFree_embedded key hfloat hbundle.floatFree))]
    at hiff

/-- A schema that is loaded in one of the formats is as documents are. -/
theorem sound_of_loadFile {d : Document} (h : loadFile actor .standard files path = .ok d) :
    d.value.WellFormed ∧ d.value.FloatsFinite := by
  obtain ⟨text, -, -, hf, hparse⟩ := loadFile_eq_ok_iff.mp h
  have hparseAt : d.format.parseAt path text = .ok d.value := mapError_eq_ok_iff.mpr hparse
  exact Value.every_isSound_iff.mp (sound_of_parseAt (Registry.mem_of_detect hf) hparseAt)

/-! ### A run after a run

The first run leaves the bundles as they are described above; whether the second one changes
anything is asked of the tree that the first one left.
-/

/-- Whether a run leaves all bundles unchanged and every file as it reads, and a check of them
    succeeds. -/
def Converges (actor : Actor) (r : Registry) (options : Options) (schema : String)
    (bundles : List String) (files : FileSystem) : Prop :=
  (∃ files', World.run actor r { options with check := false } schema bundles files
      = (.ok ⟨[], bundles⟩, files') ∧ SameReads actor files files') ∧
    World.run actor r { options with check := true } schema bundles files
      = (.ok ⟨[], bundles⟩, files)

section Converges

variable {schemaPath : String} {d : Document} (tree : files.IsTree)
  (hload : loadFile actor r files schemaPath = .ok d)

include tree hload

/-- A run leaves settled bundles that can be written as they are. -/
theorem converges_of_settled (hpath : ∀ p ∈ bundles, files.Rewritable actor options.mode p)
    (h : ∀ p ∈ bundles, Settled actor r options.key d.value files p) :
    Converges actor r options schemaPath bundles files := by
  obtain ⟨files', hagain, hsame⟩ :=
    embedFiles_settled { options with check := false } rfl tree hpath h
  have hcompared : embedFiles actor r { options with check := true } d.value bundles files
      = (.ok ⟨[], bundles⟩, files) := embedFiles_check_settled rfl h
  refine ⟨⟨files', ?_, hsame⟩, ?_⟩
  · rw [World.run_eq, hload]
    simp only [hagain]
    rfl
  · rw [World.run_eq, hload]
    simp only [hcompared]
    rfl

/-- Bundles apart that a run leaves as they are were settled. -/
theorem settled_of_converges (apart : Apart files bundles)
    (h : Converges actor r options schemaPath bundles files) :
    ∀ p ∈ bundles, Settled actor r options.key d.value files p := by
  -- the run embeds into every bundle, and none changes
  obtain ⟨⟨files', hagain, hsame⟩, -⟩ := h
  rw [World.run_eq, hload] at hagain
  simp only at hagain
  obtain ⟨hresult, rfl⟩ := Prod.mk.inj hagain
  obtain ⟨s, hs, hconclude⟩ := bind_eq_ok_iff.mp hresult
  obtain rfl : s = ⟨[], bundles⟩ := by simpa [Store.conclude] using hconclude
  exact settled_of_embedFiles { options with check := false } rfl tree apart (Prod.ext hs rfl) hsame

end Converges

/-- **A run after a run.**  After a run that succeeded, whose schema is none of its bundles,
    another run leaves everything as it is and a check succeeds, if every bundle is settled;
    and if the bundles name different files, only then.  A JSON bundle without floats that can
    be read is settled if it nests at most 127 deep with the schema, and only then; of those whose
    format is found again, as it is by any extension that claims the path, a JSON bundle is settled
    if it nests at most 127 deep and every float in it is read as itself from its text, a TOML
    bundle if its text is legible, a YAML bundle if it nests at most 128 deep and has no merge key,
    and only then. -/
theorem run_converges (actor : Actor) (r : Registry) (options : Options) (schema : String)
    (bundles : List String) (files files' : FileSystem) (s : Summary) (tree : files.IsTree)
    (hcheck : options.check = false) (hschema : ∀ p ∈ bundles, ¬ files.SameFile schema p)
    (hrun : World.run actor r options schema bundles files = (.ok s, files')) :
    ∃ d, (World.reload actor r none schema files).1 = .ok d ∧
      ((∀ p ∈ bundles, Settled actor r options.key d.value files' p) →
        Converges actor r options schema bundles files') ∧
      (Apart files bundles → Converges actor r options schema bundles files' →
        ∀ p ∈ bundles, Settled actor r options.key d.value files' p) ∧
      (Apart files bundles → r = .standard → d.value.WellFormed → d.value.FloatFree →
        ∀ p ∈ bundles, ∀ entries, JsonBundle actor files p entries →
          (∃ now, files'.readText actor p = .ok now) →
          (Settled actor r options.key d.value files' p
            ↔ (Value.object (embedded options.key d.value entries)).depth ≤ 127)) ∧
      (Apart files bundles → r = .standard →
        ∀ p ∈ bundles, ∀ f entries now, IsBundle actor files p f entries →
          files'.readText actor p = .ok now → r.detect p now = .ok f →
          (f = Format.json → (Settled actor r options.key d.value files' p
            ↔ (Value.object (embedded options.key d.value entries)).depth ≤ 127
              ∧ (Value.object (embedded options.key d.value entries)).Every Json.IsExact)) ∧
          (f = Format.toml → (Settled actor r options.key d.value files' p
            ↔ Toml.IsLegible (.object (embedded options.key d.value entries)))) ∧
          (f = Format.yaml → (Settled actor r options.key d.value files' p
            ↔ (Value.object (embedded options.key d.value entries)).depth ≤ 128
              ∧ Yaml.MergeFree (.object (embedded options.key d.value entries))))) := by
  rw [World.run_eq] at hrun
  cases hload : loadFile actor r files schema with
  | error f => rw [hload] at hrun; cases hrun
  | ok d =>
    rw [hload] at hrun
    have htouched : FileSystem.Touched actor options.mode bundles files
        (embedFiles actor r options d.value bundles files).2 := embedFiles_touched tree bundles
    have hwritten := (embedFiles_rewritable actor r d.value bundles hcheck tree).2
    have hrewritten (apart : Apart files bundles) :
        UpToFailure actor r options.key d.value bundles files
          (embedFiles actor r options d.value bundles files) :=
      embedFiles_rewrites hcheck tree apart
    simp only at hrun
    obtain ⟨hresult, rfl⟩ := Prod.mk.inj hrun
    obtain ⟨s', hs', -⟩ := bind_eq_ok_iff.mp hresult
    generalize embedFiles actor r options d.value bundles files = after
      at htouched hwritten hrewritten hs'
    obtain ⟨result, files'⟩ := after
    obtain rfl : result = .ok s' := hs'
    -- the schema is loaded as before
    have hload' : loadFile actor r files' schema = .ok d :=
      ((loadFile_kept (htouched.kept actor (.inl rfl) schema hschema)).ok_iff d).mp hload
    refine ⟨d, by rw [World.reload_eq]; exact hload,
      converges_of_settled htouched.tree hload' (hwritten s' rfl),
      fun apart => settled_of_converges htouched.tree hload'
        (apart.imp fun hpq hsame => hpq (htouched.same _ _ hsame)),
      fun apart hr hschema hfloat p hp entries hbundle hread => ?_,
      fun apart hr p hp f entries now hbundle hnow hagain => ?_⟩
    · subst hr
      obtain ⟨now, hnow⟩ := hread
      obtain ⟨changed, hbefore⟩ := (hrewritten apart).rewritten hp
      exact hbefore.settled_floatFree_iff hschema hfloat hnow hbundle
    · subst hr
      obtain ⟨hschema, hfloats⟩ := sound_of_loadFile hload
      obtain ⟨changed, hbefore⟩ := (hrewritten apart).rewritten hp
      refine ⟨?_, ?_, ?_⟩
      · rintro rfl
        exact hbefore.settled_json_iff hschema hfloats hnow hbundle hagain
      · rintro rfl
        exact hbefore.settled_toml_iff hschema hfloats hnow hbundle hagain
      · rintro rfl
        exact hbefore.settled_yaml_iff hschema hfloats hnow hbundle hagain

/-! ### Nested lists as a schema

At the depth of 127 the limit shows: with a schema one level less deep a second run changes
nothing, and with this one it cannot read the bundle.
-/

/-- Lists that nest 126 deep are embedded once and for all. -/
theorem run_converges_nested :
    World.run .superuser .standard ⟨"k", .inPlace, false⟩ "s.json" ["b.json"] (nestedFiles 126 [])
        = (.ok ⟨["b.json"], []⟩, nestedFiles 126 [("k", .nested 126)])
      ∧ Converges .superuser .standard ⟨"k", .inPlace, false⟩ "s.json" ["b.json"]
        (nestedFiles 126 [("k", .nested 126)]) := by
  have hn : 126 ≤ 127 := by decide
  obtain ⟨d, hload, hconverges, -, hjson, -⟩ := run_converges .superuser .standard
    ⟨"k", .inPlace, false⟩ "s.json" ["b.json"] (nestedFiles 126 []) _ _
    (FileSystem.isTree_schemaAndBundle _ _) rfl
    (List.forall_mem_singleton.mpr (FileSystem.not_sameFile_schemaAndBundle _ _)) (run_nested hn)
  refine ⟨run_nested hn, hconverges (List.forall_mem_singleton.mpr ?_)⟩
  rw [World.reload_eq, loadFile_nested hn] at hload
  cases hload
  have hbundle : JsonBundle .superuser (nestedFiles 126 []) "b.json" [] :=
    { claims := Json.claims_json (by decide)
      reads := ⟨_, FileSystem.readText_bundle _ _,
        Json.parse_render ⟨List.nodup_nil, trivial⟩ ⟨trivial, trivial⟩ (by decide)⟩
      floatFree := ⟨trivial, trivial⟩ }
  refine (hjson (.cons (List.forall_mem_nil _) .nil) rfl (Value.wellFormed_nested 126)
    (Value.floatFree_nested 126) "b.json" List.mem_cons_self [] hbundle
    ⟨_, FileSystem.readText_bundle _ _⟩).mpr ?_
  show (Value.object [("k", .nested 126)]).depth ≤ 127
  simp [Value.depth, Value.depthEntries, Value.depth_nested]

/-- **Lists that nest 127 deep leave a bundle that cannot be read again**, so that after the
    run that wrote it neither a run nor a check succeeds. -/
theorem run_nested_not_again :
    World.run .superuser .standard ⟨"k", .inPlace, false⟩ "s.json" ["b.json"] (nestedFiles 127 [])
        = (.ok ⟨["b.json"], []⟩, nestedFiles 127 [("k", .nested 127)])
      ∧ ¬ (nestedFiles 127 []).SameFile "s.json" "b.json"
      ∧ ∀ check, ∃ reason, World.run .superuser .standard ⟨"k", .inPlace, check⟩ "s.json"
          ["b.json"] (nestedFiles 127 [("k", .nested 127)])
        = (.error (.parseFailed "b.json" "json" reason), nestedFiles 127 [("k", .nested 127)]) := by
  refine ⟨run_nested (Nat.le_refl 127), FileSystem.not_sameFile_schemaAndBundle _ _,
    fun check => ?_⟩
  have hv : (Value.object [("k", .nested 127)]).WellFormed :=
    ⟨List.pairwise_singleton _ _, Value.wellFormed_nested 127, trivial⟩
  have hfloat : (Value.object [("k", .nested 127)]).FloatFree :=
    ⟨trivial, Value.floatFree_nested 127, trivial⟩
  -- the bundle is one container around a schema that was just readable
  have hdepth : Json.maxDepth < (Value.object [("k", .nested 127)]).depth := by
    simp [Value.depth, Value.depthEntries, Value.depth_nested, Json.maxDepth]
  obtain ⟨reason, hbundle⟩ : ∃ reason, loadFile .superuser .standard
      (nestedFiles 127 [("k", .nested 127)]) "b.json"
      = .error (.parseFailed "b.json" "json" reason) :=
    loadFile_json_deep (Json.claims_json (by decide)) hv hfloat hdepth
      (FileSystem.readText_bundle _ _)
  exact ⟨reason, World.run_unloaded (loadFile_nested (Nat.le_refl 127) _) hbundle⟩

end SchemaEmbed
