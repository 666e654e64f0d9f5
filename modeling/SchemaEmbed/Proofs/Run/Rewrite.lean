import SchemaEmbed.Proofs.Run.Json

namespace SchemaEmbed

/-!
# What a run writes

A run embeds the schema into one bundle after the other, and stops at the first failure. If no two
bundles name one file, then no bundle sees what was written for another one; so what becomes of
each can be told from the tree in which the run began.

* `Rewritten` — a bundle reads as its own text with the schema embedded;
* `ReadsAlike` — a bundle reads as before;
* `UpToFailure` — what has become of all bundles;
* `embedFiles_rewrites` — bundles are rewritten up to the first failure, and not from there;
* `run_rewrites` — **what a whole run does**, whether it succeeds or fails.

The schema is loaded before the first bundle is written. It may be a bundle itself, and is then
rewritten like any other.
-/

variable {actor : Actor} {r : Registry} {options : Options} {key : String} {schema : Value}
  {files files' files'' : FileSystem} {path : String} {changed : Bool}
  {mode : WriteMode}

/-- Whether a bundle reads afterwards as its own text does with the schema embedded, in the
    format that was detected on the text it had before; and whether that changed it. -/
def Rewritten (actor : Actor) (r : Registry) (key : String) (schema : Value)
    (files files' : FileSystem) (path : String) (changed : Bool) : Prop :=
  ∃ before f entries after, files.readText actor path = .ok before ∧
    r.detect path before = .ok f ∧ f.parse before = .ok (.object entries) ∧
    changed = ! Document.holds entries key schema ∧
    f.serialize (.object (embedded key schema entries)) = .ok after ∧
    files'.readText .superuser path = .ok after

/-- Whether a bundle reads byte for byte as before. -/
def ReadsAlike (actor : Actor) (files files' : FileSystem) (path : String) : Prop :=
  ∀ who, who = actor ∨ who = .superuser → ∀ bytes,
    files.readBytes who path = .ok bytes ↔ files'.readBytes who path = .ok bytes

/-- Whether no two bundles name one file. -/
def Apart (files : FileSystem) (bundles : List String) : Prop :=
  bundles.Pairwise fun p q => ¬ files.SameFile p q

/-! ### Bundles apart

What a write touches is told by `Touched`: a path that names another file reads as before. So
bundles that are apart can be written before or after one another.
-/

/-- A path that is read alike has the same text. -/
theorem readText_of_kept {who : Actor} {text : String} {limit beyond : OsError}
    (h : Kept limit beyond (files.readBytes who path) (files'.readBytes who path)) :
    files.readText who path = .ok text ↔ files'.readText who path = .ok text :=
  (FileSystem.readText_kept h).ok_iff text

/-- A bundle that is stored is rewritten, and nothing else is touched. -/
theorem storeFile_rewrites {d : Document} (tree : files.IsTree)
    (hprepare : prepareFile actor r key schema files path = .ok (changed, d))
    (hstore : storeFile actor mode d files = .ok files') :
    FileSystem.Touched actor mode [path] files files' ∧
      Rewritten actor r key schema files files' path changed := by
  obtain ⟨text, htext, hover⟩ := storeFile_overwritten tree hprepare hstore
  obtain ⟨before, f, entries, hbefore, hf, hparse, hchanged, rfl⟩ :=
    prepareFile_eq_ok_iff.mp hprepare
  exact ⟨.of_overwritten hover,
    before, f, entries, text, hbefore, hf, hparse, hchanged, htext, hover.holds⟩

/-- What is written to other bundles before does not matter to a bundle that is rewritten. -/
theorem Rewritten.of_before {paths : List String}
    (h : Rewritten actor r key schema files' files'' path changed)
    (htouched : FileSystem.Touched actor mode paths files files')
    (hpath : ∀ p ∈ paths, ¬ files.SameFile path p) :
    Rewritten actor r key schema files files'' path changed := by
  obtain ⟨before, f, entries, after, hbefore, hrest⟩ := h
  have hkept := htouched.kept actor (.inl rfl) path hpath
  exact ⟨before, f, entries, after, (readText_of_kept hkept).mpr hbefore, hrest⟩

/-- What is written to other bundles afterwards does not matter to a bundle that was rewritten. -/
theorem Rewritten.of_after {paths : List String}
    (h : Rewritten actor r key schema files files' path changed)
    (htouched : FileSystem.Touched actor mode paths files' files'')
    (hpath : ∀ p ∈ paths, ¬ files'.SameFile path p) :
    Rewritten actor r key schema files files'' path changed := by
  obtain ⟨before, f, entries, after, hbefore, hf, hparse, hchanged, hafter, hholds⟩ := h
  have hkept := htouched.kept .superuser (.inr rfl) path hpath
  exact ⟨before, f, entries, after, hbefore, hf, hparse, hchanged, hafter,
    (readText_of_kept hkept).mp hholds⟩

/-- A bundle that names none of the files that were touched reads as before. -/
theorem ReadsAlike.of_touched {paths : List String}
    (htouched : FileSystem.Touched actor mode paths files files')
    (hpath : ∀ p ∈ paths, ¬ files.SameFile path p) : ReadsAlike actor files files' path :=
  fun who hwho bytes => (htouched.kept who hwho path hpath).ok_iff bytes

/-- A bundle that reads as before twice reads as it did in the beginning. -/
theorem ReadsAlike.trans (h : ReadsAlike actor files files' path)
    (h' : ReadsAlike actor files' files'' path) : ReadsAlike actor files files'' path :=
  fun who hwho bytes => (h who hwho bytes).trans (h' who hwho bytes)

/-- Bundles that can all be read and name different files are different. -/
theorem Apart.nodup (actor : Actor) {bundles : List String} (apart : Apart files bundles)
    (hread : ∀ p ∈ bundles, ∃ text, files.readText actor p = .ok text) : bundles.Nodup := by
  refine List.Pairwise.imp_of_mem (fun {p q} hp _ hpq heq => ?_) apart
  subst heq
  obtain ⟨text, htext⟩ := hread p hp
  obtain ⟨n, u, -, hn⟩ := FileSystem.names_of_readText htext
  exact hpq ⟨n, hn, hn⟩

/-! ### Bundles one after the other

The induction is on the bundles that are left, in the tree that those before them left.
`UpToFailure.cons` puts one more bundle in front, and takes the statement back to the tree before
it.
-/

/-- What a list of bundles and the tree have become: all were rewritten, or those before
    the first failure. -/
def UpToFailure (actor : Actor) (r : Registry) (key : String) (schema : Value)
    (bundles : List String) (files : FileSystem) : Except Failure Summary × FileSystem → Prop
  | (.error _, files') => ∃ done path rest, bundles = done ++ path :: rest ∧
      (∀ p ∈ done, ∃ changed, Rewritten actor r key schema files files' p changed) ∧
      ∀ p ∈ path :: rest, ReadsAlike actor files files' p
  | (.ok s, files') => (∀ p ∈ s.updated, Rewritten actor r key schema files files' p true) ∧
      (∀ p ∈ s.unchanged, Rewritten actor r key schema files files' p false) ∧
      s.updated.Sublist bundles ∧ s.unchanged.Sublist bundles ∧
      (s.updated ++ s.unchanged).Perm bundles

/-- Every bundle of a run that succeeded was rewritten, whether that changed it or not. -/
theorem UpToFailure.rewritten {s : Summary} {p : String}
    (h : UpToFailure actor r key schema bundles files (.ok s, files')) (hp : p ∈ bundles) :
    ∃ changed, Rewritten actor r key schema files files' p changed := by
  obtain ⟨hupdated, hunchanged, -, -, hperm⟩ := h
  rcases List.mem_append.mp (hperm.mem_iff.mpr hp) with hp | hp
  · exact ⟨true, hupdated p hp⟩
  · exact ⟨false, hunchanged p hp⟩

/-- One more bundle in front, which was rewritten and is apart from the others, joins those that
    were rewritten. -/
theorem UpToFailure.cons {files₁ : FileSystem} {rest : List String}
    {result : Except Failure Summary} (apart : ∀ p ∈ rest, ¬ files.SameFile path p)
    (htouched : FileSystem.Touched actor mode [path] files files₁)
    (hhead : Rewritten actor r key schema files files' path changed)
    (hrest : UpToFailure actor r key schema rest files₁ (result, files')) :
    UpToFailure actor r key schema (path :: rest) files
      (result.map (Summary.cons path changed), files') := by
  have hapart {p : String} (hp : p ∈ rest) : ∀ q ∈ [path], ¬ files.SameFile p q := by
    intro q hq hsame
    rw [List.mem_singleton.mp hq] at hsame
    exact apart p hp hsame.symm
  have hlater {p : String} {changed : Bool} (hp : p ∈ rest)
      (h : Rewritten actor r key schema files₁ files' p changed) :
      Rewritten actor r key schema files files' p changed :=
    h.of_before htouched (hapart hp)
  cases result with
  | error f =>
    -- the first bundle joins those before the failure, and the others read as in `files₁`
    obtain ⟨done, failing, others, rfl, hdone, hothers⟩ := hrest
    refine ⟨path :: done, failing, others, rfl, fun p hp => ?_, fun p hp => ?_⟩
    · rcases List.mem_cons.mp hp with rfl | hp
      · exact ⟨changed, hhead⟩
      · obtain ⟨c, hc⟩ := hdone p hp
        exact ⟨c, hlater (List.mem_append_left _ hp) hc⟩
    · have hp' : p ∈ done ++ failing :: others := List.mem_append_right _ hp
      exact (ReadsAlike.of_touched htouched (hapart hp')).trans (hothers p hp)
  | ok s =>
    obtain ⟨hupdated, hunchanged, hsub, hsub', hperm⟩ := hrest
    cases changed with
    | true =>
      refine ⟨fun p hp => ?_, fun p hp => hlater (hsub'.subset hp) (hunchanged p hp),
        hsub.cons_cons path, hsub'.cons path, hperm.cons path⟩
      rcases List.mem_cons.mp hp with rfl | hp
      · exact hhead
      · exact hlater (hsub.subset hp) (hupdated p hp)
    | false =>
      refine ⟨fun p hp => hlater (hsub.subset hp) (hupdated p hp), fun p hp => ?_,
        hsub.cons path, hsub'.cons_cons path, List.perm_middle.trans (hperm.cons path)⟩
      rcases List.mem_cons.mp hp with rfl | hp
      · exact hhead
      · exact hlater (hsub'.subset hp) (hunchanged p hp)

/-- **Bundles are rewritten up to the first failure**, and none is from there. -/
theorem embedFiles_rewrites (hcheck : options.check = false) {bundles : List String}
    (tree : files.IsTree) (apart : Apart files bundles) :
    UpToFailure actor r options.key schema bundles files
      (embedFiles actor r options schema bundles files) := by
  induction bundles generalizing files with
  | nil => exact ⟨List.forall_mem_nil _, List.forall_mem_nil _, .slnil, .slnil, .nil⟩
  | cons path rest ih =>
    obtain ⟨hfirst, hrest⟩ := List.pairwise_cons.mp apart
    have hstep := embedFile_step actor r options schema path files
    rw [embedFiles]
    generalize embedFile actor r options schema path files = after at hstep ⊢
    -- a bundle that fails leaves the tree, so that it and the later ones read as before
    have hfail (f : Failure) :
        UpToFailure actor r options.key schema (path :: rest) files (.error f, files) :=
      ⟨[], path, rest, rfl, List.forall_mem_nil _, fun p _ who _ bytes => Iff.rfl⟩
    cases hstep with
    | unprepared hprepare => exact hfail _
    | compared hcheck' hprepare => rw [hcheck] at hcheck'; cases hcheck'
    | unstored hcheck' hprepare hstore => exact hfail _
    | @stored changed d files₁ hcheck' hprepare hstore =>
      obtain ⟨htouched, hrewritten⟩ := storeFile_rewrites tree hprepare hstore
      -- what becomes of the others is told from the tree that this bundle left
      have hout := ih htouched.tree (hrest.imp fun hpq hsame => hpq (htouched.same _ _ hsame))
      have hthen : FileSystem.Touched actor options.mode rest files₁
          (embedFiles actor r options schema rest files₁).2 := embedFiles_touched htouched.tree rest
      exact UpToFailure.cons hfirst htouched
        (hrewritten.of_after hthen fun p hp hsame => hfirst p hp (htouched.same _ _ hsame)) hout

/-! ### Whole runs -/

/-- A bundle that was rewritten could be read before. -/
theorem Rewritten.readable (h : Rewritten actor r key schema files files' path changed) :
    ∃ text, files.readText actor path = .ok text := by
  obtain ⟨before, -, -, -, hbefore, -⟩ := h
  exact ⟨before, hbefore⟩

/-- **What a whole run does.**  If its schema cannot be loaded, it fails and leaves all files
    alone.  Else the bundles before the first failure read as their own texts with the
    schema embedded, in the formats that were detected at the start, and the others read as
    before; and if there is no failure, the summary names every bundle once and in order. -/
theorem run_rewrites (actor : Actor) (r : Registry) (options : Options) (schema : String)
    (bundles : List String) (files : FileSystem) (tree : files.IsTree)
    (hcheck : options.check = false) (apart : Apart files bundles) :
    match (World.reload actor r none schema files).1,
      World.run actor r options schema bundles files with
    | .error f, after => after = (.error f, files)
    | .ok d, (.error _, files') => ∃ done path rest, bundles = done ++ path :: rest ∧
        (∀ p ∈ done, ∃ changed, Rewritten actor r options.key d.value files files' p changed) ∧
        ∀ p ∈ path :: rest, ReadsAlike actor files files' p
    | .ok d, (.ok s, files') =>
        (∀ p ∈ s.updated, Rewritten actor r options.key d.value files files' p true) ∧
        (∀ p ∈ s.unchanged, Rewritten actor r options.key d.value files files' p false) ∧
        s.updated.Sublist bundles ∧ s.unchanged.Sublist bundles ∧
        (s.updated ++ s.unchanged).Perm bundles ∧ bundles.Nodup := by
  rw [World.reload_eq, World.run_eq]
  cases hload : loadFile actor r files schema with
  | error f => exact rfl
  | ok d =>
    have hout : UpToFailure actor r options.key d.value bundles files
        (embedFiles actor r options d.value bundles files) :=
      embedFiles_rewrites hcheck tree apart
    simp only
    generalize embedFiles actor r options d.value bundles files = after at hout ⊢
    obtain ⟨result, files'⟩ := after
    cases result with
    | error f => exact hout
    | ok s =>
      obtain ⟨hupdated, hunchanged, hsub, hsub', hperm⟩ := hout
      have hconclude : Store.conclude options s = .ok s := by simp [Store.conclude, hcheck]
      simp only [ok_bind, hconclude]
      refine ⟨hupdated, hunchanged, hsub, hsub', hperm, apart.nodup actor fun p hp => ?_⟩
      rcases List.mem_append.mp (hperm.mem_iff.mpr hp) with hp | hp
      · exact (hupdated p hp).readable
      · exact (hunchanged p hp).readable

/-- A schema that is a bundle as well, after a bundle that holds it already: the one is
    rewritten with itself under the key, the other as it was. -/
theorem run_rewrites_schema :
    let schema := Value.object [("x", .number (.int 1))]
    let files := FileSystem.schemaAndBundle (Json.render schema)
      (Json.render (.object [("schema", schema)]))
    ∃ files', World.run .superuser .standard ⟨"schema", .inPlace, false⟩ "s.json"
        ["b.json", "s.json"] files = (.ok ⟨["s.json"], ["b.json"]⟩, files')
      ∧ Rewritten .superuser .standard "schema" schema files files' "s.json" true
      ∧ Rewritten .superuser .standard "schema" schema files files' "b.json" false := by
  intro schema files
  have hschema : Fits schema :=
    { wellFormed := ⟨(by decide : ["x"].Nodup), ⟨by decide, by decide⟩, trivial⟩
      floatFree := ⟨trivial, trivial, trivial⟩
      depth_le := by decide }
  have hbundle : Fits (.object [("schema", schema)]) :=
    { wellFormed := ⟨(by decide : ["schema"].Nodup), hschema.wellFormed, trivial⟩
      floatFree := ⟨trivial, hschema.floatFree, trivial⟩
      depth_le := by decide }
  have tree : files.IsTree := FileSystem.isTree_schemaAndBundle _ _
  have apart : Apart files ["b.json", "s.json"] := by
    refine .cons (fun p hp hsame => ?_) (.cons (List.forall_mem_nil _) .nil)
    rw [List.mem_singleton.mp hp] at hsame
    exact FileSystem.not_sameFile_schemaAndBundle _ _ hsame.symm
  have hload : loadFile .superuser .standard files "s.json"
      = .ok ⟨"s.json", Format.json, schema⟩ :=
    loadFile_json (Json.claims_json (by decide)) hschema (FileSystem.readText_schema _ _)
  have hfirst : embedFile .superuser .standard ⟨"schema", .inPlace, false⟩ schema "b.json" files
      = (.ok false, files) :=
    embedFile_json rfl (Json.claims_json (by decide)) hbundle (FileSystem.readText_bundle _ _)
      (FileSystem.writeText_bundle _ _ _)
  -- the schema is rewritten after it was loaded
  obtain ⟨files', hthen⟩ : ∃ files', embedFile .superuser .standard ⟨"schema", .inPlace, false⟩
      schema "s.json" files = (.ok true, files') :=
    ⟨_, embedFile_json rfl (Json.claims_json (by decide)) hschema (FileSystem.readText_schema _ _)
      (FileSystem.writeText_schema _ _ _)⟩
  have hrun : World.run .superuser .standard ⟨"schema", .inPlace, false⟩ "s.json"
      ["b.json", "s.json"] files = (.ok ⟨["s.json"], ["b.json"]⟩, files') := by
    rw [World.run_eq, hload]
    simp only [embedFiles, hfirst, hthen]
    rfl
  have h := run_rewrites .superuser .standard ⟨"schema", .inPlace, false⟩ "s.json"
    ["b.json", "s.json"] files tree rfl apart
  rw [World.reload_eq, hload, hrun] at h
  obtain ⟨hupdated, hunchanged, -⟩ := h
  exact ⟨files', hrun, hupdated _ List.mem_cons_self, hunchanged _ List.mem_cons_self⟩

end SchemaEmbed
