import SchemaEmbed.Proofs.FileSystem.Renumbered
import SchemaEmbed.Proofs.Run.Json

namespace SchemaEmbed

/-!
# Both ways of writing

A run that writes in place and one that replaces files are the same run, as long as nobody could
tell a file from the one that replaces it: every bundle is named directly, by the only entry that
leads to it. The new file has another number then, and everything else is the same; so the two runs
go through trees that differ in numbers only.

* `NamesAlone` — whether a path does that, and `NamesAlone.setBytes`: writing keeps it;
* `Alike` — whether two trees differ in numbers only;
* `Alike.writeText` — **one write** keeps them alike, and `Alike.embedFile` — so does what becomes
  of one bundle;
* `Alike.embedFiles` — so does what becomes of many, by induction on them;
* `run_modes_agree` — **two runs** end with the same summary and the same tree.

A bundle may be named several times, and the schema may be among the bundles: the trees stay alike
after every write, so what is read from them is the same each time.
-/

namespace FileSystem

variable {fs fs' : FileSystem} {actor : Actor} {path : String}

/-! ### Paths that nobody shares

The condition is on the tree before the run. That writing in place keeps it for every path is what
carries it through the run; in the other tree it need not be asked again, since the trees stay
alike.
-/

/-- Whether a path names a file directly, and what it ends in is the only entry that leads
    to the file. -/
def NamesAlone (fs : FileSystem) (path : String) : Prop :=
  ∃ d name n, fs.entryOf .superuser path = .ok (d, name) ∧ fs.HoldsAlone d name n

/-- A path that ends in an entry of a file leads to that file, if it leads anywhere. -/
theorem resolve_of_entryOf {d n m : Nat} {name : String} {u : Trail}
    (he : fs.entryOf .superuser path = .ok (d, name)) (hentry : fs.entryIn? d name = some n)
    (hn : (fs.file? n).isSome) (hr : fs.resolve actor true path = .ok (m :: u)) : m = n := by
  obtain ⟨-, -, hw⟩ := resolve_eq_ok_iff.mp (resolve_superuser hr)
  obtain ⟨parts, around, hparts, hd, -⟩ := entryOf_eq_ok_iff.mp he
  -- the last name is looked up with the links that the way to the directory has left
  obtain ⟨j, hj, hwalk⟩ := walk_append hd
  have hlast : fs.walk .superuser true (maxLinks - j) (d :: around) [.name name]
      = .ok (m :: u) := by
    rw [← hwalk, Nat.sub_add_cancel hj, ← hparts, hw]
  cases hs : fs.lookUp .superuser (d :: around) name with
  | error e =>
    have hfault : fs.partFault? .superuser (d :: around) (.name name) = some e := by
      simp only [partFault?, hs]
    rw [walk_stuck hfault] at hlast
    cases hlast
  | ok l =>
    obtain rfl : n = l := by simpa [hentry] using entry_of_lookUp hs
    rw [walk_plain hs (link_of_file hn), walk_nil] at hlast
    cases hlast
    rfl

/-- A write in place keeps such paths: only what is in a file has changed. -/
theorem NamesAlone.setBytes (h : fs.NamesAlone path) {n mode : Nat} {owner : Actor}
    {old bytes : ByteArray} (hi : fs.inode? n = some ⟨mode, owner, .file old⟩) :
    (fs.setBytes n bytes).NamesAlone path := by
  obtain ⟨d, name, m, he, hd, hentry, hfile, halone⟩ := h
  have hreached (e : Nat) : (fs.setBytes n bytes).Reached e ↔ fs.Reached e :=
    exists_congr fun r => isTrail_congr (entries_setBytes hi) (e :: r)
  have hin (e : Nat) (s : String) : (fs.setBytes n bytes).entryIn? e s = fs.entryIn? e s := by
    simp only [entryIn?, entries_setBytes hi]
  refine ⟨d, name, m, ?_, (hreached d).mpr hd, (hin d name).trans hentry, ?_,
    fun {e s} hre hes => ?_⟩
  · obtain ⟨parts, around, hparts, hw, hdir⟩ := entryOf_eq_ok_iff.mp he
    exact entryOf_eq_ok_iff.mpr ⟨parts, around, hparts, by rw [walk_setBytes hi, hw],
      by rw [entries_setBytes hi]; exact hdir⟩
  · rw [file_setBytes hi]
    split
    · rfl
    · exact hfile
  · rw [hreached] at hre
    rw [hin] at hes
    exact halone hre hes

/-! ### Trees that are alike

A tree is another one with other numbers if a map of numbers takes the one to the other, as far as
the root leads to them. Who reads a path reads the same in both.
-/

/-- Whether one sound tree is another with other numbers. -/
structure Alike (fs fs' : FileSystem) : Prop where
  sound : fs.Sound
  sound' : fs'.Sound
  renumbered : ∃ ρ, Renumbered ρ fs fs'

namespace Alike

/-- Who reads a path in both trees reads the same. -/
theorem readText (h : Alike fs fs') {text text' : String}
    (hread : fs.readText actor path = .ok text) (hread' : fs'.readText actor path = .ok text') :
    text = text' := by
  obtain ⟨ρ, hρ⟩ := h.renumbered
  have hsame := hρ.readText_superuser path
  rw [readText_superuser hread, readText_superuser hread'] at hsame
  exact (Except.ok.inj hsame).symm

/-- **One write** in place in one tree, and by a new file in the other, keeps them alike. -/
theorem writeText (h : Alike fs fs') (hpath : fs.NamesAlone path) {text : String}
    {after after' : FileSystem} (hwrite : fs.writeText actor .inPlace path text = .ok after)
    (hwrite' : fs'.writeText actor .atomic path text = .ok after') :
    Alike after after' ∧ ∀ q, fs.NamesAlone q → after.NamesAlone q := by
  have sound₁ := h.sound.writeText hwrite
  have sound₂ := h.sound'.writeText hwrite'
  obtain ⟨ρ, hρ⟩ := h.renumbered
  obtain ⟨d, name, n, he, hold⟩ := hpath
  obtain ⟨m, u, mode, owner, old, hr, hi, -, rfl⟩ :=
    writeInPlace_eq_ok_iff.mp (mapError_eq_ok_iff.mp hwrite)
  -- in place, the path leads to the file of the entry that it ends in
  obtain rfl := resolve_of_entryOf he hold.entry hold.file hr
  obtain ⟨m', u', old', d', name', hr', hi', he', -, rfl⟩ := writeAtomic_eq_ok_iff.mp hwrite'
  -- the path leads to the same file and ends in the same entry, under the other numbers
  rw [hρ.resolve, hr] at hr'
  cases hr'
  have hmode : old'.mode = mode := by
    obtain ⟨-, -, hw⟩ := resolve_eq_ok_iff.mp hr
    have hnode := hρ.node ⟨u, walk_isTrail (isTrail_base path) hw⟩
    rw [hi, hi'] at hnode
    rcases hnode with ⟨⟨⟩⟩
    rfl
  obtain ⟨parts', around', hparts', hw', hdir'⟩ := entryOf_eq_ok_iff.mp he'
  have hentry' : fs'.entryOf .superuser path = .ok (d', name') :=
    entryOf_eq_ok_iff.mpr ⟨parts', around', hparts', walk_superuser hw', hdir'⟩
  rw [hρ.entryOf he] at hentry'
  cases hentry'
  rw [hmode] at sound₂ ⊢
  exact ⟨⟨sound₁, sound₂, _, hρ.write h.sound hold hi actor⟩, fun q hq => hq.setBytes hi⟩

end Alike

end FileSystem

open FileSystem (Alike)

variable {actor : Actor} {r : Registry} {options : Options} {key path : String} {schema : Value}
  {files files' after after' : FileSystem}

/-! ### Bundles in trees that are alike

What is read is the same, and so is everything that is made of it: the format, the entries, the
flag and the text that is written.
-/

/-- A bundle that does not fail and is not only compared was prepared and stored. -/
theorem embedFile_stored {changed : Bool} (hcheck : options.check = false)
    (h : embedFile actor r options schema path files = (.ok changed, after)) :
    ∃ d, prepareFile actor r options.key schema files path = .ok (changed, d) ∧
      storeFile actor options.mode d files = .ok after := by
  have hstep := embedFile_step actor r options schema path files
  rw [h] at hstep
  cases hstep with
  | compared hcompared _ => rw [hcheck] at hcompared; cases hcompared
  | stored _ hprepare hstore => exact ⟨_, hprepare, hstore⟩

/-- Bundles of which none fails: the first does not, and the others follow in the tree that it
    left. -/
theorem embedFiles_cons_ok {rest : List String} {s : Summary}
    (h : embedFiles actor r options schema (path :: rest) files = (.ok s, after)) :
    ∃ changed files₁ s₁, embedFile actor r options schema path files = (.ok changed, files₁) ∧
      embedFiles actor r options schema rest files₁ = (.ok s₁, after) ∧
      s = s₁.cons path changed := by
  rcases hfirst : embedFile actor r options schema path files with ⟨f | changed, files₁⟩
  · rw [embedFiles_of_error hfirst] at h
    cases h
  · rw [embedFiles_of_ok hfirst] at h
    obtain ⟨hresult, hafter⟩ := Prod.mk.inj h
    obtain ⟨s₁, hs₁, rfl⟩ := map_eq_ok_iff.mp hresult
    exact ⟨changed, files₁, s₁, rfl, Prod.ext hs₁ hafter, rfl⟩

/-- **One bundle**: it changes in both trees or in none, and they stay alike. -/
theorem FileSystem.Alike.embedFile {changed changed' : Bool} (h : Alike files files')
    (hpath : files.NamesAlone path)
    (hstep : embedFile actor r ⟨key, .inPlace, false⟩ schema path files = (.ok changed, after))
    (hstep' : embedFile actor r ⟨key, .atomic, false⟩ schema path files'
      = (.ok changed', after')) :
    changed = changed' ∧ Alike after after' ∧
      ∀ q, files.NamesAlone q → after.NamesAlone q := by
  obtain ⟨d, hprepare, hstore⟩ := embedFile_stored rfl hstep
  obtain ⟨d', hprepare', hstore'⟩ := embedFile_stored rfl hstep'
  obtain ⟨text, f, entries, hread, hf, hparse, rfl, rfl⟩ := prepareFile_eq_ok_iff.mp hprepare
  obtain ⟨text', f', entries', hread', hf', hparse', rfl, rfl⟩ :=
    prepareFile_eq_ok_iff.mp hprepare'
  -- what is read is the same, and so is everything that is made of it
  obtain rfl := h.readText hread hread'
  obtain rfl : f = f' := Except.ok.inj (hf.symm.trans hf')
  obtain rfl : entries = entries' := by simpa [hparse] using hparse'
  obtain ⟨out, hout, hwrite⟩ := storeFile_eq_ok_iff.mp hstore
  obtain ⟨out', hout', hwrite'⟩ := storeFile_eq_ok_iff.mp hstore'
  obtain rfl : out = out' := Except.ok.inj (hout.symm.trans hout')
  obtain ⟨halike, hkept⟩ := h.writeText hpath hwrite hwrite'
  exact ⟨rfl, halike, hkept⟩

/-- **Many bundles**: the same of them change, and the trees stay alike. -/
theorem FileSystem.Alike.embedFiles {bundles : List String} {s s' : Summary}
    (h : Alike files files') (hpaths : ∀ p ∈ bundles, files.NamesAlone p)
    (hrun : embedFiles actor r ⟨key, .inPlace, false⟩ schema bundles files = (.ok s, after))
    (hrun' : embedFiles actor r ⟨key, .atomic, false⟩ schema bundles files'
      = (.ok s', after')) : s = s' ∧ Alike after after' := by
  -- on the bundles that are left, in whatever trees those before them left
  induction bundles generalizing files files' s s' with
  | nil =>
    cases hrun
    cases hrun'
    exact ⟨rfl, h⟩
  | cons path rest ih =>
    obtain ⟨changed, files₁, s₁, hfirst, hrest, rfl⟩ := embedFiles_cons_ok hrun
    obtain ⟨changed', files₁', s₁', hfirst', hrest', rfl⟩ := embedFiles_cons_ok hrun'
    obtain ⟨rfl, halike, hkept⟩ :=
      h.embedFile (hpaths path List.mem_cons_self) hfirst hfirst'
    obtain ⟨rfl, hafter⟩ := ih halike
      (fun p hp => hkept p (hpaths p (List.mem_cons_of_mem _ hp))) hrest hrest'
    exact ⟨rfl, hafter⟩

/-! ### Two runs -/

/-- A run that does not fail loaded the schema and embedded it into all bundles. -/
theorem World.run_eq_ok {schema : String} {bundles : List String} {s : Summary}
    (h : World.run actor r options schema bundles files = (.ok s, after)) :
    ∃ d, loadFile actor r files schema = .ok d ∧
      SchemaEmbed.embedFiles actor r options d.value bundles files = (.ok s, after) := by
  rw [World.run_eq] at h
  cases hload : loadFile actor r files schema with
  | error f => rw [hload] at h; cases h
  | ok d =>
    rw [hload] at h
    simp only at h
    refine ⟨d, rfl, ?_⟩
    rcases hall : SchemaEmbed.embedFiles actor r options d.value bundles files with ⟨f | s₁, files₁⟩
    · rw [hall] at h
      cases h
    · rw [hall] at h
      obtain ⟨hresult, rfl⟩ := Prod.mk.inj h
      rw [ok_bind, Store.conclude] at hresult
      split at hresult
      · cases hresult
      · cases hresult; rfl

/-- **Both ways of writing agree.**  If every bundle is named directly, by the only entry that
    leads to its file, then a run that writes in place and a run that replaces files, both
    without a failure, end with the same summary and with the same tree: the same entries with
    the same modes, and the same in every file. -/
theorem run_modes_agree (actor : Actor) (r : Registry) (key schema : String)
    (bundles : List String) (files : FileSystem) (hsound : files.Sound)
    (hbundles : ∀ p ∈ bundles, files.NamesAlone p) {s s' : Summary} {after after' : FileSystem}
    (hinPlace : World.run actor r ⟨key, .inPlace, false⟩ schema bundles files = (.ok s, after))
    (hatomic : World.run actor r ⟨key, .atomic, false⟩ schema bundles files
      = (.ok s', after')) :
    s = s' ∧ Alike after after' ∧ after.listing .superuser = after'.listing .superuser := by
  obtain ⟨d, hload, hrun⟩ := World.run_eq_ok hinPlace
  obtain ⟨d', hload', hrun'⟩ := World.run_eq_ok hatomic
  obtain rfl : d = d' := Except.ok.inj (hload.symm.trans hload')
  have hsame : Alike files files := ⟨hsound, hsound, id, .refl files⟩
  obtain ⟨hsummary, halike⟩ := hsame.embedFiles hbundles hrun hrun'
  obtain ⟨ρ, hρ⟩ := halike.renumbered
  exact ⟨hsummary, halike, (hρ.listing_superuser halike.sound halike.sound').symm⟩

/-! ### Two files in one directory -/

open FileSystem in
/-- A directory with a schema and a bundle in it is sound. -/
theorem FileSystem.sound_schemaAndBundle (schema bundle : String) :
    (schemaAndBundle schema bundle).Sound := by
  refine ⟨isTree_schemaAndBundle schema bundle, fun {d entries} hd => ?_⟩
  rcases d with _ | _ | _ | d
  · cases hd
    exact (by decide : ["s.json", "b.json"].Nodup)
  all_goals cases hd

open FileSystem in
/-- In this directory both files are named by their only entries. -/
theorem FileSystem.namesAlone_schemaAndBundle (schema bundle : String) :
    (schemaAndBundle schema bundle).NamesAlone "s.json"
      ∧ (schemaAndBundle schema bundle).NamesAlone "b.json" := by
  have hroot (name : String) (hparts : partsOf name = [.name name])
      (habsolute : isAbsolute name = false) :
      (schemaAndBundle schema bundle).entryOf .superuser name = .ok (0, name) := by
    refine entryOf_eq_ok_iff.mpr ⟨[], [], hparts, ?_, rfl⟩
    rw [base, habsolute, walk_nil]
    rfl
  -- the only directory is the one at the top, and its two entries lead to different files
  have hentry {e n : Nat} {s : String} (h : (schemaAndBundle schema bundle).entryIn? e s = some n) :
      e = 0 ∧ ((s, n) = ("s.json", 1) ∨ (s, n) = ("b.json", 2)) := by
    rcases e with _ | _ | _ | e
    · have hmem : (s, n) ∈ [("s.json", 1), ("b.json", 2)] := Entries.mem_of_find h
      exact ⟨rfl, by simpa using hmem⟩
    all_goals cases h
  refine ⟨⟨0, "s.json", 1, hroot _ (by decide) (by decide), reached_root _, rfl, rfl, ?_⟩,
    ⟨0, "b.json", 2, hroot _ (by decide) (by decide), reached_root _, rfl, rfl, ?_⟩⟩
  · intro e s _ h
    obtain ⟨he, hs | hs⟩ := hentry h <;> cases hs
    exact ⟨he, rfl⟩
  · intro e s _ h
    obtain ⟨he, hs | hs⟩ := hentry h <;> cases hs
    exact ⟨he, rfl⟩

/-- An empty bundle with an empty schema embedded. -/
def emptyEmbedded : Value := .object [("k", .object [])]

/-- An empty schema is embedded into an empty bundle, into the file that it comes from, and
    into the bundle once more, which is up to date then. -/
theorem run_emptySchema {mode : WriteMode} {files files₁ files₂ files₃ : FileSystem}
    (hschema : files.readText .superuser "s.json" = .ok (Json.render (.object [])))
    (hbundle : files.readText .superuser "b.json" = .ok (Json.render (.object [])))
    (hwrite : files.writeText .superuser mode "b.json" (Json.render emptyEmbedded) = .ok files₁)
    (hschema' : files₁.readText .superuser "s.json" = .ok (Json.render (.object [])))
    (hwrite' : files₁.writeText .superuser mode "s.json" (Json.render emptyEmbedded)
      = .ok files₂)
    (hbundle' : files₂.readText .superuser "b.json" = .ok (Json.render emptyEmbedded))
    (hagain : files₂.writeText .superuser mode "b.json" (Json.render emptyEmbedded)
      = .ok files₃) :
    World.run .superuser .standard ⟨"k", mode, false⟩ "s.json" ["b.json", "s.json", "b.json"] files
      = (.ok ⟨["b.json", "s.json"], ["b.json"]⟩, files₃) := by
  have hempty : Fits (.object []) :=
    ⟨⟨List.nodup_nil, trivial⟩, ⟨trivial, trivial⟩, by decide⟩
  have hfull : Fits emptyEmbedded :=
    ⟨wellFormed_embedded "k" hempty.wellFormed hempty.wellFormed,
      floatFree_embedded "k" hempty.floatFree hempty.floatFree, by decide⟩
  have hb : Format.json.claims "b.json" = true := Json.claims_json (by decide)
  have hs : Format.json.claims "s.json" = true := Json.claims_json (by decide)
  have hholds : Document.holds [("k", .object [])] "k" (.object []) = true :=
    holds_embedded "k" [] hempty.wellFormed.keysDistinct hempty.floatFree.floatsFinite
  have hstay : embedded "k" (.object []) [("k", .object [])] = [("k", .object [])] := by
    rw [embedded, if_pos hholds]
  have hfirst : embedFile .superuser .standard ⟨"k", mode, false⟩ (.object []) "b.json" files
      = (.ok true, files₁) := embedFile_json rfl hb hempty hbundle hwrite
  have hsecond : embedFile .superuser .standard ⟨"k", mode, false⟩ (.object []) "s.json" files₁
      = (.ok true, files₂) := embedFile_json rfl hs hempty hschema' hwrite'
  have hthird : embedFile .superuser .standard ⟨"k", mode, false⟩ (.object []) "b.json" files₂
      = (.ok false, files₃) := by
    have hstored : files₂.writeText .superuser mode "b.json"
        (Json.render (.object (embedded "k" (.object []) [("k", .object [])]))) = .ok files₃ := by
      rw [hstay]
      exact hagain
    rw [embedFile_json rfl hb hfull hbundle' hstored, hholds]
    rfl
  rw [World.run_eq, loadFile_json hs hempty hschema]
  simp only [embedFiles, hfirst, hsecond, hthird]
  rfl

open FileSystem in
/-- A run over a bundle, the schema itself and the bundle once more, in both ways: the bundle
    is read again after it was replaced. -/
theorem run_modes_agree_again :
    ∃ files : FileSystem, files.Sound
      ∧ (∀ p ∈ ["b.json", "s.json", "b.json"], files.NamesAlone p)
      ∧ ∃ after after',
        World.run .superuser .standard ⟨"k", .inPlace, false⟩ "s.json"
            ["b.json", "s.json", "b.json"] files
          = (.ok ⟨["b.json", "s.json"], ["b.json"]⟩, after)
        ∧ World.run .superuser .standard ⟨"k", .atomic, false⟩ "s.json"
            ["b.json", "s.json", "b.json"] files
          = (.ok ⟨["b.json", "s.json"], ["b.json"]⟩, after')
        ∧ Alike after after' ∧ after.listing .superuser = after'.listing .superuser := by
  have hsound := sound_schemaAndBundle (Json.render (.object [])) (Json.render (.object []))
  have hnames : ∀ p ∈ ["b.json", "s.json", "b.json"],
      (schemaAndBundle (Json.render (.object [])) (Json.render (.object []))).NamesAlone p := by
    obtain ⟨hs, hb⟩ := namesAlone_schemaAndBundle (Json.render (.object []))
      (Json.render (.object []))
    simpa using ⟨hb, hs, hb⟩
  have hinPlace := run_emptySchema (readText_schema _ _) (readText_bundle _ _)
    (writeText_bundle _ _ _) (readText_schema _ _) (writeText_schema _ _ _) (readText_bundle _ _)
    (writeText_bundle _ _ _)
  have hb : IsPlainName "b.json" := by decide
  have hs : IsPlainName "s.json" := by decide
  have hatomic := run_emptySchema (readText_schema _ _) (readText_bundle _ _)
    (replaceText_plainName hb (show _ = some 2 from rfl) rfl _)
    (readText_plainName hs (show _ = some 1 from rfl) rfl)
    (replaceText_plainName hs (show _ = some 1 from rfl) rfl _)
    (readText_plainName hb (show _ = some 3 from rfl) rfl)
    (replaceText_plainName hb (show _ = some 3 from rfl) rfl _)
  obtain ⟨-, halike, hlisting⟩ := run_modes_agree .superuser .standard "k" "s.json"
    ["b.json", "s.json", "b.json"] _ hsound hnames hinPlace hatomic
  exact ⟨_, hsound, hnames, _, _, hinPlace, hatomic, halike, hlisting⟩

end SchemaEmbed
