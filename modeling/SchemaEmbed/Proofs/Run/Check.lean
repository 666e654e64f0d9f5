import SchemaEmbed.Proofs.FileSystem.Root
import SchemaEmbed.Proofs.Run.Rewrite

namespace SchemaEmbed

/-!
# What a check tells about a run

A check goes through the bundles of a tree that stays; a run goes through those of a tree that it
rewrites on the way. They see the same bundles as long as no bundle names the file of another one,
except that a path may go on beyond a file which the run has put where a link was.

* `StopsAt` — at which bundle embedding stops, and why;
* `Foretold` — how the failure of a run is told by that of a check;
* `embedFiles_check` — a check leaves all files alone;
* `check_simulates` — **one bundle after the other**, a run does what the check did, or could not
  store a bundle before that;
* `check_foretells` — what that says about whole runs;
* `check_meets_limit` — **the failures of the check and of the run are not the same** in the
  directory of `linkFiles`, which has a link to a bundle in it, and a link to itself.

What the run has written so far enters through `Kept`: everything that a check reads, a run reads
alike, but for the limit of links.
-/

variable {actor : Actor} {r : Registry} {options : Options} {schema : Value}
  {files files' : FileSystem} {path : String} {bundles : List String}

/-! ### Where embedding stops

Embedding stops at the first bundle that fails. That it is the first one is what `StopsAt` says,
and what the outcome of a run does not say.
-/

/-- At which bundle embedding stops, counted from zero, and with which failure. The bundles
    before it are embedded one after the other, each in the tree that the last one left. -/
inductive StopsAt (actor : Actor) (r : Registry) (options : Options) (schema : Value) :
    List String → FileSystem → Nat → Failure → Prop
  | here {path : String} {rest : List String} {files files' : FileSystem} {f : Failure}
    (h : embedFile actor r options schema path files = (.error f, files')) :
    StopsAt actor r options schema (path :: rest) files 0 f
  | later {path : String} {rest : List String} {files files' : FileSystem} {changed : Bool}
    {i : Nat} {f : Failure}
    (h : embedFile actor r options schema path files = (.ok changed, files'))
    (hrest : StopsAt actor r options schema rest files' i f) :
    StopsAt actor r options schema (path :: rest) files (i + 1) f

/-- Where embedding stops, the failure there is the failure of all bundles. -/
theorem StopsAt.embedFiles {i : Nat} {f : Failure}
    (h : StopsAt actor r options schema bundles files i f) :
    (embedFiles actor r options schema bundles files).1 = .error f := by
  induction h with
  | here h => rw [embedFiles_of_error h]
  | later h hrest ih =>
    rw [embedFiles_of_ok h, ih]
    rfl

/-- A run ends with the failure with which embedding stops, once its schema is loaded. -/
theorem StopsAt.run {schema : String} {d : Document} {i : Nat} {f : Failure}
    (h : StopsAt actor r options d.value bundles files i f)
    (hschema : loadFile actor r files schema = .ok d) :
    (World.run actor r options schema bundles files).1 = .error f := by
  rw [World.run_eq, hschema]
  exact bind_eq_error_iff.mpr (.inl h.embedFiles)

/-- If bundles fail, embedding has stopped somewhere among them, with that failure. -/
theorem stopsAt_of_embedFiles {f : Failure}
    (h : (embedFiles actor r options schema bundles files).1 = .error f) :
    ∃ i, StopsAt actor r options schema bundles files i f := by
  induction bundles generalizing files with
  | nil => cases h
  | cons path rest ih =>
    rcases hfirst : embedFile actor r options schema path files with ⟨g | changed, files₁⟩
    · rw [embedFiles_of_error hfirst] at h
      cases h
      exact ⟨0, .here hfirst⟩
    · rw [embedFiles_of_ok hfirst] at h
      obtain ⟨i, hi⟩ := ih (map_eq_error_iff.mp h)
      exact ⟨i + 1, .later hfirst hi⟩

/-! ### Checks

In a check every bundle is prepared from the same tree, so where it stops is decided bundle by
bundle.
-/

/-- A check of a bundle prepares it and leaves the tree. -/
theorem embedFile_check (hcheck : options.check = true) :
    embedFile actor r options schema path files
      = ((prepareFile actor r options.key schema files path).map Prod.fst, files) := by
  have hstep := embedFile_step actor r options schema path files
  generalize embedFile actor r options schema path files = after at hstep ⊢
  cases hstep with
  | unprepared hprepare => rw [hprepare]; rfl
  | compared hcheck' hprepare => rw [hprepare]; rfl
  | unstored hcheck' hprepare hstore => rw [hcheck] at hcheck'; cases hcheck'
  | stored hcheck' hprepare hstore => rw [hcheck] at hcheck'; cases hcheck'

/-- A check of bundles leaves all files alone. -/
theorem embedFiles_check (hcheck : options.check = true) :
    (embedFiles actor r options schema bundles files).2 = files := by
  induction bundles with
  | nil => rfl
  | cons path rest ih =>
    rw [embedFiles, embedFile_check hcheck]
    rcases prepareFile actor r options.key schema files path with f | ⟨changed, d⟩
    · rfl
    · exact ih

/-- A check stops at the first bundle if that cannot be prepared. -/
theorem StopsAt.of_unprepared {i : Nat} {f g : Failure}
    (h : StopsAt actor r options schema (path :: bundles) files i f)
    (hcheck : options.check = true)
    (hprepare : prepareFile actor r options.key schema files path = .error g) :
    i = 0 ∧ f = g := by
  have hfirst : embedFile actor r options schema path files = (.error g, files) := by
    rw [embedFile_check hcheck, hprepare]
    rfl
  cases h with
  | here h => rw [hfirst] at h; cases h; exact ⟨rfl, rfl⟩
  | later h hrest => rw [hfirst] at h; cases h

/-- A check goes on, in the same tree, from a bundle that can be prepared. -/
theorem StopsAt.of_prepared {i : Nat} {f : Failure} {changed : Bool} {d : Document}
    (h : StopsAt actor r options schema (path :: bundles) files i f)
    (hcheck : options.check = true)
    (hprepare : prepareFile actor r options.key schema files path = .ok (changed, d)) :
    ∃ k, i = k + 1 ∧ StopsAt actor r options schema bundles files k f := by
  have hfirst : embedFile actor r options schema path files = (.ok changed, files) := by
    rw [embedFile_check hcheck, hprepare]
    rfl
  cases h with
  | here h => rw [hfirst] at h; cases h
  | later h hrest =>
    rw [hfirst] at h
    cases h
    exact ⟨_, rfl, hrest⟩

/-- A check never fails for want of a place to store, and before its end not because bundles are
    out of date either. -/
theorem StopsAt.of_check (hcheck : options.check = true) {i : Nat} {f : Failure}
    (h : StopsAt actor r options schema bundles files i f) :
    f.isStoreFailure = false ∧ ∀ paths, f ≠ .outOfDate paths := by
  induction bundles generalizing i with
  | nil => cases h
  | cons path rest ih =>
    cases hprepare : prepareFile actor r options.key schema files path with
    | error g =>
      obtain ⟨-, rfl⟩ := h.of_unprepared hcheck hprepare
      exact prepareFile_error hprepare
    | ok prepared =>
      obtain ⟨k, -, hk⟩ := h.of_prepared hcheck hprepare
      exact ih hk

/-! ### A run beside a check

The trees of the two differ from the first bundle on. The invariant is that every bundle which is
left reads as in the tree of the check, or at the limit of links in both.
-/

/-- How the failure of a run, at the bundle `j`, is told by that of a check, at the bundle
    `i`: it is the same; or the check had met the limit of links, and the run found the
    path to go on beyond a file it had written; or the run could not store a bundle
    before. -/
inductive Foretold (mode : WriteMode) (i : Nat) (f : Failure) : (j : Nat) → Failure → Prop
  | same : Foretold mode i f i f
  | limit {p : String} (h : f = pathFailure p .tooManyLinks) :
    Foretold mode i f i (pathFailure p (FileSystem.limitError mode))
  | unstored {j g} (hj : j < i) (hg : g.isStoreFailure = true) : Foretold mode i f j g

/-- What is told about the bundles after the first one is told about all. -/
theorem Foretold.succ {mode : WriteMode} {i j : Nat} {f g : Failure}
    (h : Foretold mode i f j g) : Foretold mode (i + 1) f (j + 1) g := by
  cases h with
  | same => exact .same
  | limit hf => exact .limit hf
  | unstored hj hg => exact .unstored (Nat.succ_lt_succ hj) hg

/-- **One bundle after the other.**  If every bundle reads as in the tree that is checked,
    a run that succeeds does what the check does, and one fails if the check does. -/
theorem check_simulates (actor : Actor) (r : Registry) (options : Options) (schema : Value)
    {frozen : FileSystem} (tree : files.IsTree) (apart : Apart files bundles)
    (hkept : ∀ p ∈ bundles, Kept .tooManyLinks (FileSystem.limitError options.mode)
      (frozen.readBytes actor p) (files.readBytes actor p)) :
    (∀ s, (embedFiles actor r { options with check := false } schema bundles files).1 = .ok s →
      (embedFiles actor r { options with check := true } schema bundles frozen).1 = .ok s) ∧
    ∀ i f, StopsAt actor r { options with check := true } schema bundles frozen i f →
      ∃ j g, StopsAt actor r { options with check := false } schema bundles files j g ∧
        Foretold options.mode i f j g := by
  induction bundles generalizing files with
  | nil => exact ⟨fun s h => h, fun i f h => by cases h⟩
  | cons path rest ih =>
    obtain ⟨hfirst, hrest⟩ := List.pairwise_cons.mp apart
    have hprep : Kept (pathFailure path .tooManyLinks)
        (pathFailure path (FileSystem.limitError options.mode))
        (prepareFile actor r options.key schema frozen path)
        (prepareFile actor r options.key schema files path) :=
      prepareFile_kept (hkept path List.mem_cons_self)
    have hstep := embedFile_step actor r { options with check := false } schema path files
    generalize hrun : embedFile actor r { options with check := false } schema path files = after
      at hstep
    cases hstep with
    | @unprepared f hprepare =>
      refine ⟨fun s hs => ?_, fun i g hi => ⟨0, f, .here hrun, ?_⟩⟩
      · rw [embedFiles_of_error hrun] at hs; cases hs
      · -- the check fails at the same bundle, with the same failure or at the limit of links
        rw [hprepare] at hprep
        generalize htold : prepareFile actor r options.key schema frozen path = told at hprep
        cases hprep with
        | same =>
          obtain ⟨rfl, rfl⟩ := hi.of_unprepared rfl htold
          exact .same
        | beyond =>
          obtain ⟨rfl, rfl⟩ := hi.of_unprepared rfl htold
          exact .limit rfl
    | compared hcheck' hprepare => cases hcheck'
    | @unstored changed d f hcheck' hprepare hstore =>
      have hfrozen := (hprep.ok_iff (changed, d)).mpr hprepare
      refine ⟨fun s hs => ?_, fun i g hi => ?_⟩
      · rw [embedFiles_of_error hrun] at hs; cases hs
      · -- the check goes on from the bundle that the run could not store
        obtain ⟨k, rfl, -⟩ := hi.of_prepared rfl hfrozen
        exact ⟨0, f, .here hrun, .unstored (Nat.succ_pos k) (storeFile_error hstore)⟩
    | @stored changed d files₁ hcheck' hprepare hstore =>
      have hfrozen := (hprep.ok_iff (changed, d)).mpr hprepare
      obtain ⟨htouched, -⟩ := storeFile_rewrites tree hprepare hstore
      -- the bundles that follow are apart from the one that was written
      have hkept₁ : ∀ p ∈ rest, Kept .tooManyLinks (FileSystem.limitError options.mode)
          (frozen.readBytes actor p) (files₁.readBytes actor p) := by
        intro p hp
        refine (hkept p (List.mem_cons_of_mem _ hp)).trans (htouched.kept actor (.inl rfl) p ?_)
        intro q hq hsame
        rw [List.mem_singleton.mp hq] at hsame
        exact hfirst p hp hsame.symm
      obtain ⟨hok, hstop⟩ := ih htouched.tree
        (hrest.imp fun hpq hsame => hpq (htouched.same _ _ hsame)) hkept₁
      have hcheck : embedFile actor r { options with check := true } schema path frozen
          = (.ok changed, frozen) := by
        rw [embedFile_check rfl, hfrozen]
        rfl
      refine ⟨fun s hs => ?_, fun i g hi => ?_⟩
      · rw [embedFiles_of_ok hrun] at hs
        obtain ⟨s', hs', rfl⟩ := map_eq_ok_iff.mp hs
        rw [embedFiles_of_ok hcheck]
        exact map_eq_ok_iff.mpr ⟨s', hok s' hs', rfl⟩
      · obtain ⟨k, rfl, hk⟩ := hi.of_prepared rfl hfrozen
        obtain ⟨j, g', hj, htold⟩ := hstop k g hk
        exact ⟨j + 1, g', .later hrun hj, htold.succ⟩

/-! ### Whole runs -/

/-- The bundles that a run has changed are named in the order in which they were given. -/
theorem updated_sublist (hcheck : options.check = false) (tree : files.IsTree)
    (apart : Apart files bundles) {s : Summary}
    (h : (embedFiles actor r options schema bundles files).1 = .ok s) :
    s.updated.Sublist bundles := by
  have hout : UpToFailure actor r options.key schema bundles files
      (embedFiles actor r options schema bundles files) := embedFiles_rewrites hcheck tree apart
  generalize embedFiles actor r options schema bundles files = after at h hout
  obtain ⟨result, files'⟩ := after
  obtain rfl : result = .ok s := h
  exact hout.2.2.1

/-- **What a check tells about a run.**  It leaves all files alone and never fails to store.
    If a run would succeed, the check gives its summary, or the list of the bundles it would
    change.  If the check fails in another way, so does the run: at the schema in the same
    way, or at a bundle as `Foretold` tells. -/
theorem check_foretells (actor : Actor) (r : Registry) (options : Options) (schema : String)
    (bundles : List String) (files : FileSystem) (tree : files.IsTree)
    (apart : Apart files bundles) :
    (World.run actor r { options with check := true } schema bundles files).2 = files ∧
    (∀ f, (World.run actor r { options with check := true } schema bundles files).1 = .error f →
      f.isStoreFailure = false) ∧
    (∀ s, (World.run actor r { options with check := false } schema bundles files).1 = .ok s →
      (World.run actor r { options with check := true } schema bundles files).1
        = (if s.updated = [] then .ok s else .error (.outOfDate s.updated)) ∧
      s.updated.Sublist bundles ∧
      (Failure.outOfDate s.updated).message = toString s.updated.length
        ++ " bundle(s) out of date: " ++ ", ".intercalate s.updated) ∧
    ∀ f, (World.run actor r { options with check := true } schema bundles files).1 = .error f →
      (∀ paths, f ≠ .outOfDate paths) →
      match (World.reload actor r none schema files).1 with
      | .error e => f = e ∧
          (World.run actor r { options with check := false } schema bundles files).1 = .error f
      | .ok d => ∃ i j g,
          StopsAt actor r { options with check := true } d.value bundles files i f ∧
          StopsAt actor r { options with check := false } d.value bundles files j g ∧
          (World.run actor r { options with check := false } schema bundles files).1 = .error g ∧
          Foretold options.mode i f j g := by
  rw [World.run_eq, World.run_eq, World.reload_eq]
  cases hload : loadFile actor r files schema with
  | error e =>
    refine ⟨rfl, fun f hf => ?_, fun s hs => (by cases hs), fun f hf _ => ?_⟩
    · cases hf; exact (loadFile_error hload).1
    · cases hf; exact ⟨rfl, rfl⟩
  | ok d =>
    obtain ⟨hok, hstop⟩ := check_simulates actor r options d.value tree apart
      fun _ _ => Kept.same
    refine ⟨embedFiles_check rfl, fun f hf => ?_, fun s hs => ?_, fun f hf hne => ?_⟩
    · -- a check fails at a bundle, or at its end because some are out of date
      rcases bind_eq_error_iff.mp hf with hf | ⟨s, -, hf⟩
      · obtain ⟨i, hi⟩ := stopsAt_of_embedFiles hf
        exact (hi.of_check rfl).1
      · simp only [Store.conclude, Bool.true_and] at hf
        split at hf <;> cases hf
        rfl
    · obtain ⟨s', hs', hconclude⟩ := bind_eq_ok_iff.mp hs
      obtain rfl : s' = s := by simpa [Store.conclude] using hconclude
      refine ⟨?_, updated_sublist rfl tree apart hs', rfl⟩
      simp only [hok s' hs', ok_bind, Store.conclude, Bool.true_and]
      cases s'.updated <;> simp
    · have hf' : (embedFiles actor r { options with check := true } d.value bundles files).1
          = .error f := by
        rcases bind_eq_error_iff.mp hf with hf | ⟨s, -, hf⟩
        · exact hf
        · simp only [Store.conclude, Bool.true_and] at hf
          split at hf <;> cases hf
          exact absurd rfl (hne _)
      obtain ⟨i, hi⟩ := stopsAt_of_embedFiles hf'
      obtain ⟨j, g, hj, htold⟩ := hstop i f hi
      exact ⟨i, j, g, hi, hj, bind_eq_error_iff.mpr (.inl hj.embedFiles), htold⟩

/-- A check of an empty bundle finds it out of date, because a run would update it. -/
theorem check_foretells_nested :
    World.run .superuser .standard ⟨"k", .inPlace, true⟩ "s.json" ["b.json"] (nestedFiles 1 [])
      = (.error (.outOfDate ["b.json"]), nestedFiles 1 []) := by
  obtain ⟨hfiles, -, hok, -⟩ := check_foretells .superuser .standard ⟨"k", .inPlace, false⟩
    "s.json" ["b.json"] (nestedFiles 1 []) (FileSystem.isTree_schemaAndBundle _ _)
    (.cons (List.forall_mem_nil _) .nil)
  have hrun := congrArg Prod.fst (run_nested (show 1 ≤ 127 by decide))
  obtain ⟨hcheck, -⟩ := hok _ hrun
  exact Prod.ext hcheck hfiles

/-! ### Where the limit of links shows

The failure of a check and that of a run need not be the same. A path may go through many links
and then on from a last one, which names a bundle. The check meets the limit of links there. A
run has by then put a file in place of the last link, and meets that file, beyond which no path
goes on. The directory below has such a path. -/

namespace FileSystem

variable {fs : FileSystem} {rest : List Part}

/-- A directory with a schema, a bundle, a link to the bundle and a link to the directory itself. -/
def linkFiles (schema bundle : String) : FileSystem :=
  ⟨[⟨0o755, .superuser, .directory [("s.json", 1), ("f.json", 2), ("a.json", 3), ("d", 4)]⟩,
    ⟨0o644, .superuser, .file schema.toUTF8⟩, ⟨0o644, .superuser, .file bundle.toUTF8⟩,
    ⟨0o777, .superuser, .link "f.json"⟩, ⟨0o777, .superuser, .link "."⟩]⟩

/-- Each time the way goes through the directory once more, it takes one link. -/
theorem walk_loop {name : String} {n : Nat} (hname : fs.lookUp .superuser start name = .ok n)
    (hlink : fs.link? n = some ".") (hroot : fs.requireDirectory start = .ok ()) (times k : Nat) :
    fs.walk .superuser true (k + times) start (List.replicate times (.name name) ++ rest)
      = fs.walk .superuser true k start rest := by
  induction times with
  | zero => rfl
  | succ times ih =>
    have hparts : partsOf "." = [.here] := by decide
    rw [List.replicate_succ, List.cons_append, ← Nat.add_assoc, walk_link hname hlink, hparts]
    show fs.walk .superuser true (k + times) start (.here :: _) = _
    rw [walk_here hroot]
    exact ih

/-- A path that goes through the directory forty times, and on from the link to the bundle. -/
def loopPath : String := "d/d/d/d/d/d/d/d/d/d/d/d/d/d/d/d/d/d/d/d/" ++
  "d/d/d/d/d/d/d/d/d/d/d/d/d/d/d/d/d/d/d/d/a.json/x"

/-- The parts of that path, forty times the directory and then two names. -/
theorem partsOf_loopPath :
    partsOf loopPath = List.replicate 40 (.name "d") ++ [.name "a.json", .name "x"] := by
  decide

/-- When the directory was entered for the last time, no more links may be followed. -/
theorem resolve_loopPath {n : Nat} (hname : fs.lookUp .superuser start "d" = .ok n)
    (hlink : fs.link? n = some ".") (hroot : fs.requireDirectory start = .ok ()) :
    fs.resolve .superuser true loopPath
      = fs.walk .superuser true 0 start [.name "a.json", .name "x"] := by
  rw [resolve_eq_walk (by decide) (by decide), partsOf_loopPath]
  exact walk_loop hname hlink hroot 40 0

variable (schema bundle : String)

/-- The directory is a tree: only its root is a directory, and every entry leads to an inode. -/
theorem isTree_linkFiles : (linkFiles schema bundle).IsTree := by
  have hroot : (linkFiles schema bundle).entries? 0
      = some [("s.json", 1), ("f.json", 2), ("a.json", 3), ("d", 4)] := rfl
  refine isTree_of_root hroot (fun m hm => ?_) fun e he => ?_
  · rcases m with _ | _ | _ | _ | _ | m
    · exact absurd rfl hm
    all_goals rfl
  · have hlength : (linkFiles schema bundle).inodes.length = 5 := rfl
    simp only [List.mem_cons, List.not_mem_nil, or_false] at he
    rcases he with rfl | rfl | rfl | rfl <;> simp [hlength]

/-- The entry of the link to the directory. -/
theorem lookUp_loop : (linkFiles schema bundle).lookUp .superuser start "d" = .ok 4 :=
  lookUp_plainName (by decide) rfl

/-- The entry of the link to the bundle. -/
theorem lookUp_link : (linkFiles schema bundle).lookUp .superuser start "a.json" = .ok 3 :=
  lookUp_plainName (by decide) rfl

/-- The link leads to the bundle, which it names in its own directory. -/
theorem resolve_link : (linkFiles schema bundle).resolve .superuser true "a.json" = .ok [2, 0] := by
  have hfile : (linkFiles schema bundle).lookUp .superuser start "f.json" = .ok 2 :=
    lookUp_plainName (by decide) rfl
  have hparts : partsOf "a.json" = [.name "a.json"] := by decide
  have htarget : partsOf "f.json" = [.name "f.json"] := by decide
  rw [resolve_eq_walk (by decide) (by decide), hparts]
  show (linkFiles schema bundle).walk .superuser true (39 + 1) start _ = _
  rw [walk_link (lookUp_link schema bundle) (show _ = some "f.json" from rfl), htarget]
  show (linkFiles schema bundle).walk .superuser true 39 start [.name "f.json"] = _
  rw [walk_plain hfile rfl, walk_nil]
  rfl

/-- The bundle is read through the link. -/
theorem readText_link : (linkFiles schema bundle).readText .superuser "a.json" = .ok bundle :=
  readText_eq_ok_iff.mpr ⟨by decide, readBytes_eq_ok_iff.mpr
    ⟨2, [0], _, _, resolve_link schema bundle, rfl, rfl⟩⟩

/-- The link is replaced by a file, when the bundle is written through it in one step. -/
theorem writeText_link (text : String) :
    (linkFiles schema bundle).writeText .superuser .atomic "a.json" text
      = .ok ((linkFiles schema bundle).replaceEntry 0 "a.json" 0o644 .superuser text.toUTF8) := by
  have hentry : (linkFiles schema bundle).entryOf .superuser "a.json" = .ok (0, "a.json") :=
    entryOf_eq_ok_iff.mpr ⟨[], [], by decide, walk_nil _ _, rfl⟩
  exact writeAtomic_eq_ok_iff.mpr ⟨2, [0], _, 0, "a.json", resolve_link schema bundle, rfl, hentry,
    ⟨_, _, 3, _, rfl, rfl, rfl, rfl, rfl, rfl, rfl, rfl⟩, rfl⟩

/-- The way through the directory leads to the bundle if links are not limited, so that the
    path beyond it names no file. -/
theorem not_names_loopPath (n : Nat) : ¬ (linkFiles schema bundle).Names loopPath n := by
  have hlink := resolve_link schema bundle
  rw [resolve_eq_walk (by decide) (by decide)] at hlink
  have hleads : (linkFiles schema bundle).Leads .superuser start
      (List.replicate 40 (.name "d") ++ partsOf "a.json") 2 :=
    ⟨maxLinks + 40, [0], (walk_loop (lookUp_loop schema bundle) rfl rfl 40 maxLinks).trans hlink⟩
  rintro ⟨-, k, u, hw⟩
  -- so the walk to the end of the path fails with any number of links
  have hparts : partsOf loopPath
      = (List.replicate 40 (.name "d") ++ partsOf "a.json") ++ .name "x" :: [] := by
    rw [partsOf_loopPath, List.append_assoc]
    rfl
  rw [hparts] at hw
  have hfile : ((linkFiles schema bundle).file? 2).isSome := rfl
  rcases walk_beyond_file hleads hfile k (.name "x") [] with herror | herror
  all_goals
    rw [show base loopPath = start from rfl, herror] at hw
    cases hw

/-- What is beyond the bundle is not read: where the link is, the limit of links is met. -/
theorem readText_loopPath_link :
    (linkFiles schema bundle).readText .superuser loopPath = .error (.os .tooManyLinks) := by
  refine readText_eq_error (by decide)
    ((resolve_loopPath (lookUp_loop schema bundle) rfl rfl).trans ?_)
  exact walk_limit (lookUp_link schema bundle) (show _ = some "f.json" from rfl) _

/-- Where the new file is, the path does not go on. -/
theorem readText_loopPath_file (bytes : ByteArray) :
    ((linkFiles schema bundle).replaceEntry 0 "a.json" 0o644 .superuser bytes).readText
      .superuser loopPath = .error (.os .notDirectory) := by
  have hname : ((linkFiles schema bundle).replaceEntry 0 "a.json" 0o644 .superuser bytes).lookUp
      .superuser start "d" = .ok 4 := lookUp_plainName (by decide) rfl
  have hfile : ((linkFiles schema bundle).replaceEntry 0 "a.json" 0o644 .superuser bytes).lookUp
      .superuser start "a.json" = .ok 5 := lookUp_plainName (by decide) rfl
  refine readText_eq_error (by decide) ((resolve_loopPath hname rfl rfl).trans ?_)
  rw [walk_plain hfile rfl]
  exact walk_from_file rfl 0 _ _ _

end FileSystem

/-- A document whose text cannot be read is not loaded, and the failure says why. -/
theorem loadFile_unread {actor : Actor} {r : Registry} {files : FileSystem} {path : String}
    {e : FileSystem.ReadFault} (h : files.readText actor path = .error e) :
    loadFile actor r files path = .error (World.readFailure path e) := by
  rw [loadFile, h]
  rfl

open FileSystem in
/-- **The failures of the check and of the run are not the same**: the check meets the limit
    of links where the run meets the file that it has put in place of the link. -/
theorem check_meets_limit :
    let files := linkFiles (Json.render (.number (.int 1))) (Json.render (.object []))
    files.IsTree ∧ Apart files ["a.json", loopPath]
      ∧ (World.run .superuser .standard ⟨"k", .atomic, true⟩ "s.json" ["a.json", loopPath] files).1
        = .error (.readFailed loopPath "Too many levels of symbolic links (os error 40)")
      ∧ (World.run .superuser .standard ⟨"k", .atomic, false⟩ "s.json" ["a.json", loopPath] files).1
        = .error (.readFailed loopPath "Not a directory (os error 20)") := by
  intro files
  have hschema : Fits (.number (.int 1)) := ⟨⟨by decide, by decide⟩, trivial, by decide⟩
  have hbundle : Fits (.object []) := ⟨⟨List.nodup_nil, trivial⟩, ⟨trivial, trivial⟩, by decide⟩
  have hload : loadFile .superuser .standard files "s.json"
      = .ok ⟨"s.json", Format.json, .number (.int 1)⟩ :=
    loadFile_json (Json.claims_json (by decide)) hschema
      (readText_plainName (by decide) (show _ = some 1 from rfl) rfl)
  refine ⟨isTree_linkFiles _ _, ?_, ?_, ?_⟩
  · refine .cons (fun p hp hsame => ?_) (.cons (List.forall_mem_nil _) .nil)
    rw [List.mem_singleton.mp hp] at hsame
    obtain ⟨n, -, hn⟩ := hsame
    exact not_names_loopPath _ _ n hn
  · -- the check leaves the link, so it meets the limit there
    have hfirst : embedFile .superuser .standard ⟨"k", .atomic, true⟩ (.number (.int 1)) "a.json"
        files = (.ok true, files) := by
      rw [embedFile_check rfl, prepareFile_json (Json.claims_json (by decide)) hbundle
        (readText_link _ _)]
      rfl
    exact (StopsAt.later hfirst (.here (embedFile_unloaded
      (loadFile_unread (readText_loopPath_link _ _))))).run hload
  · -- the run has put a file in its place
    obtain ⟨text, hfirst⟩ : ∃ text, embedFile .superuser .standard ⟨"k", .atomic, false⟩
        (.number (.int 1)) "a.json" files
          = (.ok true, files.replaceEntry 0 "a.json" 0o644 .superuser text) :=
      ⟨_, embedFile_json rfl (Json.claims_json (by decide)) hbundle (readText_link _ _)
        (writeText_link _ _ _)⟩
    exact (StopsAt.later hfirst (.here (embedFile_unloaded
      (loadFile_unread (readText_loopPath_file _ _ _))))).run hload

end SchemaEmbed
