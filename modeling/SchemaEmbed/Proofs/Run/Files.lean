import SchemaEmbed.Proofs.Outcome
import SchemaEmbed.Program

namespace SchemaEmbed

/-!
# A run as a function of files

A run reads and writes a tree of files and logs events. Nothing that it does depends on the log, so
that it is a function of the tree. All that is proved about runs is proved about this function,
whose steps are written out with their outcome and the tree they leave.

* `loadFile`, `storeFile` — a document that is read from a tree and written back to it;
* `embedFile`, `embedFiles` — a schema that is embedded into one bundle and into many;
* `Acts` — whether an action on a world comes to the same as a function of files;
* `World.run_eq` — **a run is this function**.
-/

variable {actor : Actor} {r : Registry} {options : Options} {schema : Value}

/-! ### The functions

Each function has the failures of the action that it stands for, and returns the tree as it is when
the failure occurs.
-/

/-- The document that a path leads to, in the format that is detected on its text. -/
def loadFile (actor : Actor) (r : Registry) (files : FileSystem) (path : String) :
    Except Failure Document :=
  (files.readText actor path).mapError (World.readFailure path) >>= Document.ofText r path

/-- The bundle at a path with the schema embedded, and whether that changed it. Nothing is
    written. -/
def prepareFile (actor : Actor) (r : Registry) (key : String) (schema : Value)
    (files : FileSystem) (path : String) : Except Failure (Bool × Document) :=
  loadFile actor r files path >>= fun d => d.embed key schema

/-- The tree after a document was written back to its path, in its own format. -/
def storeFile (actor : Actor) (mode : WriteMode) (d : Document) (files : FileSystem) :
    Except Failure FileSystem :=
  d.render >>= fun text =>
    (files.writeText actor mode d.path text).mapError fun f => .writeFailed d.path f.message

/-- What becomes of one bundle, and the tree after that. A bundle is stored even if the schema
    changes nothing, but never in a check. -/
def embedFile (actor : Actor) (r : Registry) (options : Options) (schema : Value)
    (path : String) (files : FileSystem) : Except Failure Bool × FileSystem :=
  match prepareFile actor r options.key schema files path with
  | .error f => (.error f, files)
  | .ok (changed, d) =>
    if options.check then (.ok changed, files)
    else
      match storeFile actor options.mode d files with
      | .error f => (.error f, files)
      | .ok files => (.ok changed, files)

/-- A summary with one more bundle in front. -/
def Summary.cons (path : String) (changed : Bool) (s : Summary) : Summary :=
  if changed then { s with updated := path :: s.updated }
  else { s with unchanged := path :: s.unchanged }

/-- What becomes of bundles one after the other, and the tree after that. The first failure ends
    it. -/
def embedFiles (actor : Actor) (r : Registry) (options : Options) (schema : Value) :
    List String → FileSystem → Except Failure Summary × FileSystem
  | [], files => (.ok ⟨[], []⟩, files)
  | path :: rest, files =>
    match embedFile actor r options schema path files with
    | (.error f, files) => (.error f, files)
    | (.ok changed, files) =>
      let (result, files) := embedFiles actor r options schema rest files
      (result.map (Summary.cons path changed), files)

/-- If the first bundle fails, the failure is that of all, and the tree is as the first bundle
    left it. -/
theorem embedFiles_of_error {path : String} {rest : List String} {files files' : FileSystem}
    {f : Failure} (h : embedFile actor r options schema path files = (.error f, files')) :
    embedFiles actor r options schema (path :: rest) files = (.error f, files') := by
  rw [embedFiles, h]

/-- If the first bundle does not fail, the others follow in the tree that it left. -/
theorem embedFiles_of_ok {path : String} {rest : List String} {files files' : FileSystem}
    {changed : Bool} (h : embedFile actor r options schema path files = (.ok changed, files')) :
    embedFiles actor r options schema (path :: rest) files
      = ((embedFiles actor r options schema rest files').1.map (Summary.cons path changed),
        (embedFiles actor r options schema rest files').2) := by
  rw [embedFiles, h]

/-! ### A run is one of them

An action on a world is built from smaller ones with `bind`, and so is the function that it comes
to. There is one lemma for each operation of the program; the log is left out of the comparison by
`Acts` itself.
-/

/-- What a world is after a text was written, or could not be. -/
theorem World.write_run (mode : WriteMode) (path text : String) (w : World) :
    ((World.store actor).write mode path text).run w
      = match w.files.writeText actor mode path text with
        | .error f => (.error (.writeFailed path f.message), w)
        | .ok files => (.ok (), { w with files }) := by
  simp only [World.store, StateT.run_bind, StateT.run_get, pure_bind]
  cases w.files.writeText actor mode path text <;> rfl

/-- Whether an action comes to the same as a function of files, whatever is logged. -/
def Acts {α : Type} (action : ExceptT Failure (StateM World) α)
    (f : FileSystem → Except Failure α × FileSystem) : Prop :=
  ∀ w : World, ((action.run.run w).1, (action.run.run w).2.files) = f w.files

namespace Acts

variable {α β : Type}

/-- An outcome that is given changes nothing in the world. -/
theorem const (x : Except Failure α) :
    Acts (ExceptT.mk (pure x)) fun files => (x, files) := fun _ => rfl

/-- What is logged changes nothing but the log, which no function of files has. -/
theorem tell (e : Event) : Acts ((World.store actor).tell e) fun files => (.ok (), files) :=
  fun _ => rfl

/-- Actions in a row come to the functions in a row: a failure of the first one ends both. -/
theorem bind {x : ExceptT Failure (StateM World) α} {f : α → ExceptT Failure (StateM World) β}
    {g : FileSystem → Except Failure α × FileSystem}
    {h : α → FileSystem → Except Failure β × FileSystem} (hx : Acts x g)
    (hf : ∀ a, Acts (f a) (h a)) :
    Acts (x >>= f) fun files =>
      match g files with
      | (.error e, files) => (.error e, files)
      | (.ok a, files) => h a files := by
  intro w
  have hw := hx w
  -- after a failure `f` is not run, and the world is the one that `x` left
  have hrun : (x >>= f).run.run w = match x.run.run w with
      | (.error e, w) => (.error e, w)
      | (.ok a, w) => (f a).run.run w := by
    show (x.run >>= ExceptT.bindCont f).run w = _
    rw [StateT.run_bind]
    rcases x.run.run w with ⟨_ | a, w'⟩ <;> rfl
  simp only [hrun, ← hw]
  rcases x.run.run w with ⟨_ | a, w'⟩
  · rfl
  · exact hf a w'

/-- An action comes to any function that is equal to the one it comes to. -/
theorem of_eq {x : ExceptT Failure (StateM World) α}
    {g g' : FileSystem → Except Failure α × FileSystem} (hx : Acts x g)
    (h : ∀ files, g files = g' files) : Acts x g' := fun w => (hx w).trans (h w.files)

/-- A text is read, and the tree stays. -/
theorem read (path : String) : Acts (ExceptT.mk ((World.store actor).read path))
    fun files => ((files.readText actor path).mapError (World.readFailure path), files) :=
  fun _ => rfl

/-- A text is written, or the tree stays. -/
theorem write (mode : WriteMode) (path text : String) :
    Acts (ExceptT.mk ((World.store actor).write mode path text)) fun files =>
      match files.writeText actor mode path text with
      | .error f => (.error (.writeFailed path f.message), files)
      | .ok files => (.ok (), files) := by
  intro w
  simp only [ExceptT.run, ExceptT.mk, World.write_run]
  cases w.files.writeText actor mode path text <;> rfl

/-- A document is loaded; the event that is logged does not count. -/
theorem load (path : String) : Acts ((World.store actor).load r path)
    fun files => (loadFile actor r files path, files) := by
  refine ((read path).bind fun text => (const (Document.ofText r path text)).bind fun d =>
    (tell (.loaded path d.format.name)).bind fun _ => const (.ok d)).of_eq fun files => ?_
  unfold loadFile
  rcases (files.readText actor path).mapError (World.readFailure path) with f | text
  · rfl
  · simp only [ok_bind]
    cases Document.ofText r path text <;> rfl

/-- A document is stored, or the tree stays. -/
theorem store (mode : WriteMode) (d : Document) : Acts ((World.store actor).store mode d)
    fun files =>
      match storeFile actor mode d files with
      | .error f => (.error f, files)
      | .ok files => (.ok (), files) := by
  refine ((const d.render).bind fun text => write mode d.path text).of_eq fun files => ?_
  unfold storeFile
  rcases d.render with f | text
  · rfl
  · simp only [ok_bind]
    cases files.writeText actor mode d.path text <;> rfl

/-- A schema is embedded into a bundle. -/
theorem embedAt (path : String) : Acts ((World.store actor).embedAt r options schema path)
    (embedFile actor r options schema path) := by
  -- what is logged at the end does not matter
  have finish (changed : Bool) : Acts
      (if changed = true then do
        (World.store actor).tell (.embedded path options.key)
        pure changed
      else do
        (World.store actor).tell (.upToDate path)
        pure changed) fun files => (.ok changed, files) := by
    cases changed
    · exact (tell _).bind fun _ => const (.ok false)
    · exact (tell _).bind fun _ => const (.ok true)
  refine ((load path).bind fun d => (const (d.embed options.key schema)).bind fun x =>
    (?_ : Acts _ fun files =>
      if options.check then (.ok x.1, files)
      else
        match storeFile actor options.mode x.2 files with
        | .error f => (.error f, files)
        | .ok files => (.ok x.1, files))).of_eq fun files => ?_
  · obtain ⟨changed, bundle⟩ := x
    cases hcheck : options.check
    · exact ((store options.mode bundle).bind fun _ => finish changed).of_eq fun files => by
        simp only [Bool.false_eq_true, ↓reduceIte]
        cases storeFile actor options.mode bundle files <;> rfl
    · exact finish changed
  · unfold embedFile prepareFile
    rcases loadFile actor r files path with f | d
    · rfl
    · simp only [ok_bind]
      cases d.embed options.key schema <;> rfl

/-- A schema is embedded into bundles one after the other, by induction on them. -/
theorem embedAll (bundles : List String) :
    Acts ((World.store actor).embedAll r options schema bundles)
      (embedFiles actor r options schema bundles) := by
  induction bundles with
  | nil => exact const (.ok (Summary.mk [] []))
  | cons path rest ih =>
    refine ((embedAt path).bind fun changed => ih.bind fun summary =>
      (?_ : Acts _ fun files => (.ok (summary.cons path changed), files))).of_eq fun files => ?_
    · cases changed
      · exact const (.ok _)
      · exact const (.ok _)
    · rw [embedFiles]
      rcases embedFile actor r options schema path files with ⟨f | changed, files'⟩
      · rfl
      · simp only
        rcases embedFiles actor r options schema rest files' with ⟨f | summary, files''⟩ <;> rfl

end Acts

/-- **A run is a function of files.** -/
theorem World.run_eq (actor : Actor) (r : Registry) (options : Options) (schema : String)
    (bundles : List String) (files : FileSystem) :
    World.run actor r options schema bundles files
      = match loadFile actor r files schema with
        | .error f => (.error f, files)
        | .ok d =>
          let (result, files) := embedFiles actor r options d.value bundles files
          (result >>= Store.conclude options, files) := by
  -- loading, embedding and concluding in a row, each as its function
  have hrun : Acts ((World.store actor).run r options schema bundles) _ :=
    (Acts.load schema).bind fun d => (Acts.embedAll bundles).bind fun summary =>
      Acts.const (Store.conclude options summary)
  refine (hrun ⟨files, []⟩).trans ?_
  simp only
  rcases loadFile actor r files schema with f | d
  · rfl
  · simp only
    rcases embedFiles actor r options d.value bundles files with ⟨f | summary, files'⟩ <;> rfl

/-- Loading a document is a function of files, and leaves them. -/
theorem World.reload_eq (actor : Actor) (r : Registry) (path : String) (files : FileSystem) :
    World.reload actor r none path files = (loadFile actor r files path, files) := by
  have hload : Acts ((World.store actor).load r path >>= fun d => pure d) _ :=
    (Acts.load path).bind fun d => Acts.const (.ok d)
  refine (hload ⟨files, []⟩).trans ?_
  simp only
  cases loadFile actor r files path <;> rfl

end SchemaEmbed
