import SchemaEmbed.CommandLine.Help
import SchemaEmbed.FileSystem.Writing
import SchemaEmbed.Format.Builtin
import SchemaEmbed.Run

namespace SchemaEmbed

/-!
# The program

* `World` — a tree of files and the events that have been logged;
* `World.store` — the effects of a run on a world;
* `World.run` / `World.reload` — a run, and a document loaded and stored again;
* `Report` — how the program ended, and `Report.outcome`, its output and exit code;
* `execute` — the program on a command line.
-/

/-- A tree of files and the events logged so far. -/
structure World where
  files : FileSystem
  events : List Event

namespace World

/-- The failure to read a path. -/
def readFailure (path : String) (f : FileSystem.ReadFault) : Failure :=
  if f = .os .notFound then .fileNotFound path else .readFailed path f.message

/-- The effects of a run by an actor on a world. -/
def store (actor : Actor) : Store (StateM World) where
  read path := do
    return ((← get).files.readText actor path).mapError (readFailure path)
  write mode path text := do
    let w ← get
    match w.files.writeText actor mode path text with
    | .ok files =>
      set { w with files }
      return .ok ()
    | .error f => return .error (.writeFailed path f.message)
  log e := modify fun w => { w with events := w.events ++ [e] }

end World

/-- The lines of a log of a level. -/
def logText (l : Level) (events : List Event) : String :=
  String.join (events.filterMap fun e => (e.line l).map (· ++ "\n"))

/-- How the program ended. -/
inductive Report where
  | refused (e : UsageError)
  | help (long : Bool)
  | version
  /-- After a run with a log of a level, in which these events happened. -/
  | ran (level : Level) (events : List Event) (result : Except Failure Summary)

/-- The output of the program and its exit code. -/
structure Outcome where
  exit : Nat
  stdout : String
  stderr : String
  deriving DecidableEq, Repr

/-- The output and the exit code that go with a report. -/
def Report.outcome : Report → Outcome
  | refused e => ⟨2, "", CommandLine.report e⟩
  | help long => ⟨0, CommandLine.helpText long, ""⟩
  | version => ⟨0, CommandLine.versionText, ""⟩
  | ran level events (.ok summary) =>
    let done := Event.done summary.updated.length summary.unchanged.length
    ⟨0, "", logText level (events ++ [done])⟩
  | ran level events (.error f) =>
    ⟨1, "", logText level events ++ "Error: " ++ f.message ++ "\n"⟩

/-- What the program does on a command line, with the effects `s` of a run; `events` gives
    what was logged. -/
def execute {m : Type → Type} [Monad m] (s : Store m) (events : m (List Event))
    (args : List String) : m Report :=
  match CommandLine.parse args with
  | .error e => return .refused e
  | .ok (.help long) => return .help long
  | .ok .version => return .version
  | .ok (.run i) => do
    let result ← (s.run .standard i.options i.schema i.bundles).run
    return .ran i.level (← events) result

/-- The program on a command line in a world, and the files that it leaves. -/
def World.execute (actor : Actor) (args : List String) (files : FileSystem) :
    Report × FileSystem :=
  let (report, w) :=
    (SchemaEmbed.execute (World.store actor) (World.events <$> get) args).run ⟨files, []⟩
  (report, w.files)

/-- A run in a world, and the files that it leaves. -/
def World.run (actor : Actor) (r : Registry) (options : Options) (schema : String)
    (bundles : List String) (files : FileSystem) : Except Failure Summary × FileSystem :=
  let (result, w) := ((World.store actor).run r options schema bundles).run.run ⟨files, []⟩
  (result, w.files)

/-- Loads a document in a world and, if a mode is given, stores it unchanged. -/
def World.reload (actor : Actor) (r : Registry) (mode : Option WriteMode) (path : String)
    (files : FileSystem) : Except Failure Document × FileSystem :=
  let action : ExceptT Failure (StateM World) Document := do
    let d ← (World.store actor).load r path
    if let some mode := mode then (World.store actor).store mode d
    return d
  let (result, w) := action.run.run ⟨files, []⟩
  (result, w.files)

end SchemaEmbed
