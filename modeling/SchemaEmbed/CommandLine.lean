import SchemaEmbed.Log
import SchemaEmbed.Options

namespace SchemaEmbed

/-!
# The command line

* `Argument` — what can stand on a command line;
* `UsageError` — why a command line is refused, with its wording;
* `Request` — what a command line asks for: a run, or one of the texts about the program;
* `CommandLine.parse` — reads a command line from left to right. What follows an option
  or stands for itself is taken up only when the next thing is recognised or the line
  ends, and that is when a value is found missing or empty.
-/

/-- What can stand on a command line. -/
inductive Argument where
  | schema
  | bundle
  | key
  | atomic
  | check
  | verbose
  | quiet
  | help
  | version
  deriving DecidableEq, Repr

/-- How a message shows an argument. -/
def Argument.display : Argument → String
  | schema => "<SCHEMA>"
  | bundle => "[BUNDLE]..."
  | key => "--key <KEY>"
  | atomic => "--atomic"
  | check => "--check"
  | verbose => "--verbose..."
  | quiet => "--quiet"
  | help => "--help"
  | version => "--version"

/-- Whether two arguments exclude each other. -/
def Argument.excludes : Argument → Argument → Bool
  | atomic, check | check, atomic | verbose, quiet | quiet, verbose => true
  | _, _ => false

/-- Why a command line is refused. -/
inductive UsageError where
  | unknown (text : String)
  | missingValue (a : Argument)
  | unexpectedValue (value : String) (a : Argument)
  | repeated (a : Argument)
  | conflict (a b : Argument)
  | missingSchema
  deriving DecidableEq, Repr

/-- The wording of a refusal. -/
def UsageError.message : UsageError → String
  | unknown text => s!"error: unexpected argument '{text}' found"
  | missingValue a => s!"error: a value is required for '{a.display}' but none was supplied"
  | unexpectedValue value a =>
    s!"error: unexpected value '{value}' for '{a.display}' found; no more were expected"
  | repeated a => s!"error: the argument '{a.display}' cannot be used multiple times"
  | conflict a b => s!"error: the argument '{a.display}' cannot be used with '{b.display}'"
  | missingSchema =>
    "error: the following required arguments were not provided:\n  <SCHEMA>"

/-- What a run is asked to do and how much it is to tell. -/
structure Invocation where
  schema : String
  bundles : List String
  options : Options
  verbose : Nat
  quiet : Bool
  deriving DecidableEq, Repr

/-- The level of the log of a run. -/
def Invocation.level (i : Invocation) : Level := .ofFlags i.verbose i.quiet

/-- What a command line asks for. -/
inductive Request where
  | run (i : Invocation)
  /-- The description of the program, at length or in short. -/
  | help (long : Bool)
  | version
  deriving DecidableEq, Repr

namespace CommandLine

/-- What has been read but not taken up. -/
inductive Pending where
  | nothing
  | keyValue (value : Option String)
  | schemaPath (path : String)
  | bundlePaths (paths : List String)
  deriving DecidableEq, Repr

/-- A command line while it is read. -/
structure Progress where
  schema : Option String
  bundles : List String
  key : Option String
  verbose : Nat
  /-- The options so far, in the order in which each was last given. -/
  given : List Argument
  pending : Pending
  deriving DecidableEq, Repr

/-- A command line of which nothing has been read. -/
def Progress.start : Progress := ⟨none, [], none, 0, [], .nothing⟩

/-- Why reading stops before the end of the line. -/
inductive Stop where
  | error (e : UsageError)
  | help (long : Bool)
  | version
  deriving DecidableEq, Repr

/-- The largest count of verbosity. -/
def maxVerbose : Nat := 255

namespace Progress

/-- Takes up what has been read. -/
def settle (p : Progress) : Except Stop Progress :=
  match p.pending with
  | .nothing => .ok p
  | .keyValue none => .error (.error (.missingValue .key))
  | .keyValue (some value) =>
    if p.key.isSome then .error (.error (.repeated .key))
    else if value.isEmpty then .error (.error (.missingValue .key))
    else .ok { p with key := some value, given := p.given ++ [.key], pending := .nothing }
  | .schemaPath path =>
    if path.isEmpty then .error (.error (.missingValue .schema))
    else .ok { p with schema := some path, pending := .nothing }
  | .bundlePaths paths =>
    if paths.any String.isEmpty then .error (.error (.missingValue .bundle))
    else .ok { p with bundles := p.bundles ++ paths, pending := .nothing }

/-- A flag, which may be given once. -/
def flag (p : Progress) (a : Argument) : Except Stop Progress := do
  let p ← p.settle
  if p.given.contains a then throw (.error (.repeated a))
  else return { p with given := p.given ++ [a] }

/-- One more degree of verbosity. -/
def moreVerbose (p : Progress) : Except Stop Progress := do
  let p ← p.settle
  return { p with
    verbose := min (p.verbose + 1) maxVerbose
    given := p.given.filter (· != .verbose) ++ [.verbose] }

/-- An argument without a value. -/
def take (p : Progress) (a : Argument) (long : Bool) : Except Stop Progress :=
  match a with
  | .help => do
    let _ ← p.settle
    throw (.help long)
  | .version => do
    let _ ← p.settle
    throw .version
  | .verbose => p.moreVerbose
  | a => p.flag a

/-- A text that stands for itself: the schema first, then the bundles. -/
def positional (p : Progress) (text : String) : Except Stop Progress :=
  match p.pending with
  | .bundlePaths paths => .ok { p with pending := .bundlePaths (paths ++ [text]) }
  | _ => do
    let p ← p.settle
    if p.schema.isSome then return { p with pending := .bundlePaths [text] }
    else return { p with pending := .schemaPath text }

/-- Letters after one dash. -/
def letters (p : Progress) : List Char → Except Stop Progress
  | [] => .ok p
  | c :: rest =>
    match c with
    | 'v' => do letters (← p.take .verbose false) rest
    | 'q' => do letters (← p.take .quiet false) rest
    | 'h' => do letters (← p.take .help false) rest
    | 'V' => do letters (← p.take .version false) rest
    | _ => .error (.error (.unknown (String.ofList ['-', c])))

end Progress

/-- The argument with a name after two dashes. -/
def named? (name : List Char) : Option Argument :=
  [("key", Argument.key), ("atomic", .atomic), ("check", .check), ("verbose", .verbose),
    ("quiet", .quiet), ("help", .help), ("version", .version)].lookup (String.ofList name)

/-- A name after two dashes, perhaps with a value after an equals sign. -/
def Progress.word (p : Progress) (text : List Char) : Except Stop Progress :=
  let name := text.takeWhile (· != '=')
  let value := ((text.dropWhile (· != '=')).tail?).map String.ofList
  match named? name, value with
  | none, _ => .error (.error (.unknown (String.ofList ('-' :: '-' :: name))))
  | some .key, some value => do
    let p ← p.settle
    { p with pending := .keyValue (some value) }.settle
  | some .key, none => do
    let p ← p.settle
    return { p with pending := .keyValue none }
  | some a, some value => .error (.error (.unexpectedValue value a))
  | some a, none => p.take a true

/-- Reads the arguments of a line; after two dashes alone, `literal` is set and every
    argument stands for itself. -/
def readAll : (literal : Bool) → Progress → List String → Except Stop Progress
  | _, p, [] => p.settle
  | true, p, arg :: rest => do readAll true (← p.positional arg) rest
  | false, p, arg :: rest =>
    match arg.toList with
    | ['-', '-'] => readAll true p rest
    | '-' :: '-' :: text => do readAll false (← p.word text) rest
    | '-' :: c :: text => do readAll false (← p.letters (c :: text)) rest
    | _ =>
      match p.pending with
      | .keyValue none => readAll false { p with pending := .keyValue (some arg) } rest
      | _ => do readAll false (← p.positional arg) rest

/-- The first two arguments that exclude each other. -/
def findConflict (given : List Argument) : Option (Argument × Argument) :=
  given.findSome? fun a => (given.find? a.excludes).map fun b => (a, b)

/-- What a line that was read to its end asks for. -/
def Progress.finish (p : Progress) : Except UsageError Invocation :=
  match findConflict p.given, p.schema with
  | some (a, b), _ => .error (.conflict a b)
  | none, none => .error .missingSchema
  | none, some schema =>
    .ok {
      schema
      bundles := p.bundles
      options := {
        key := p.key.getD Options.defaultKey
        mode := if p.given.contains .atomic then .atomic else .inPlace
        check := p.given.contains .check }
      verbose := p.verbose
      quiet := p.given.contains .quiet }

/-- What a command line asks for. -/
def parse (args : List String) : Except UsageError Request :=
  match readAll false .start args with
  | .ok p => p.finish.map .run
  | .error (.help long) => .ok (.help long)
  | .error .version => .ok .version
  | .error (.error e) => .error e

end CommandLine

end SchemaEmbed
