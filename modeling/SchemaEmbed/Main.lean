import SchemaEmbed.Program

/-!
# The command line program

Carries out a run on real files. The log is shown when the run is over. A file that is
replaced as a whole gets the mode of a new file, and its directory must be free of an
earlier temporary file.
-/

namespace SchemaEmbed.Main

/-- The reason of an error of the operating system. -/
def reasonOf : IO.Error → String
  | .noFileOrDirectory .. => OsError.notFound.message
  | .permissionDenied _ code _ => (OsError.mk code.toNat).message
  | .inappropriateType _ code _ => (OsError.mk code.toNat).message
  | .alreadyExists _ code _ => (OsError.mk code.toNat).message
  | .resourceExhausted _ code _ => (OsError.mk code.toNat).message
  | .hardwareFault code _ => (OsError.mk code.toNat).message
  | .otherError code _ => (OsError.mk code.toNat).message
  | e => toString e

/-- Why a path cannot be read. -/
def readFailure (path : String) : IO.Error → Failure
  | .noFileOrDirectory .. => .fileNotFound path
  | e => .readFailed path (reasonOf e)

/-- The text at a path. -/
def readPath (path : String) : IO (Except Failure String) := do
  try
    let bytes ← IO.FS.readBinFile path
    match String.fromUTF8? bytes with
    | some text => return .ok text
    | none => return .error (.readFailed path FileSystem.ReadFault.notText.message)
  catch e => return .error (readFailure path e)

/-- Replaces the text at a path. -/
def writePath (mode : WriteMode) (path text : String) : IO (Except Failure Unit) := do
  try
    match mode with
    | .inPlace => IO.FS.writeFile path text
    | .atomic =>
      let temporary := FileSystem.siblingPath path (FileSystem.temporaryName [])
      let file ← IO.FS.Handle.mk temporary .writeNew
      try
        file.putStr text
        file.flush
        IO.FS.rename temporary path
      catch e =>
        IO.FS.removeFile temporary
        throw e
    return .ok ()
  catch e => return .error (.writeFailed path (reasonOf e))

/-- The effects of a run on real files. -/
def store (events : IO.Ref (List Event)) : Store IO where
  read := readPath
  write := writePath
  log e := events.modify (· ++ [e])

end SchemaEmbed.Main

/-- Runs the program. -/
def main (args : List String) : IO UInt32 := do
  let events ← IO.mkRef []
  let report ← SchemaEmbed.execute (SchemaEmbed.Main.store events) events.get args
  let outcome := report.outcome
  IO.print outcome.stdout
  IO.eprint outcome.stderr
  return outcome.exit.toUInt32
