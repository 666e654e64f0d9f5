namespace SchemaEmbed

/-!
# What can go wrong

* `Failure` — why a document could not be read, written or changed;
* `Failure.message` — its wording, and `code` and `help`, which go with it in a report;
* `isFileFailure` / `isContentFailure` — whether the file or what it says is at fault.
-/

/-- Why something could not be done. -/
inductive Failure where
  | fileNotFound (path : String)
  | readFailed (path reason : String)
  | writeFailed (path reason : String)
  | parseFailed (path format reason : String)
  | serializeFailed (path format reason : String)
  | unknownFormat (path : String)
  | duplicateFormat (name : String)
  | notMapping (path found : String)
  | outOfDate (paths : List String)
  deriving DecidableEq, Inhabited, Repr

namespace Failure

/-- The wording of a failure. -/
def message : Failure → String
  | fileNotFound path => s!"File not found: {path}"
  | readFailed path reason => s!"Failed to read file {path}: {reason}"
  | writeFailed path reason => s!"Failed to write file {path}: {reason}"
  | parseFailed path format reason => s!"Failed to parse {format} document {path}: {reason}"
  | serializeFailed path format reason =>
    s!"Failed to serialize {format} document {path}: {reason}"
  | unknownFormat path => s!"Unable to detect the format of {path}"
  | duplicateFormat name => s!"A format named '{name}' is already registered"
  | notMapping path found =>
    s!"Bundle {path} must be a mapping at the top level, found {found}"
  | outOfDate paths => toString paths.length ++ " bundle(s) out of date: " ++ ", ".intercalate paths

/-- The code of a failure in a report. -/
def code : Failure → String
  | fileNotFound _ => "bundler::fs::not_found"
  | readFailed .. => "bundler::fs::read_failed"
  | writeFailed .. => "bundler::fs::write_failed"
  | parseFailed .. => "bundler::format::parse_failed"
  | serializeFailed .. => "bundler::format::serialize_failed"
  | unknownFormat _ => "bundler::format::unknown"
  | duplicateFormat _ => "bundler::format::duplicate"
  | notMapping .. => "bundler::bundle::not_mapping"
  | outOfDate _ => "bundler::bundle::out_of_date"

/-- What a report advises, if it does. -/
def help : Failure → Option String
  | fileNotFound _ => some "Check that the path is correct and the file exists"
  | serializeFailed .. =>
    some "Not every value can be represented in every format (e.g. TOML has no null)"
  | unknownFormat _ =>
    some "Supported formats: json (.json), yaml (.yaml, .yml), toml (.toml)"
  | notMapping .. =>
    some "A bundle needs a top-level mapping so the schema can be set under its key"
  | outOfDate _ => some "Run again without --check to rewrite the bundles"
  | _ => none

/-- Whether a file was missing, unreadable or unwritable. -/
def isFileFailure : Failure → Bool
  | fileNotFound _ | readFailed .. | writeFailed .. => true
  | _ => false

/-- Whether what a document says was malformed or unusable. -/
def isContentFailure : Failure → Bool
  | parseFailed .. | unknownFormat _ | notMapping .. => true
  | _ => false

end Failure

end SchemaEmbed
