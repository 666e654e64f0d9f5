import SchemaEmbed.Document
import SchemaEmbed.Log
import SchemaEmbed.Options

namespace SchemaEmbed

/-!
# Runs

* `Store` — the effects of a run: texts are read and written by path, and events are
  logged;
* `load` / `store` — a document from its path and back to it;
* `run` — embeds one schema into bundles in the order in which they are named. Each is
  loaded, changed and stored before the next one is looked at, and the first failure ends
  the run. A run that only checks stores nothing and fails if a bundle would change.
-/

/-- The effects of a run. -/
structure Store (m : Type → Type) where
  /-- The text at a path. -/
  read : String → m (Except Failure String)
  /-- Replaces the text at a path. -/
  write : WriteMode → String → String → m (Except Failure Unit)
  log : Event → m Unit

/-- What became of the bundles of a run. -/
structure Summary where
  updated : List String
  unchanged : List String
  deriving DecidableEq, Repr

namespace Store

variable {m : Type → Type} [Monad m]

/-- Logs an event. -/
def tell (s : Store m) (e : Event) : ExceptT Failure m Unit := ExceptT.lift (s.log e)

/-- The document at a path. -/
def load (s : Store m) (r : Registry) (path : String) : ExceptT Failure m Document := do
  let text ← ExceptT.mk (s.read path)
  let d ← ExceptT.mk (pure (Document.ofText r path text))
  s.tell (.loaded path d.format.name)
  return d

/-- Writes a document back to its path. Nothing is written unless it has a text. -/
def store (s : Store m) (mode : WriteMode) (d : Document) : ExceptT Failure m Unit := do
  let text ← ExceptT.mk (pure d.render)
  ExceptT.mk (s.write mode d.path text)

/-- Embeds a schema into the bundle at a path, and tells whether that changed it. -/
def embedAt (s : Store m) (r : Registry) (options : Options) (schema : Value)
    (path : String) : ExceptT Failure m Bool := do
  let bundle ← s.load r path
  let (changed, bundle) ← ExceptT.mk (pure (bundle.embed options.key schema))
  if ! options.check then s.store options.mode bundle
  if changed then s.tell (.embedded path options.key)
  else s.tell (.upToDate path)
  return changed

/-- Embeds a schema into bundles one after the other. -/
def embedAll (s : Store m) (r : Registry) (options : Options) (schema : Value) :
    List String → ExceptT Failure m Summary
  | [] => return ⟨[], []⟩
  | path :: rest => do
    let changed ← s.embedAt r options schema path
    let summary ← embedAll s r options schema rest
    if changed then return { summary with updated := path :: summary.updated }
    else return { summary with unchanged := path :: summary.unchanged }

/-- What a run that is over amounts to. -/
def conclude (options : Options) (summary : Summary) : Except Failure Summary :=
  if options.check && ! summary.updated.isEmpty then .error (.outOfDate summary.updated)
  else .ok summary

/-- Embeds the schema at a path into bundles. -/
def run (s : Store m) (r : Registry) (options : Options) (schema : String)
    (bundles : List String) : ExceptT Failure m Summary := do
  let schema ← s.load r schema
  let summary ← s.embedAll r options schema.value bundles
  ExceptT.mk (pure (conclude options summary))

end Store

end SchemaEmbed
