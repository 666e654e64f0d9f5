namespace SchemaEmbed

/-!
# The log

* `Level` — how much is logged; the flags of the command line choose it;
* `Event` — what a run tells about itself;
* `Event.line` — the line that a log shows for it, if the level admits it.
-/

/-- How much is logged, from least to most. -/
inductive Level where
  | error
  | warn
  | info
  | debug
  | trace
  deriving DecidableEq, Repr

namespace Level

/-- The name of a level. -/
def name : Level → String
  | error => "error"
  | warn => "warn"
  | info => "info"
  | debug => "debug"
  | trace => "trace"

/-- The place of a level among the others. -/
def rank : Level → Nat
  | error => 0
  | warn => 1
  | info => 2
  | debug => 3
  | trace => 4

/-- Whether a log of this level shows what is logged at another. -/
def shows (l other : Level) : Bool := other.rank ≤ l.rank

/-- The level that the flags choose: being quiet wins, and every count of verbosity adds
    one level. -/
def ofFlags (verbose : Nat) (quiet : Bool) : Level :=
  if quiet then error
  else
    match verbose with
    | 0 => warn
    | 1 => info
    | 2 => debug
    | _ => trace

end Level

/-- What a run tells about itself. -/
inductive Event where
  | loaded (path format : String)
  | embedded (path key : String)
  | upToDate (path : String)
  | done (updated unchanged : Nat)
  deriving DecidableEq, Repr

namespace Event

/-- The level at which an event is logged. -/
def level : Event → Level
  | loaded .. => .debug
  | embedded .. => .info
  | upToDate _ => .debug
  | done .. => .info

/-- The text of an event. -/
def text : Event → String
  | loaded path format => s!"loaded document path={path} format=\"{format}\""
  | embedded path key => s!"schema embedded path={path} key={key}"
  | upToDate path => s!"schema already up to date path={path}"
  | done updated unchanged => s!"done updated={updated} unchanged={unchanged}"

/-- The mark of a level at the head of a line, five characters wide. -/
def mark : Level → String
  | .error => "ERROR"
  | .warn => " WARN"
  | .info => " INFO"
  | .debug => "DEBUG"
  | .trace => "TRACE"

/-- The line of an event in a log of a level, if it shows it. -/
def line (e : Event) (l : Level) : Option String :=
  if l.shows e.level then some (mark e.level ++ " " ++ e.text) else none

end Event

end SchemaEmbed
