import SchemaEmbed.Toml.Char

namespace SchemaEmbed.Toml

/-!
# Dates and times

* `DateTime` — a date, a time, or both; both together may have an offset;
* `DateTime.read?` — reads one; the seconds may be left out, a fraction counts to its
  ninth digit;
* `DateTime.render` — the form with a `T` and with seconds.
-/

/-- A day of the calendar. -/
structure Date where
  year : Nat
  month : Nat
  day : Nat
  deriving DecidableEq, Repr

/-- A time of day. -/
structure Time where
  hour : Nat
  minute : Nat
  second : Nat
  nanosecond : Nat
  deriving DecidableEq, Repr

/-- How far local time is ahead of universal time. -/
inductive Offset where
  | universal
  | minutes (n : Int)
  deriving DecidableEq, Repr

/-- A date, a time, or both. -/
structure DateTime where
  date : Option Date
  time : Option Time
  offset : Option Offset
  deriving DecidableEq, Repr

/-! ### Reading -/

/-- Whether a year has a leap day. -/
def isLeapYear (year : Nat) : Bool :=
  year % 4 == 0 && (year % 100 != 0 || year % 400 == 0)

/-- The number of days of a month. -/
def daysInMonth (year month : Nat) : Nat :=
  if month = 2 then (if isLeapYear year then 29 else 28)
  else if month = 4 ∨ month = 6 ∨ month = 9 ∨ month = 11 then 30
  else 31

/-- Reads digits at the head of a text, exactly `width` of them. -/
def digits? (width : Nat) (s : List Char) : Option (Nat × List Char) :=
  let ds := s.takeWhile isDigit
  if ds.length = width then (numberInBase 10 ds).map fun n => (n, s.drop width) else none

/-- Reads a character. -/
def mark? (c : Char) : List Char → Option (List Char)
  | d :: rest => if d = c then some rest else none
  | [] => none

/-- Reads a date. -/
def Date.read? (s : List Char) : Option (Date × List Char) := do
  let (year, s) ← digits? 4 s
  let s ← mark? '-' s
  let (month, s) ← digits? 2 s
  let s ← mark? '-' s
  let (day, s) ← digits? 2 s
  if 1 ≤ month ∧ month ≤ 12 ∧ 1 ≤ day ∧ day ≤ daysInMonth year month then
    return (⟨year, month, day⟩, s)
  else none

/-- The nanoseconds of the digits of a fraction, of which nine count. -/
def nanoseconds (ds : List Char) : Nat :=
  (numberInBase 10 ((ds ++ List.replicate 9 '0').take 9)).getD 0

/-- Reads a fraction of a second, if there is one. -/
def fraction? : List Char → Option (Nat × List Char)
  | '.' :: rest =>
    let ds := rest.takeWhile isDigit
    if ds.isEmpty then none else some (nanoseconds ds, rest.dropWhile isDigit)
  | s => some (0, s)

/-- Reads seconds with a fraction, if there are any. -/
def seconds? : List Char → Option (Nat × Nat × List Char)
  | ':' :: rest => do
    let (second, s) ← digits? 2 rest
    let (nanosecond, s) ← fraction? s
    return (second, nanosecond, s)
  | s => some (0, 0, s)

/-- Reads a time of day; a minute may have a leap second. -/
def Time.read? (s : List Char) : Option (Time × List Char) := do
  let (hour, s) ← digits? 2 s
  let s ← mark? ':' s
  let (minute, s) ← digits? 2 s
  let (second, nanosecond, s) ← seconds? s
  if hour ≤ 23 ∧ minute ≤ 59 ∧ second ≤ 60 then return (⟨hour, minute, second, nanosecond⟩, s)
  else none

/-- Reads an offset after its sign. -/
def Offset.ofSigned? (ahead : Bool) (s : List Char) : Option (Offset × List Char) := do
  let (hour, s) ← digits? 2 s
  let s ← mark? ':' s
  let (minute, s) ← digits? 2 s
  if hour ≤ 23 ∧ minute ≤ 59 then
    let total : Int := hour * 60 + minute
    return (.minutes (if ahead then total else -total), s)
  else none

/-- Reads an offset, if there is one. -/
def Offset.read? : List Char → Option (Option Offset × List Char)
  | [] => some (none, [])
  | c :: rest =>
    if c = 'Z' ∨ c = 'z' then some (some .universal, rest)
    else if c = '+' then (Offset.ofSigned? true rest).map fun (o, s) => (some o, s)
    else if c = '-' then (Offset.ofSigned? false rest).map fun (o, s) => (some o, s)
    else none

/-- Reads what follows a date. -/
def DateTime.afterDate? (date : Date) : List Char → Option DateTime
  | [] => some ⟨some date, none, none⟩
  | c :: rest =>
    if c = 'T' ∨ c = 't' ∨ c = ' ' then do
      let (time, s) ← Time.read? rest
      let (offset, s) ← Offset.read? s
      if s.isEmpty then return ⟨some date, some time, offset⟩ else none
    else none

/-- Reads a date, a time, or both. -/
def DateTime.read? (s : List Char) : Option DateTime :=
  match Date.read? s with
  | some (date, rest) => DateTime.afterDate? date rest
  | none =>
    match Time.read? s with
    | some (time, []) => some ⟨none, some time, none⟩
    | _ => none

/-! ### Writing -/

/-- A number with zeros before it to a width. -/
def padded (width n : Nat) : String :=
  let ds := (toString n).toList
  String.ofList (List.replicate (width - ds.length) '0' ++ ds)

/-- The form of a date. -/
def Date.render (d : Date) : String :=
  padded 4 d.year ++ "-" ++ padded 2 d.month ++ "-" ++ padded 2 d.day

/-- The form of a fraction of a second, without zeros at its end. -/
def renderFraction (nanosecond : Nat) : String :=
  if nanosecond = 0 then ""
  else
    let ds := (padded 9 nanosecond).toList
    "." ++ String.ofList (ds.reverse.dropWhile (· == '0')).reverse

/-- The form of a time of day. -/
def Time.render (t : Time) : String :=
  padded 2 t.hour ++ ":" ++ padded 2 t.minute ++ ":" ++ padded 2 t.second
    ++ renderFraction t.nanosecond

/-- The form of an offset. -/
def Offset.render : Offset → String
  | .universal => "Z"
  | .minutes n =>
    (if n < 0 then "-" else "+") ++ padded 2 (n.natAbs / 60) ++ ":" ++ padded 2 (n.natAbs % 60)

/-- The form of a date, a time, or both. -/
def DateTime.render (d : DateTime) : String :=
  let date := (d.date.map Date.render).getD ""
  let time := (d.time.map Time.render).getD ""
  let between := if d.date.isSome && d.time.isSome then "T" else ""
  date ++ between ++ time ++ (d.offset.map Offset.render).getD ""

end SchemaEmbed.Toml
