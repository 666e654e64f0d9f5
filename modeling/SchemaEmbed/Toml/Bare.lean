import SchemaEmbed.Toml.Item

namespace SchemaEmbed.Toml

/-!
# Values without quotes

* `bareWord` — the characters of a value without quotes; the time after a date and a
  space belongs to it;
* `readInteger?` — decimal without leading zeros, or with the mark `0x`, `0o` or `0b`;
  single underscores may stand between digits; 64 bits with sign;
* `readFloat?` — digits before and after a point, an exponent, or both; infinity and
  not-a-number with an optional sign; a number out of range is none;
* `readBare` — a truth value or one of these or a date-time.
-/

/-- Whether a character ends a value without quotes. -/
def endsBare (c : Char) : Bool := " \t\r\n,[]\x7b\x7d#=\"'".toList.contains c

/-- The characters of the value at the head of a text. -/
def bareWord (s : List Char) : List Char :=
  let word := s.takeWhile (! endsBare ·)
  match Date.read? word, s.drop word.length with
  | some (_, []), ' ' :: d :: rest =>
    if isDigit d then word ++ ' ' :: (d :: rest).takeWhile (! endsBare ·) else word
  | _, _ => word

/-- The digits of a text in which single underscores stand between digits. -/
def dropUnderscores? (isDigit : Char → Bool) : List Char → Option (List Char)
  | [] => none
  | c :: rest =>
    if ! isDigit c then none
    else
      match rest with
      | [] => some [c]
      | '_' :: d :: rest =>
        if isDigit d then (dropUnderscores? isDigit (d :: rest)).map (c :: ·) else none
      | d :: rest => (dropUnderscores? isDigit (d :: rest)).map (c :: ·)

/-- Whether digits have a zero before them that says nothing. -/
def isZeroPadded : List Char → Bool
  | '0' :: _ :: _ => true
  | _ => false

/-- The number of decimal digits without leading zeros. -/
def decimalDigits? (s : List Char) : Option (List Char) := do
  let ds ← dropUnderscores? isDigit s
  if isZeroPadded ds then none else some ds

/-- The sign of a text and what follows it. -/
def splitSign : List Char → Bool × List Char
  | '+' :: rest => (false, rest)
  | '-' :: rest => (true, rest)
  | s => (false, s)

/-- The number of digits of another base after its mark. -/
def markedNumber? (base : Nat) (s : List Char) : Option Nat := do
  let ds ← dropUnderscores? (fun c => (hexValue? c).any (· < base)) s
  numberInBase base ds

/-- The integer that a text writes, whatever its size. -/
def integer? (s : List Char) : Option Int :=
  match s with
  | '0' :: 'x' :: rest => (markedNumber? 16 rest).map Int.ofNat
  | '0' :: 'o' :: rest => (markedNumber? 8 rest).map Int.ofNat
  | '0' :: 'b' :: rest => (markedNumber? 2 rest).map Int.ofNat
  | _ => do
    let (negative, s) := splitSign s
    let n ← numberInBase 10 (← decimalDigits? s)
    return if negative then -(n : Int) else n

/-- The greatest integer that is read; the least one is the least of all documents. -/
def maxInteger : Int := 0x7FFFFFFFFFFFFFFF

/-- The integer that a text writes in 64 bits. -/
def readInteger? (s : List Char) : Option Int := do
  let i ← integer? s
  if Number.minInt ≤ i ∧ i ≤ maxInteger then some i else none

/-- The exponent that a text writes. -/
def exponent? (s : List Char) : Option Int := do
  let (negative, s) := splitSign s
  let n ← numberInBase 10 (← dropUnderscores? isDigit s)
  return if negative then -(n : Int) else n

/-- The number of a float without sign; absent if it is out of range. -/
def decimal? (negative : Bool) (s : List Char) : Option Binary64 := do
  let isMark (c : Char) := c == 'e' || c == 'E'
  let mantissa := s.takeWhile (! isMark ·)
  let whole ← decimalDigits? (mantissa.takeWhile (· != '.'))
  let fraction ← match mantissa.dropWhile (· != '.') with
    | [] => some []
    | _ :: rest => dropUnderscores? isDigit rest
  let e ← match s.dropWhile (! isMark ·) with
    | [] => if mantissa.contains '.' then some 0 else none
    | _ :: rest => exponent? rest
  let digits := whole ++ fraction
  let n ← numberInBase 10 digits
  let significant := digits.dropWhile (· == '0')
  let x := Binary64.ofDecimal negative n significant.length (e - fraction.length)
  if x.isFinite then some x else none

/-- The float that a text writes. -/
def readFloat? (s : List Char) : Option Binary64 :=
  let (negative, s) := splitSign s
  if s = ['i', 'n', 'f'] then some (.infinity negative)
  else if s = ['n', 'a', 'n'] then some { Binary64.nan with negative }
  else decimal? negative s

/-- The value that a text without quotes writes. -/
def readBare (s : List Char) : Except Fault Item :=
  if s = ['t', 'r', 'u', 'e'] then .ok (.boolean true)
  else if s = ['f', 'a', 'l', 's', 'e'] then .ok (.boolean false)
  else
    match readInteger? s, readFloat? s, DateTime.read? s with
    | some i, _, _ => .ok (.integer i)
    | none, some x, _ => .ok (.float x)
    | none, none, some d => .ok (.dateTime d)
    | none, none, none => .error .invalidValue

end SchemaEmbed.Toml
