import SchemaEmbed.Yaml.Char
import SchemaEmbed.Yaml.Tree

namespace SchemaEmbed.Yaml

/-!
# Plain scalars

What a scalar without quotes stands for:

* `isNullWord` / `readBool` — the words for null and the truth values;
* `readInt` — integers, decimal or with the mark `0x`, `0o` or `0b`, of at most 128 bits;
* `readFloat` — decimal fractions, infinity and not-a-number;
* `resolvePlain` — the first of these that applies, else a string.

Digits after a leading zero are a string, not a number.
-/

/-- The words for null. -/
def isNullWord (s : List Char) : Bool :=
  s == "null".toList || s == "Null".toList || s == "NULL".toList || s == ['~']

/-- The truth value that a word stands for. -/
def readBool (s : List Char) : Option Bool :=
  if s == "true".toList || s == "True".toList || s == "TRUE".toList then some true
  else if s == "false".toList || s == "False".toList || s == "FALSE".toList then some false
  else none

/-- Whether a text begins with a sign. -/
def isSigned : List Char → Bool
  | '+' :: _ | '-' :: _ => true
  | _ => false

/-- A text without a plus sign at its head. -/
def dropPlus : List Char → List Char
  | '+' :: rest => rest
  | s => s

/-- Whether a text is digits with a zero before them. -/
def isZeroPadded (s : List Char) : Bool :=
  let digits := match s with
    | '+' :: rest | '-' :: rest => rest
    | _ => s
  match digits with
  | '0' :: d :: rest => (d :: rest).all isDigit
  | _ => false

/-! ### Integers -/

/-- The number that digits of a base write; there must be a digit. -/
def numberInBase (base : Nat) (s : List Char) : Option Nat :=
  if s.isEmpty then none
  else s.foldlM (fun n c => (hexValue? c).bind fun d =>
    if d < base then some (n * base + d) else none) 0

/-- The digits after the mark of a base. -/
def dropBaseMark : List Char → Option (Nat × List Char)
  | '0' :: 'x' :: rest => some (16, rest)
  | '0' :: 'o' :: rest => some (8, rest)
  | '0' :: 'b' :: rest => some (2, rest)
  | _ => none

/-- The absolute value of an integer whose sign has been read. -/
def unsigned (whole digits : List Char) : Option Nat :=
  match dropBaseMark digits with
  | some (base, digits) => numberInBase base digits
  | none => if isZeroPadded whole then none else numberInBase 10 digits

/-- The integer that a text writes, whatever its size. -/
def integer (s : List Char) : Option Int :=
  match s with
  | '-' :: rest => (unsigned s rest).map fun n => -(n : Int)
  | _ => (unsigned s (dropPlus s)).map Int.ofNat

/-- What a text is as an integer. -/
inductive IntReading where
  /-- The text writes no integer. -/
  | none
  /-- An integer that a document can hold. -/
  | value (i : Int)
  /-- An integer of more than 64 and at most 128 bits. -/
  | tooLarge

/-- The least integer of 128 bits. -/
def minWideInt : Int := -0x80000000000000000000000000000000

/-- The greatest integer of 128 bits without sign. -/
def maxWideInt : Int := 0xFFFFFFFFFFFFFFFFFFFFFFFFFFFFFFFF

/-- Reads an integer. What needs more than 128 bits is not taken for one. -/
def readInt (s : List Char) : IntReading :=
  match integer s with
  | .none => .none
  | some i =>
    if Number.minInt ≤ i ∧ i ≤ Number.maxInt then .value i
    else if minWideInt ≤ i ∧ i ≤ maxWideInt then .tooLarge
    else .none

/-! ### Floats -/

/-- Splits a text at the first `e` of either case; the exponent keeps its sign. -/
def splitExponent (s : List Char) : List Char × Option (List Char) :=
  let isMark (c : Char) := c == 'e' || c == 'E'
  (s.takeWhile (! isMark ·), (s.dropWhile (! isMark ·)).tail?)

/-- The number of an exponent with an optional sign. -/
def exponentValue (s : List Char) : Option Int :=
  match s with
  | '-' :: rest => (numberInBase 10 rest).map fun n => -(n : Int)
  | _ => (numberInBase 10 (dropPlus s)).map Int.ofNat

/-- The number nearest to a decimal without sign: digits around an optional point, at
    least one of them, and an optional exponent. -/
def decimal (negative : Bool) (s : List Char) : Option Binary64 := do
  let (mantissa, exponent) := splitExponent s
  let whole := mantissa.takeWhile (· != '.')
  let fraction := (mantissa.dropWhile (· != '.')).drop 1
  let e ← match exponent with
    | some digits => exponentValue digits
    | none => some 0
  let digits := whole ++ fraction
  let n ← numberInBase 10 digits
  let significant := digits.dropWhile (· == '0')
  let x := Binary64.ofDecimal negative n significant.length (e - fraction.length)
  if x.isFinite then some x else none

/-- The float that a text writes. A finite float is never written by a number out of
    range. -/
def readFloat (s : List Char) : Option Binary64 :=
  if s.head? = some '+' ∧ isSigned (dropPlus s) then none
  else
    let t := dropPlus s
    let isInfinity (w : List Char) :=
      w == ".inf".toList || w == ".Inf".toList || w == ".INF".toList
    if isInfinity t then some (.infinity false)
    else if s == ".nan".toList || s == ".NaN".toList || s == ".NAN".toList then some .nan
    else
      match t with
      | '-' :: rest => if isInfinity rest then some (.infinity true) else decimal true rest
      | _ => decimal false t

/-! ### Resolution -/

/-- What a plain scalar stands for; absent for an integer that is too large. -/
def resolvePlain (s : List Char) : Option Tree :=
  if s.isEmpty || isNullWord s then some .null
  else
    match readBool s with
    | some b => some (.bool b)
    | none =>
      match readInt s with
      | .value i => some (.number (.int i))
      | .tooLarge => none
      | .none =>
        if isZeroPadded s then some (.string (String.ofList s))
        else
          match readFloat s with
          | some x => some (.number (.float x))
          | none => some (.string (String.ofList s))

end SchemaEmbed.Yaml
