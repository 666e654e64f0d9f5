import SchemaEmbed.Value
import SchemaEmbed.Json.Fault

namespace SchemaEmbed.Json

/-!
# JSON numbers

An integer between `- 2 ^ 63` and `2 ^ 64 - 1` is an integer; every other number is a
float, and so is minus zero. The digits of a float, before and after the point, are
gathered in a significand of 64 bits; a digit that no longer fits is dropped, and so are
all after it in that part of the number. The significand is then scaled by a power of
ten in floating-point arithmetic, which may miss the nearest number by one unit in the
last place:

* `gather` — digits that fit the significand;
* `scaleByTen` — the scaling;
* `numeral` — reads a number.
-/

/-- Whether a character is a decimal digit. -/
def isDigit (c : Char) : Bool := '0' ≤ c && c ≤ '9'

/-- The value of a decimal digit. -/
def digitValue (c : Char) : Nat := c.toNat - '0'.toNat

/-- The largest significand. -/
def maxSignificand : Nat := 0xFFFFFFFFFFFFFFFF

/-- The largest exponent that is told apart from larger ones. -/
def maxExponent : Nat := 0x7FFFFFFF

/-- Digits gathered from the head of a text. -/
structure Gathered where
  /-- The significand with the digits appended. -/
  significand : Nat
  /-- How many digits were appended. -/
  count : Nat
  /-- What was not gathered; it starts with a digit only if that digit did not fit. -/
  rest : List Char
  deriving Repr

/-- Appends the digits at the head of a text to a significand as long as it stays within
    `limit`. -/
def gather (limit : Nat) (significand count : Nat) : List Char → Gathered
  | [] => ⟨significand, count, []⟩
  | c :: rest =>
    if isDigit c then
      if significand * 10 + digitValue c ≤ limit then
        gather limit (significand * 10 + digitValue c) (count + 1) rest
      else ⟨significand, count, c :: rest⟩
    else ⟨significand, count, c :: rest⟩

/-- The power of ten of an exponent up to 308. -/
def powerOfTen (e : Nat) : Binary64 := .ofDecimal false 1 1 e

/-- Brings an exponent below `- 308` into range by dividing by `10 ^ 308`; `fuel` bounds
    the divisions, of which the third leaves zero. -/
def liftExponent : (fuel : Nat) → Binary64 → Int → Binary64 × Int
  | 0, x, e => (x, e)
  | fuel + 1, x, e =>
    if e < -308 ∧ ¬ x.isZero then liftExponent fuel (x.div (powerOfTen 308)) (e + 308)
    else (x, e)

/-- `significand · 10 ^ exponent` in floating-point arithmetic, if it is in range. -/
def scaleByTen (significand : Nat) (exponent : Int) : Option Binary64 :=
  let (x, e) := liftExponent 8 (.ofNat significand) exponent
  if x.isZero then some x
  else if 308 < e then none
  else if 0 ≤ e then
    let y := x.mul (powerOfTen e.toNat)
    if y.isFinite then some y else none
  else some (x.div (powerOfTen (-e).toNat))

/-- The float with these parts; `rest` is what follows the number. -/
def floatOf (negative : Bool) (significand : Nat) (exponent : Int) (rest : List Char) :
    Except Fault (Number × List Char) :=
  match scaleByTen significand exponent with
  | some x => .ok (.float { x with negative }, rest)
  | none => .error (.here .numberOutOfRange rest)

/-- Reads the exponent of a float after its letter. -/
def exponentPart (negative : Bool) (significand : Nat) (exponent : Int) (s : List Char) :
    Except Fault (Number × List Char) :=
  let (down, digits) := match s with
    | '+' :: rest => (false, rest)
    | '-' :: rest => (true, rest)
    | rest => (false, rest)
  match digits with
  | [] => .error (.peek .endInValue [])
  | c :: _ =>
    if isDigit c then
      let g := gather maxExponent 0 0 digits
      match g.rest with
      | d :: after =>
        if isDigit d then
          -- The exponent is beyond all bounds.
          if significand ≠ 0 ∧ ¬ down then .error (.here .numberOutOfRange after)
          else .ok (.float (.zero negative), after.dropWhile isDigit)
        else
          floatOf negative significand (if down then exponent - g.significand
            else exponent + g.significand) g.rest
      | [] =>
        floatOf negative significand (if down then exponent - g.significand
          else exponent + g.significand) []
    else .error (.peek .invalidNumber digits)

/-- Reads an optional exponent part, after which the number ends. -/
def optionalExponent (negative : Bool) (significand : Nat) (exponent : Int)
    (s : List Char) : Except Fault (Number × List Char) :=
  match s with
  | 'e' :: rest => exponentPart negative significand exponent rest
  | 'E' :: rest => exponentPart negative significand exponent rest
  | rest => floatOf negative significand exponent rest

/-- Reads the fraction of a float after its point. -/
def fractionPart (negative : Bool) (significand : Nat) (exponent : Int) (s : List Char) :
    Except Fault (Number × List Char) :=
  let g := gather maxSignificand significand 0 s
  match g.rest with
  | [] =>
    if g.count = 0 then .error (.peek .endInValue [])
    else optionalExponent negative g.significand (exponent - g.count) []
  | c :: rest =>
    if isDigit c then
      optionalExponent negative g.significand (exponent - g.count) (rest.dropWhile isDigit)
    else if g.count = 0 then .error (.peek .invalidNumber (c :: rest))
    else optionalExponent negative g.significand (exponent - g.count) (c :: rest)

/-- Reads what follows the whole part of a number that fits its significand. -/
def afterWhole (negative : Bool) (significand : Nat) (s : List Char) :
    Except Fault (Number × List Char) :=
  match s with
  | '.' :: rest => fractionPart negative significand 0 rest
  | 'e' :: rest => exponentPart negative significand 0 rest
  | 'E' :: rest => exponentPart negative significand 0 rest
  | rest =>
    if ¬ negative then .ok (.int significand, rest)
    else if 1 ≤ significand ∧ Number.minInt ≤ -(significand : Int) then
      .ok (.int (-significand), rest)
    else .ok (.float { Binary64.ofNat significand with negative := true }, rest)

/-- Reads what follows the digits of a whole part that does not fit its significand;
    `dropped` digits were left out. -/
def afterLongWhole (negative : Bool) (significand dropped : Nat) (s : List Char) :
    Except Fault (Number × List Char) :=
  match s with
  | '.' :: rest => fractionPart negative significand dropped rest
  | rest => optionalExponent negative significand dropped rest

/-- Reads a number whose sign has been read. -/
def numeral (negative : Bool) (s : List Char) : Except Fault (Number × List Char) :=
  match s with
  | [] => .error (.peek .endInValue [])
  | '0' :: c :: rest =>
    if isDigit c then .error (.peek .invalidNumber (c :: rest))
    else afterWhole negative 0 (c :: rest)
  | '0' :: [] => afterWhole negative 0 []
  | c :: rest =>
    if isDigit c then
      let g := gather maxSignificand 0 0 (c :: rest)
      let excess := g.rest.takeWhile isDigit
      if excess.isEmpty then afterWhole negative g.significand g.rest
      else afterLongWhole negative g.significand excess.length (g.rest.dropWhile isDigit)
    else .error (.peek .invalidNumber (c :: rest))

end SchemaEmbed.Json
