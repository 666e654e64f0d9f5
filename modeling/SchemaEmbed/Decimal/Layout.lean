import SchemaEmbed.Decimal.Shortest

namespace SchemaEmbed

/-!
# Writing floating-point numbers

Every format writes the shortest decimal of a number and differs only in its layout:

* `FloatLayout` — which numbers are written positionally, and whether a positive
  exponent has a sign;
* `FloatLayout.render` — a positional number always has a point, an exponent form never
  needs one.
-/

/-- How the shortest decimal of a number is laid out. The place of the decimal point is
    the count of digits before it: `12.5` has place two, `0.01` has place minus one. -/
structure FloatLayout where
  /-- Whether a number whose decimal point has this place is written positionally. -/
  positional : Int → Bool
  /-- Whether a positive exponent is written with a plus sign. -/
  plus : Bool

namespace FloatLayout

/-- Sixteen places to the left and four zeros to the right at most; `1e+16`. -/
def json : FloatLayout := ⟨fun place => -5 < place && place ≤ 16, true⟩

/-- Sixteen places to the left and four zeros to the right at most; `1e16`. -/
def yaml : FloatLayout := ⟨fun place => -5 < place && place ≤ 16, false⟩

/-- Never an exponent. -/
def toml : FloatLayout := ⟨fun _ => true, false⟩

/-- The decimal digits of a natural. -/
def digits (n : Nat) : List Char := Nat.toDigits 10 n

/-- Digits with the decimal point at `place`, with a zero on a side that would be
    empty. -/
def point (ds : List Char) (place : Int) : List Char :=
  if place ≤ 0 then '0' :: '.' :: List.replicate (-place).toNat '0' ++ ds
  else if (ds.length : Int) ≤ place then
    ds ++ List.replicate (place.toNat - ds.length) '0' ++ ['.', '0']
  else ds.take place.toNat ++ '.' :: ds.drop place.toNat

/-- Digits with the point after the first one and the power of ten that makes up for
    it. -/
def scientific (plus : Bool) (ds : List Char) (place : Int) : List Char :=
  let e := place - 1
  let mark := if e < 0 then ['e', '-'] else if plus then ['e', '+'] else ['e']
  let body := match ds with
    | d :: next :: rest => d :: '.' :: next :: rest
    | short => short
  body ++ mark ++ digits e.natAbs

/-- The text of a finite number. -/
def renderChars (l : FloatLayout) (x : Binary64) : List Char :=
  let sign := if x.negative then ['-'] else []
  if x.isZero then sign ++ ['0', '.', '0']
  else
    let d := Decimal.shortest x
    let ds := digits d.significand
    let place := (ds.length : Int) + d.exponent
    sign ++ (if l.positional place then point ds place else scientific l.plus ds place)

/-- The text of a finite number. -/
def render (l : FloatLayout) (x : Binary64) : String := String.ofList (l.renderChars x)

end FloatLayout

end SchemaEmbed
