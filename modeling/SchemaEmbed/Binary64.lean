namespace SchemaEmbed

/-!
# Binary floating-point numbers of 64 bits

The numbers a document can hold besides integers, kept as a sign and a magnitude so
that every operation on them is exact arithmetic on naturals:

* `twoTo` / `tenTo` — powers of two and ten as naturals;
* `Binary64` — sign and magnitude; a larger magnitude is a larger absolute value, the
  magnitudes from `infinityMagnitude` on are infinity and the values that are no number;
* `mantissa` / `scale` — a finite number is `± mantissa · 2 ^ scale`;
* `sameNumber` — numeric equality: the two zeros agree, a NaN agrees with nothing;
* `ofRatio` — the number nearest to a rational, a tie going to the even mantissa;
* `ofDecimal` — the number nearest to `digits · 10 ^ exponent`;
* `mul` / `div` — correctly rounded product and quotient of finite numbers.
-/

/-- A power of two. -/
abbrev twoTo (n : Nat) : Nat := Nat.pow 2 n

/-- A power of ten. -/
abbrev tenTo (n : Nat) : Nat := Nat.pow 10 n

/-- The value of the leading bit of a significand of 53 bits, which is not stored. -/
def leadingBit : Nat := 0x10000000000000

/-- A 64-bit floating-point number: the sign bit and the other 63 bits as a number. -/
structure Binary64 where
  /-- Whether the sign bit is set. -/
  negative : Bool
  /-- Biased exponent and fraction, read as one number. -/
  magnitude : Fin 0x8000000000000000
  deriving DecidableEq, Inhabited, Repr

namespace Binary64

/-- The magnitude of infinity, the first one that is not finite. -/
def infinityMagnitude : Nat := 2047 * leadingBit

/-- Whether the number is neither infinite nor a NaN. -/
def isFinite (x : Binary64) : Bool := x.magnitude.val < infinityMagnitude

/-- Whether the value is not a number. -/
def isNaN (x : Binary64) : Bool := infinityMagnitude < x.magnitude.val

/-- Whether the number is one of the two zeros. -/
def isZero (x : Binary64) : Bool := x.magnitude.val == 0

/-- The integer significand of a finite number. -/
def mantissa (x : Binary64) : Nat :=
  if x.magnitude.val < leadingBit then x.magnitude.val
  else leadingBit + x.magnitude.val % leadingBit

/-- The power of two that the significand of a finite number is scaled by. -/
def scale (x : Binary64) : Int :=
  if x.magnitude.val < leadingBit then -1074 else (x.magnitude.val / leadingBit : Nat) - 1075

/-- Numeric equality: zeros of either sign agree, a NaN agrees with nothing. -/
def sameNumber (x y : Binary64) : Bool :=
  !x.isNaN && !y.isNaN && (decide (x = y) || (x.isZero && y.isZero))

/-- Zero of either sign. -/
def zero (negative : Bool) : Binary64 := ⟨negative, ⟨0, by decide⟩⟩

/-- Infinity of either sign. -/
def infinity (negative : Bool) : Binary64 := ⟨negative, ⟨infinityMagnitude, by decide⟩⟩

/-- The quiet value that is not a number. -/
def nan : Binary64 := ⟨false, ⟨infinityMagnitude + leadingBit / 2, by decide⟩⟩

/-! ### Rounding -/

/-- The number with significand `m` at scale `q`, where `q` counts from the smallest
    scale: `m` may reach `2 ^ 53`, and what lies past the largest number is infinity. -/
def pack (negative : Bool) (m q : Nat) : Binary64 :=
  let magnitude := q * leadingBit + m
  if h : magnitude < infinityMagnitude then
    ⟨negative, ⟨magnitude, Nat.lt_trans h (by decide)⟩⟩
  else infinity negative

/-- `n / d` to the nearest natural, a tie going to the even one. -/
def roundQuotient (n d : Nat) : Nat :=
  let floor := n / d
  let twice := 2 * (n % d)
  if twice > d || (twice == d && floor % 2 == 1) then floor + 1 else floor

/-- `n / d` divided by `2 ^ q`, as a fraction. -/
def scaleDown (n d : Nat) (q : Int) : Nat × Nat :=
  if 0 ≤ q then (n, d * twoTo q.toNat) else (n * twoTo (-q).toNat, d)

/-- The scale at which `n / d` has a significand of 53 bits, or the smallest scale. -/
def ratioScale (n d : Nat) : Int :=
  let q : Int := max ((n.log2 : Int) - d.log2 - 52) (-1074)
  let (a, b) := scaleDown n d q
  if a / b < leadingBit then max (q - 1) (-1074) else q

/-- The number nearest to `± n / d`; a tie goes to the even significand. -/
def ofRatio (negative : Bool) (n d : Nat) : Binary64 :=
  if n = 0 then zero negative
  else
    let q := ratioScale n d
    let (a, b) := scaleDown n d q
    pack negative (roundQuotient a b) (q + 1074).toNat

/-- The number nearest to a natural. -/
def ofNat (n : Nat) : Binary64 := ofRatio false n 1

/-- The number nearest to `± digits · 10 ^ exponent`, where `digits` has `width` decimal
    digits. What is certainly past the largest number or below half of the smallest one
    is settled from the width alone. -/
def ofDecimal (negative : Bool) (digits width : Nat) (exponent : Int) : Binary64 :=
  if digits = 0 then zero negative
  else if (width : Int) + exponent < -330 then zero negative
  else if (exponent : Int) > 310 then infinity negative
  else if 0 ≤ exponent then ofRatio negative (digits * tenTo exponent.toNat) 1
  else ofRatio negative digits (tenTo (-exponent).toNat)

/-! ### Arithmetic on finite numbers -/

/-- `n · 2 ^ e` as a fraction. -/
def shifted (n : Nat) (e : Int) : Nat × Nat :=
  if 0 ≤ e then (n * twoTo e.toNat, 1) else (n, twoTo (-e).toNat)

/-- The correctly rounded product of two finite numbers. -/
def mul (x y : Binary64) : Binary64 :=
  let (n, d) := shifted (x.mantissa * y.mantissa) (x.scale + y.scale)
  ofRatio (x.negative != y.negative) n d

/-- The correctly rounded quotient of two finite numbers, the divisor not zero. -/
def div (x y : Binary64) : Binary64 :=
  let (n, d) := shifted x.mantissa (x.scale - y.scale)
  ofRatio (x.negative != y.negative) n (d * y.mantissa)

end Binary64

end SchemaEmbed
