import SchemaEmbed.Binary64

namespace SchemaEmbed

/-!
# The shortest decimal of a binary number

A floating-point number is written with the fewest decimal digits that read back to it,
and among those with the digits nearest to it:

* `Decimal` — `significand · 10 ^ exponent`, the significand without trailing zeros;
* `Grid` — the interval of reals that round to a number, in units of a quarter of the
  last binary place, so that its ends are naturals;
* `Decimal.shortest` — on the grids of one digit, two digits, and so on, only the two
  neighbours of the number need be tried: if any point of a grid lies in the interval,
  one of them does.
-/

/-- A decimal number `significand · 10 ^ exponent`. -/
structure Decimal where
  significand : Nat
  exponent : Int
  deriving DecidableEq, Repr

namespace Decimal

/-- The number without trailing zeros in the significand; `fuel` bounds how many are
    taken off. -/
def trim : (fuel : Nat) → Decimal → Decimal
  | 0, d => d
  | fuel + 1, d =>
    if d.significand ≠ 0 ∧ d.significand % 10 = 0 then
      trim fuel ⟨d.significand / 10, d.exponent + 1⟩
    else d

end Decimal

/-- The reals that round to a positive number `value · unitNum / unitDen`: those from
    `low` to `high` units, the ends included when `closed`. -/
structure Grid where
  value : Nat
  low : Nat
  high : Nat
  closed : Bool
  unitNum : Nat
  unitDen : Nat

namespace Grid

/-- The interval of a finite number other than zero. Below a power of two the spacing
    halves, so its lower end is half as far away. -/
def ofBinary64 (x : Binary64) : Grid :=
  let m := x.mantissa
  let q := x.scale - 2
  let (n, d) := Binary64.shifted 1 q
  { value := 4 * m
    low := if m = leadingBit ∧ 2 * leadingBit ≤ x.magnitude.val then 4 * m - 1 else 4 * m - 2
    high := 4 * m + 2
    closed := m % 2 == 0
    unitNum := n
    unitDen := d }

/-- Whether `c · 10 ^ e` lies in the interval. -/
def contains (g : Grid) (c : Nat) (e : Int) : Bool :=
  let (n, d) := if 0 ≤ e then (c * tenTo e.toNat, 1) else (c, tenTo (-e).toNat)
  let point := n * g.unitDen
  let low := g.low * g.unitNum * d
  let high := g.high * g.unitNum * d
  if g.closed then low ≤ point && point ≤ high else low < point && point < high

/-- The number divided by `10 ^ e`, rounded down, and whether the rest is more than one
    half. -/
def quotient (g : Grid) (e : Int) : Nat × Bool :=
  let (n, d) :=
    if 0 ≤ e then (g.value * g.unitNum, g.unitDen * tenTo e.toNat)
    else (g.value * g.unitNum * tenTo (-e).toNat, g.unitDen)
  (n / d, 2 * (n % d) > d)

/-- Corrects a guess of the exponent of the leading decimal digit upwards. -/
def raise (g : Grid) : (fuel : Nat) → Int → Int
  | 0, e => e
  | fuel + 1, e => if 10 ≤ (g.quotient e).1 then raise g fuel (e + 1) else e

/-- Corrects a guess of the exponent of the leading decimal digit downwards. -/
def lower (g : Grid) : (fuel : Nat) → Int → Int
  | 0, e => e
  | fuel + 1, e => if (g.quotient e).1 = 0 then lower g fuel (e - 1) else e

/-- The exponent of the leading decimal digit, from the binary logarithm
    (`30103 / 100000` is just above the decimal logarithm of two). -/
def leadingExponent (g : Grid) : Int :=
  let bits : Int := (g.value.log2 : Int) + g.unitNum.log2 - g.unitDen.log2
  g.lower 4 (g.raise 4 (bits * 30103 / 100000))

/-- The nearer of the two neighbours on the grid of spacing `10 ^ e` that lies in the
    interval, if one does. -/
def neighbour? (g : Grid) (e : Int) : Option Decimal :=
  let (c, up) := g.quotient e
  let near := if up then c + 1 else c
  let far := if up then c else c + 1
  if g.contains near e then some ⟨near, e⟩
  else if g.contains far e then some ⟨far, e⟩
  else none

/-- The first hit on the grids with `digits`, `digits + 1`, … digits. -/
def search (g : Grid) (lead : Int) : (fuel digits : Nat) → Decimal
  | 0, digits => ⟨(g.quotient (lead - digits)).1, lead - digits⟩
  | fuel + 1, digits =>
    match g.neighbour? (lead + 1 - digits) with
    | some d => d
    | none => search g lead fuel (digits + 1)

end Grid

/-- The decimal with the fewest digits that reads back to the absolute value of a finite
    number, the nearest one of those. -/
def Decimal.shortest (x : Binary64) : Decimal :=
  if x.isZero then ⟨0, 0⟩
  else
    let g := Grid.ofBinary64 x
    (g.search g.leadingExponent 17 1).trim 20

end SchemaEmbed
