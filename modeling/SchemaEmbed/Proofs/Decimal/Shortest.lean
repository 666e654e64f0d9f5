import SchemaEmbed.Proofs.Decimal.Rounding

namespace SchemaEmbed

/-!
# The shortest decimal reads back

The shortest decimal of a number is found by trial: on the grid of one digit, of two digits and so
on, the two neighbours of the number are tried. That a neighbour is accepted means that it lies in
the number's interval, so what has to be shown is that the trials do not run out before a grid is
fine enough:

* `Grid.contains_iff` — the interval of a number in whole units is the interval that rounds to it;
* `Grid.neighbour_isSome` — with seventeen digits a grid is fine enough to hit it;
* `Grid.leadingExponent_le` — the search begins at a power of ten within the number;
* `Decimal.shortest_roundsTo` — the shortest decimal of a number rounds to it.

That no shorter decimal would do, or that of several the nearest is taken, is not stated: what is
written has to be read back, and for that any decimal in the interval will do.
-/

open Binary64 (RoundsTo)

/-! ### The interval of a number

`Grid` keeps everything natural. Its bounds and its points are multiplied out, so that membership
is a comparison of two naturals; as rationals they are the bounds of `RoundsTo`.
-/

/-- A power of ten as a rational. -/
theorem cast_tenTo (n : Nat) : ((tenTo n : Nat) : ℚ) = 10 ^ n := by
  show ((10 ^ n : Nat) : ℚ) = 10 ^ n
  push_cast
  rfl

namespace Grid

/-- The value of the number that a grid belongs to. -/
def amount (g : Grid) : ℚ := g.value * (g.unitNum / g.unitDen)

/-- The unit of the grid of a number is a quarter of its last place, as a fraction that has a
    denominator. -/
theorem unit_ofBinary64 (x : Binary64) :
    0 < (ofBinary64 x).unitDen
      ∧ ((ofBinary64 x).unitNum / (ofBinary64 x).unitDen : ℚ) = 2 ^ (x.scale - 2) := by
  obtain ⟨hden, hunit⟩ := Binary64.shifted_spec 1 (x.scale - 2)
  rw [Nat.cast_one, one_mul] at hunit
  exact ⟨hden, hunit⟩

/-- In these units a number is four times its significand. -/
theorem amount_ofBinary64 (x : Binary64) :
    (ofBinary64 x).amount = 4 * x.mantissa * 2 ^ (x.scale - 2) := by
  rw [amount, (unit_ofBinary64 x).2]
  simp [ofBinary64]

/-- **The interval in whole units** is the one that rounds to the number: the executable test on
    a decimal decides `RoundsTo`. -/
theorem contains_iff {x : Binary64} (hmantissa : 0 < x.mantissa) (c : Nat) (e : Int) :
    (ofBinary64 x).contains c e = true ↔ x.RoundsTo (c * 10 ^ e) := by
  obtain ⟨hden, hunit⟩ := unit_ofBinary64 x
  have hden' : (0 : ℚ) < (ofBinary64 x).unitDen := by exact_mod_cast hden
  -- the point as a fraction
  obtain ⟨n, d, hd, hpoint, hcase⟩ : ∃ n d : Nat, 0 < d ∧ (c * 10 ^ e : ℚ) = n / d
      ∧ (if 0 ≤ e then (c * tenTo e.toNat, 1) else (c, tenTo (-e).toNat)) = (n, d) := by
    by_cases he : 0 ≤ e
    · obtain ⟨k, rfl⟩ := Int.eq_ofNat_of_zero_le he
      refine ⟨c * tenTo k, 1, Nat.one_pos, ?_, by simp⟩
      rw [Nat.cast_mul, cast_tenTo]
      simp
    · obtain ⟨k, rfl⟩ : ∃ k : Nat, e = -(k : Int) := ⟨(-e).toNat, by omega⟩
      refine ⟨c, tenTo k, Nat.pow_pos (by decide), ?_, by rw [if_neg he]; simp⟩
      rw [cast_tenTo, zpow_neg, zpow_natCast, div_eq_mul_inv]
  have hd' : (0 : ℚ) < d := by exact_mod_cast hd
  -- a bound of the interval in whole units is one of the rationals
  have hle (a : Nat) : a * (ofBinary64 x).unitNum * d ≤ n * (ofBinary64 x).unitDen
      ↔ (a : ℚ) * 2 ^ (x.scale - 2) ≤ n / d := by
    rw [← hunit, mul_div_assoc', div_le_div_iff₀ hden' hd']
    exact_mod_cast Iff.rfl
  have hge (a : Nat) : n * (ofBinary64 x).unitDen ≤ a * (ofBinary64 x).unitNum * d
      ↔ (n / d : ℚ) ≤ a * 2 ^ (x.scale - 2) := by
    rw [← hunit, mul_div_assoc', div_le_div_iff₀ hd' hden']
    exact_mod_cast Iff.rfl
  have hlow : (((ofBinary64 x).low : Nat) : ℚ) = 4 * x.mantissa - x.gapBelow := by
    have hone : 1 ≤ 4 * x.mantissa := by omega
    have htwo : 2 ≤ 4 * x.mantissa := by omega
    unfold ofBinary64 Binary64.gapBelow
    dsimp only
    split
    · rw [Nat.cast_sub hone]; push_cast; rfl
    · rw [Nat.cast_sub htwo]; push_cast; rfl
  have hhigh : (((ofBinary64 x).high : Nat) : ℚ) = 4 * x.mantissa + 2 := by
    simp [ofBinary64]
  have hclosed : (ofBinary64 x).closed = (x.mantissa % 2 == 0) := rfl
  unfold contains
  dsimp only
  rw [hcase, hclosed, hpoint]
  unfold RoundsTo
  rw [← hlow, ← hhigh]
  by_cases heven : x.mantissa % 2 = 0
  · simp [heven, hle, hge]
  · simp only [beq_iff_eq, heven, ↓reduceIte, Bool.and_eq_true, decide_eq_true_eq, imp_false,
      not_or, ← not_le, hle, hge]
    rw [not_le, not_le]
    constructor
    · rintro ⟨hlt, hgt⟩
      exact ⟨hlt.le, hgt.le, hlt.ne', hgt.ne⟩
    · rintro ⟨hle', hge', hne, hne'⟩
      exact ⟨lt_of_le_of_ne hle' (Ne.symm hne), lt_of_le_of_ne hge' hne'⟩

/-! ### Neighbours on a grid

A grid is all multiples of a power of ten. If its spacing is smaller than the interval, a multiple
falls into it, and then one of the two multiples around the number does. The interval is a whole
last place wide, or three quarters of one at a power of two, and a number is less than 2 ^ 53 last
places. So a spacing that fits into the number ten to the sixteenth times is smaller.
-/

/-- Between the two neighbours on a grid lies the number, and the lower one may be the number
    itself. -/
theorem quotient_spec {g : Grid} (hden : 0 < g.unitDen) (e : Int) :
    ((g.quotient e).1 : ℚ) * 10 ^ e ≤ g.amount
      ∧ g.amount < ((g.quotient e).1 + 1) * 10 ^ e := by
  have hden' : (g.unitDen : ℚ) ≠ 0 := by exact_mod_cast hden.ne'
  have hten : (0 : ℚ) < 10 ^ e := by positivity
  -- the quotient is of two naturals whose ratio is the number in units of the grid
  obtain ⟨n, d, hd, hratio, hcase⟩ : ∃ n d : Nat, 0 < d ∧ (n / d : ℚ) = g.amount / 10 ^ e
      ∧ (g.quotient e).1 = n / d := by
    unfold quotient amount
    by_cases he : 0 ≤ e
    · obtain ⟨k, rfl⟩ := Int.eq_ofNat_of_zero_le he
      refine ⟨g.value * g.unitNum, g.unitDen * tenTo k,
        Nat.mul_pos hden (Nat.pow_pos (by decide)), ?_, by simp⟩
      rw [Nat.cast_mul, Nat.cast_mul, cast_tenTo]
      simp only [zpow_natCast]
      field_simp
    · obtain ⟨k, rfl⟩ : ∃ k : Nat, e = -(k : Int) := ⟨(-e).toNat, by omega⟩
      refine ⟨g.value * g.unitNum * tenTo k, g.unitDen, hden, ?_, by rw [if_neg he]; simp⟩
      rw [Nat.cast_mul, Nat.cast_mul, cast_tenTo, zpow_neg, zpow_natCast]
      field_simp
  have hd' : (0 : ℚ) < d := by exact_mod_cast hd
  rw [hcase]
  constructor
  · rw [← le_div_iff₀ hten, ← hratio, le_div_iff₀ hd']
    exact_mod_cast Nat.div_mul_le_self n d
  · rw [← div_lt_iff₀ hten, ← hratio, div_lt_iff₀ hd']
    have hlt : n < (n / d + 1) * d := by
      have hdiv := Nat.div_add_mod n d
      have hmod := Nat.mod_lt n hd
      rw [Nat.add_mul, Nat.one_mul, Nat.mul_comm]
      omega
    exact_mod_cast hlt

/-- A neighbour is found only after the test that it lies in the interval. -/
theorem contains_of_neighbour {g : Grid} {e : Int} {d : Decimal} (h : g.neighbour? e = some d) :
    g.contains d.significand d.exponent = true := by
  unfold neighbour? at h
  dsimp only at h
  generalize (if (g.quotient e).2 = true then (g.quotient e).1 + 1 else (g.quotient e).1) = near
    at h
  generalize (if (g.quotient e).2 = true then (g.quotient e).1 else (g.quotient e).1 + 1) = far
    at h
  split at h
  · next hnear =>
    cases h
    exact hnear
  · split at h
    · next hfar =>
      cases h
      exact hfar
    · cases h

/-- **A grid is fine enough** if its spacing is at most the sixteenth power of ten below the
    number: one of the two neighbours lies in the interval. -/
theorem contains_neighbours {x : Binary64} (hfinite : x.isFinite = true) (hzero : x.isZero = false)
    {e : Int} (he : (10 : ℚ) ^ e * 10 ^ 16 ≤ (ofBinary64 x).amount) :
    (ofBinary64 x).contains ((ofBinary64 x).quotient e).1 e = true
      ∨ (ofBinary64 x).contains (((ofBinary64 x).quotient e).1 + 1) e = true := by
  obtain ⟨hm, -⟩ := Binary64.parts_bounds hfinite hzero
  have hmax := Binary64.cast_mantissa_add_one_le hfinite hzero
  have hgap := x.one_le_gapBelow
  obtain ⟨hbelow, habove⟩ := quotient_spec (unit_ofBinary64 x).1 e
  have hunit : (0 : ℚ) < 2 ^ (x.scale - 2) := by positivity
  rw [amount_ofBinary64] at he hbelow habove
  rw [contains_iff hm, contains_iff hm]
  by_contra hnone
  rw [not_or] at hnone
  obtain ⟨hnear, hfar⟩ := hnone
  generalize ((ofBinary64 x).quotient e).1 = c at *
  -- with neither of them in it, the whole interval lies between the two neighbours
  have hlow : (c * 10 ^ e : ℚ) ≤ (4 * x.mantissa - x.gapBelow) * 2 ^ (x.scale - 2) := by
    by_contra hlt
    rw [not_le] at hlt
    refine hnear ⟨hlt.le, by nlinarith, ?_⟩
    rintro (heq | heq)
    · exact absurd heq hlt.ne'
    · nlinarith
  have hhigh : ((4 * x.mantissa + 2) * 2 ^ (x.scale - 2) : ℚ) ≤ (c + 1 : Nat) * 10 ^ e := by
    push_cast
    by_contra hlt
    rw [not_le] at hlt
    refine hfar ⟨by push_cast; nlinarith, by push_cast; exact hlt.le, ?_⟩
    push_cast
    rintro (heq | heq)
    · nlinarith
    · exact absurd heq hlt.ne
  push_cast at hhigh
  have hspacing : ((x.gapBelow + 2) * 2 ^ (x.scale - 2) : ℚ) ≤ 10 ^ e := by linarith
  -- so the spacing is at least the width, which is a greater part of the number than it may be
  unfold Binary64.gapBelow at hspacing
  split at hspacing
  · next hcond =>
    have hlead : (x.mantissa : ℚ) = 2 ^ 52 := by rw [hcond.1]; norm_num [leadingBit]
    rw [hlead] at he
    norm_num at he hspacing
    nlinarith
  · norm_num at he hspacing hmax
    nlinarith

/-- On a grid that is fine enough for seventeen digits a neighbour of the number is found,
    whichever of the two is tried first. -/
theorem neighbour_isSome {x : Binary64} (hfinite : x.isFinite = true) (hzero : x.isZero = false)
    {e : Int} (he : (10 : ℚ) ^ e * 10 ^ 16 ≤ (ofBinary64 x).amount) :
    ((ofBinary64 x).neighbour? e).isSome = true := by
  have hhit := contains_neighbours hfinite hzero he
  have hsome (a b : Nat) (hab : (ofBinary64 x).contains a e = true
      ∨ (ofBinary64 x).contains b e = true) :
      (if (ofBinary64 x).contains a e then some (⟨a, e⟩ : Decimal)
        else if (ofBinary64 x).contains b e then some ⟨b, e⟩ else none).isSome = true := by
    split
    · rfl
    · next hnot =>
      rw [if_pos (hab.resolve_left hnot)]
      rfl
  unfold neighbour?
  dsimp only
  rcases hq : (ofBinary64 x).quotient e with ⟨c, up⟩
  rw [hq] at hhit
  cases up
  · exact hsome c (c + 1) hhit
  · exact hsome (c + 1) c hhit.symm

/-- The first hit of a search lies in the interval. If the grid with `n` digits has one and `n`
    is within reach, then the search ends with a hit, on that grid or on a coarser one. -/
theorem contains_search {g : Grid} {lead : Int} {fuel digits n : Nat} (hlow : digits ≤ n)
    (hhigh : n < digits + fuel) (h : (g.neighbour? (lead + 1 - n)).isSome = true) :
    g.contains (g.search lead fuel digits).significand (g.search lead fuel digits).exponent
      = true := by
  induction fuel generalizing digits with
  | zero => omega
  | succ fuel ih =>
    unfold search
    split
    · next hfound => exact contains_of_neighbour hfound
    · next hnone =>
      have hne : digits ≠ n := by
        rintro rfl
        rw [hnone] at h
        cases h
      exact ih (by omega) (by omega)

/-! ### The leading digit

The search needs a first power of ten. It is guessed from the binary logarithm and then corrected,
four steps up and four steps down at most. Only one bound matters for what is read back: the power
must not be greater than the number, or seventeen digits would not reach far enough down.
-/

/-- The guess of the exponent of the leading digit is at most four too high. Both signs of the
    binary logarithm need a fraction near `log 2 / log 10` of their own, since the quotient is
    rounded down on either side. -/
theorem ten_zpow_le_two_zpow {b : Int} (hlow : -1100 ≤ b) (hhigh : b ≤ 1100) :
    (10 : ℚ) ^ (b * 30103 / 100000 - 4) ≤ 2 ^ b := by
  rcases Int.le_total 0 b with hb | hb
  · obtain ⟨n, rfl⟩ := Int.eq_ofNat_of_zero_le hb
    rcases Int.le_total 0 ((n : Int) * 30103 / 100000 - 4) with he | he
    · obtain ⟨k, hk⟩ := Int.eq_ofNat_of_zero_le he
      have hle : 10 * k ≤ 3 * n := by omega
      rw [hk, zpow_natCast, zpow_natCast]
      -- a thousand is less than two to the tenth
      have hcube : ((10 : ℚ) ^ k) ^ 3 ≤ (2 ^ n) ^ 3 := by
        calc ((10 : ℚ) ^ k) ^ 3 = (10 ^ 3) ^ k := by rw [← pow_mul, ← pow_mul, Nat.mul_comm]
          _ ≤ (2 ^ 10) ^ k := by gcongr; norm_num
          _ = 2 ^ (10 * k) := (pow_mul _ _ _).symm
          _ ≤ 2 ^ (3 * n) := pow_le_pow_right₀ (by norm_num) hle
          _ = (2 ^ n) ^ 3 := by rw [← pow_mul, Nat.mul_comm]
      exact le_of_pow_le_pow_left₀ (by decide) (by positivity) hcube
    · calc (10 : ℚ) ^ ((n : Int) * 30103 / 100000 - 4) ≤ 10 ^ (0 : Int) :=
            zpow_le_zpow_right₀ (by norm_num) he
        _ = 1 := zpow_zero _
        _ ≤ 2 ^ (n : Int) := by rw [zpow_natCast]; exact one_le_pow₀ (by norm_num)
  · obtain ⟨n, rfl⟩ : ∃ n : Nat, b = -(n : Int) := ⟨(-b).toNat, by omega⟩
    obtain ⟨k, hk⟩ : ∃ k : Nat, -(n : Int) * 30103 / 100000 - 4 = -(k : Int) :=
      ⟨(-(-(n : Int) * 30103 / 100000 - 4)).toNat, by omega⟩
    have hle : 28 * n ≤ 93 * k := by omega
    rw [hk, zpow_neg, zpow_neg, zpow_natCast, zpow_natCast]
    refine inv_anti₀ (by positivity) ?_
    -- two to the ninety-third is less than ten to the twenty-eighth
    have hpower : ((2 : ℚ) ^ n) ^ 93 ≤ (10 ^ k) ^ 93 := by
      calc ((2 : ℚ) ^ n) ^ 93 = (2 ^ 93) ^ n := by rw [← pow_mul, ← pow_mul, Nat.mul_comm]
        _ ≤ (10 ^ 28) ^ n := by gcongr; norm_num
        _ = 10 ^ (28 * n) := (pow_mul _ _ _).symm
        _ ≤ 10 ^ (93 * k) := pow_le_pow_right₀ (by norm_num) hle
        _ = (10 ^ k) ^ 93 := by rw [← pow_mul, Nat.mul_comm]
    exact le_of_pow_le_pow_left₀ (by decide) (by positivity) hpower

/-- Correcting a guess upwards does not pass the number: the guess stays, or what is reached is
    within the number. -/
theorem raise_spec {g : Grid} (hden : 0 < g.unitDen) (fuel : Nat) (e : Int) :
    g.raise fuel e = e ∨ (10 : ℚ) ^ g.raise fuel e ≤ g.amount := by
  induction fuel generalizing e with
  | zero => exact .inl rfl
  | succ fuel ih =>
    unfold raise
    split
    · next hten =>
      rcases ih (e + 1) with heq | hle
      · rw [heq]
        refine .inr (le_trans ?_ (quotient_spec hden e).1)
        have hten' : (10 : ℚ) ≤ (g.quotient e).1 := by exact_mod_cast hten
        rw [zpow_add_one₀ (by norm_num), mul_comm]
        gcongr
      · exact .inr hle
    · exact .inl rfl

/-- Correcting a guess downwards gets within the number, if the guess was off by no more than the
    fuel. -/
theorem lower_spec {g : Grid} (hden : 0 < g.unitDen) {fuel : Nat} {e : Int}
    (h : (10 : ℚ) ^ (e - fuel) ≤ g.amount) : (10 : ℚ) ^ g.lower fuel e ≤ g.amount := by
  induction fuel generalizing e with
  | zero => simpa [lower] using h
  | succ fuel ih =>
    unfold lower
    split
    · refine ih ?_
      rwa [show e - 1 - (fuel : Int) = e - (fuel + 1 : Nat) by push_cast; ring]
    · next hne =>
      refine le_trans ?_ (quotient_spec hden e).1
      have hone : (1 : ℚ) ≤ (g.quotient e).1 := by
        exact_mod_cast Nat.pos_of_ne_zero hne
      exact le_mul_of_one_le_left (by positivity) hone

/-- **The search begins** at a power of ten that is within the number, so that the grids are
    counted from the number's own leading digit or a later one. -/
theorem leadingExponent_le {x : Binary64} (hfinite : x.isFinite = true) (hzero : x.isZero = false) :
    (10 : ℚ) ^ (ofBinary64 x).leadingExponent ≤ (ofBinary64 x).amount := by
  obtain ⟨hm, hmax, hscale, hscale', -⟩ := Binary64.parts_bounds hfinite hzero
  have hden := (unit_ofBinary64 x).1
  -- the binary logarithm is that of the significand and the scale
  have hlog :
      (((ofBinary64 x).unitNum.log2 : Int) - (ofBinary64 x).unitDen.log2) = x.scale - 2 := by
    show (((Binary64.shifted 1 (x.scale - 2)).1.log2 : Int)
      - (Binary64.shifted 1 (x.scale - 2)).2.log2) = x.scale - 2
    unfold Binary64.shifted
    split
    · next he =>
      have hone : Nat.log2 1 = 0 := by decide
      simp only [Nat.one_mul, twoTo, Nat.pow_eq, Nat.log2_two_pow, hone]
      omega
    · next he =>
      have hone : Nat.log2 1 = 0 := by decide
      simp only [twoTo, Nat.pow_eq, Nat.log2_two_pow, hone]
      omega
  have hvalue : (ofBinary64 x).value = 4 * x.mantissa := rfl
  have hne : 4 * x.mantissa ≠ 0 := by omega
  have hwidth : (4 * x.mantissa).log2 < 55 := by
    rw [Nat.log2_lt hne]
    simp only [leadingBit] at hmax
    omega
  have hamount : (2 : ℚ) ^ (((4 * x.mantissa).log2 : Int) + (x.scale - 2))
      ≤ (ofBinary64 x).amount := by
    rw [amount_ofBinary64, zpow_add₀ (by norm_num), zpow_natCast]
    have hself : (2 : ℚ) ^ (4 * x.mantissa).log2 ≤ 4 * x.mantissa := by
      exact_mod_cast Nat.log2_self_le hne
    gcongr
  unfold leadingExponent
  dsimp only
  refine lower_spec hden ?_
  rw [hvalue, Int.add_sub_assoc, hlog]
  generalize hb : ((4 * x.mantissa).log2 : Int) + (x.scale - 2) = b at hamount ⊢
  rcases raise_spec hden 4 (b * 30103 / 100000) with heq | hle
  · rw [heq]
    exact le_trans (ten_zpow_le_two_zpow (by omega) (by omega)) hamount
  · refine le_trans (zpow_le_zpow_right₀ (by norm_num) ?_) hle
    simp

end Grid

/-! ### The shortest decimal -/

namespace Decimal

/-- The rational that a decimal is. -/
def toRat (d : Decimal) : ℚ := d.significand * 10 ^ d.exponent

/-- Taking zeros off the significand and raising the exponent for each does not change the
    number. -/
theorem toRat_trim (fuel : Nat) (d : Decimal) : (trim fuel d).toRat = d.toRat := by
  induction fuel generalizing d with
  | zero => rfl
  | succ fuel ih =>
    unfold trim
    split
    · next h =>
      rw [ih]
      have hdiv : d.significand = 10 * (d.significand / 10) := by omega
      unfold toRat
      dsimp only
      rw [zpow_add_one₀ (by norm_num)]
      conv_rhs => rw [hdiv]
      push_cast
      ring
    · rfl

/-- **The shortest decimal of a number** rounds to it. -/
theorem shortest_roundsTo {x : Binary64} (hfinite : x.isFinite = true) (hzero : x.isZero = false) :
    x.RoundsTo (shortest x).toRat := by
  obtain ⟨hm, -⟩ := Binary64.parts_bounds hfinite hzero
  unfold shortest
  rw [hzero]
  simp only [Bool.false_eq_true, ↓reduceIte]
  rw [toRat_trim]
  -- seventeen digits are enough for every number
  have hfine : (10 : ℚ) ^ ((Grid.ofBinary64 x).leadingExponent + 1 - (17 : Nat)) * 10 ^ 16
      ≤ (Grid.ofBinary64 x).amount := by
    refine le_trans (le_of_eq ?_) (Grid.leadingExponent_le hfinite hzero)
    rw [← zpow_natCast, ← zpow_add₀ (by norm_num)]
    congr 1
    push_cast
    ring
  have hsome := Grid.neighbour_isSome hfinite hzero hfine
  exact (Grid.contains_iff hm _ _).mp
    (Grid.contains_search (n := 17) (by decide) (by decide) hsome)

end Decimal

end SchemaEmbed
