import SchemaEmbed.Proofs.Decimal.Rounding

namespace SchemaEmbed.Binary64

/-!
# What stays finite

A reader of JSON numbers divides and multiplies floating-point numbers by powers of ten and refuses
what overflows. Which of these steps can overflow at all is settled here:

* `toRat` / `maxFinite` — the absolute value of a number, and the greatest one of a finite number;
* `isFinite_ofRatio` — a fraction up to the greatest finite number is rounded to a finite number;
* `isFinite_div` — a finite number divided by one that is at least one is finite;
* `one_le_ofNat` — a natural other than zero is rounded to a number that is at least one.

So a division by a power of ten never overflows, and only multiplication needs the check that the
reader makes.
-/

/-- The absolute value of a finite number. -/
def toRat (x : Binary64) : ℚ := x.mantissa * 2 ^ x.scale

/-- The greatest absolute value of a finite number: 53 bits, all of them set, at the greatest
    scale. -/
def maxFinite : ℚ := (2 * leadingBit - 1 : Nat) * 2 ^ (971 : Int)

/-- The leading bit as a power of two. -/
theorem cast_leadingBit : ((leadingBit : Nat) : ℚ) = 2 ^ (52 : Int) := by norm_num [leadingBit]

/-- A significand of 53 bits as a power of two. -/
theorem cast_two_leadingBit : ((2 * leadingBit : Nat) : ℚ) = 2 ^ (53 : Int) := by
  norm_num [leadingBit]

/-- The next power of two is out of range. -/
theorem maxFinite_lt : maxFinite < 2 ^ (1024 : Int) := by
  have hpow : (2 : ℚ) ^ (1024 : Int) = 2 ^ (53 : Int) * 2 ^ (971 : Int) :=
    zpow_add₀ (by norm_num) 53 971
  rw [maxFinite, hpow, ← cast_two_leadingBit]
  exact mul_lt_mul_of_pos_right (by exact_mod_cast (by decide)) (by positivity)

/-- No finite number has a greater absolute value. -/
theorem toRat_le_maxFinite {x : Binary64} (hfinite : x.isFinite = true) : x.toRat ≤ maxFinite := by
  unfold toRat maxFinite
  by_cases hzero : x.isZero = true
  · have hmantissa : x.mantissa = 0 := by
      simp only [isZero, beq_iff_eq] at hzero
      rw [mantissa, hzero, if_pos (by decide)]
    rw [hmantissa, Nat.cast_zero, zero_mul]
    exact mul_nonneg (Nat.cast_nonneg _) (by positivity)
  · obtain ⟨-, hmax, -, hscale, -⟩ := parts_bounds hfinite (by simpa using hzero)
    have hle : (x.mantissa : ℚ) ≤ (2 * leadingBit - 1 : Nat) := by
      exact_mod_cast Nat.le_sub_one_of_lt hmax
    have hpow : (2 : ℚ) ^ x.scale ≤ 2 ^ (971 : Int) := zpow_le_zpow_right₀ (by norm_num) hscale
    exact mul_le_mul hle hpow (by positivity) (Nat.cast_nonneg _)

/-! ### Rounding

The order of magnitudes is the order of absolute values, so a bound is carried through rounding in
three steps: from the fraction to the natural that it is rounded to, from there to the magnitude,
and from the magnitude to the number.
-/

/-- Rounding does not pass a natural from below: what is at most `k` is rounded to at most `k`. -/
theorem roundQuotient_le {a b k : Nat} (hb : 0 < b) (h : a ≤ k * b) : roundQuotient a b ≤ k := by
  have hdiv : b * (a / b) + a % b = a := Nat.div_add_mod a b
  have hle : a / b ≤ k := Nat.div_le_of_le_mul (by rwa [Nat.mul_comm])
  unfold roundQuotient
  dsimp only
  split
  · next hup =>
    -- a quotient that is rounded up has a rest, so that it is not the natural itself
    refine Nat.lt_of_le_of_ne hle fun heq => ?_
    have hrest : a % b = 0 := by
      rw [heq, Nat.mul_comm b k] at hdiv
      omega
    simp only [hrest, Nat.mul_zero, gt_iff_lt, Nat.not_lt_zero, decide_false, Bool.false_or,
      Bool.and_eq_true, beq_iff_eq] at hup
    omega
  · exact hle

/-- Rounding does not pass a natural from above either, since it never goes below the whole part. -/
theorem le_roundQuotient {a b k : Nat} (hb : 0 < b) (h : k * b ≤ a) : k ≤ roundQuotient a b := by
  have hle : k ≤ a / b := (Nat.le_div_iff_mul_le hb).mpr h
  unfold roundQuotient
  dsimp only
  split <;> omega

/-- In range, `pack` keeps the scale and the significand that it is given. -/
theorem pack_of_lt (negative : Bool) {m q : Nat} (h : q * leadingBit + m < infinityMagnitude) :
    pack negative m q = ⟨negative, ⟨q * leadingBit + m, Nat.lt_trans h (by decide)⟩⟩ := dif_pos h

/-- What is out of range is packed as infinity, whose magnitude is the first one that is not
    finite. -/
theorem pack_of_not_lt (negative : Bool) {m q : Nat}
    (h : ¬ q * leadingBit + m < infinityMagnitude) : pack negative m q = infinity negative :=
  dif_neg h

/-- A bound of what a number is made of is a bound of its magnitude, also where the number is
    infinity, provided that the bound itself is in range. -/
theorem le_magnitude_pack (negative : Bool) {m q k : Nat} (h : k ≤ q * leadingBit + m)
    (hrange : k ≤ infinityMagnitude) : k ≤ (pack negative m q).magnitude.val := by
  by_cases hlt : q * leadingBit + m < infinityMagnitude
  · rw [pack_of_lt negative hlt]
    exact h
  · rw [pack_of_not_lt negative hlt]
    exact hrange

/-- The fraction that rounding at a scale starts from compares with a natural as the fraction
    itself compares with that many units of the scale. -/
theorem scaled_le_iff {n d k : Nat} (hd : 0 < d) (q : Int) :
    ((scaleDown n d q).1 ≤ k * (scaleDown n d q).2 ↔ (n : ℚ) / d ≤ k * 2 ^ q)
      ∧ (k * (scaleDown n d q).2 ≤ (scaleDown n d q).1 ↔ (k : ℚ) * 2 ^ q ≤ n / d) := by
  obtain ⟨hpos, hquot⟩ := scaleDown_spec (n := n) hd q
  have hpos' : (0 : ℚ) < (scaleDown n d q).2 := by exact_mod_cast hpos
  have htwo : (0 : ℚ) < 2 ^ q := by positivity
  constructor
  · rw [← div_le_iff₀ htwo, ← hquot, div_le_iff₀ hpos']
    exact_mod_cast Iff.rfl
  · rw [← le_div_iff₀ htwo, ← hquot, le_div_iff₀ hpos']
    exact_mod_cast Iff.rfl

/-- A fraction other than zero is rounded to a natural at its scale, and that is packed. -/
theorem ofRatio_eq_pack (negative : Bool) {n : Nat} (hn : n ≠ 0) (d : Nat) :
    ofRatio negative n d = pack negative (roundQuotient (scaleDown n d (ratioScale n d)).1
      (scaleDown n d (ratioScale n d)).2) (ratioScale n d + 1074).toNat := if_neg hn

/-- **A fraction up to the greatest finite number** is rounded to a finite number. The carry into
    the next power of two is the only danger, and at the greatest scale the bound leaves no room
    for it. -/
theorem isFinite_ofRatio (negative : Bool) {n d : Nat} (hd : d ≠ 0) (h : (n : ℚ) / d ≤ maxFinite) :
    (ofRatio negative n d).isFinite = true := by
  by_cases hn : n = 0
  · rw [ofRatio, if_pos hn]
    show decide (0 < infinityMagnitude) = true
    decide
  · rw [ofRatio_eq_pack negative hn]
    obtain ⟨-, hhigh, hlow⟩ := ratioScale_spec hn hd
    generalize ratioScale n d = q at hhigh hlow
    have hd' := Nat.pos_of_ne_zero hd
    have hpos := (scaleDown_spec (n := n) hd' q).1
    -- a greater scale would have a value out of range
    have hq : q ≤ 971 := by
      by_contra hgt
      have hpow : (2 : ℚ) ^ (1024 : Int) ≤ 2 ^ (52 + q) :=
        zpow_le_zpow_right₀ (by norm_num) (by omega)
      have hlow := hlow.resolve_left (by omega)
      linarith [maxFinite_lt]
    have hmagnitude : (q + 1074).toNat * leadingBit
        + roundQuotient (scaleDown n d q).1 (scaleDown n d q).2 < infinityMagnitude := by
      -- at the greatest scale the bound itself says that the significand has 53 bits; below it the
      -- carry into the next scale is still in range
      by_cases htop : q = 971
      · have hround :
            roundQuotient (scaleDown n d q).1 (scaleDown n d q).2 ≤ 2 * leadingBit - 1 := by
          refine roundQuotient_le hpos ((scaled_le_iff hd' q).1.mpr ?_)
          rw [htop]
          exact h
        unfold infinityMagnitude
        unfold leadingBit at *
        omega
      · have hround : roundQuotient (scaleDown n d q).1 (scaleDown n d q).2 ≤ 2 * leadingBit := by
          refine roundQuotient_le hpos ((scaled_le_iff hd' q).1.mpr ?_)
          rw [cast_two_leadingBit, ← zpow_add₀ (by norm_num)]
          exact hhigh.le
        unfold infinityMagnitude
        unfold leadingBit at *
        omega
    rw [pack_of_lt negative hmagnitude]
    exact decide_eq_true hmagnitude

/-! ### Quotients -/

/-- **A finite number divided** by one that is at least one is finite, since the exact quotient
    is no greater than the dividend. -/
theorem isFinite_div {x y : Binary64} (hx : x.isFinite = true) (hy : 1 ≤ y.toRat) :
    (x.div y).isFinite = true := by
  obtain ⟨hd, hvalue⟩ := shifted_spec x.mantissa (x.scale - y.scale)
  have hpow : (0 : ℚ) < 2 ^ y.scale := by positivity
  have hmantissa : y.mantissa ≠ 0 := by
    intro hzero
    rw [toRat, hzero, Nat.cast_zero, zero_mul] at hy
    norm_num at hy
  have hmantissa' : (0 : ℚ) < y.mantissa := by exact_mod_cast Nat.pos_of_ne_zero hmantissa
  refine isFinite_ofRatio _ (Nat.mul_ne_zero hd.ne' hmantissa) ?_
  calc ((shifted x.mantissa (x.scale - y.scale)).1 : ℚ)
        / ((shifted x.mantissa (x.scale - y.scale)).2 * y.mantissa : Nat)
      = x.mantissa * 2 ^ (x.scale - y.scale) / y.mantissa := by
        rw [Nat.cast_mul, ← div_div, hvalue]
    _ = x.toRat / y.toRat := by
        rw [toRat, toRat, zpow_sub₀ (by norm_num)]
        field_simp
    _ ≤ x.toRat := div_le_self (by unfold toRat; positivity) hy
    _ ≤ maxFinite := toRat_le_maxFinite hx

/-- A number whose magnitude is at least that of one is at least one. The magnitude of one has
    the biased exponent 1023 and no fraction. -/
theorem one_le_toRat {x : Binary64} (h : 1023 * leadingBit ≤ x.magnitude.val) : 1 ≤ x.toRat := by
  have hsmall : ¬ x.magnitude.val < leadingBit := by
    unfold leadingBit at *
    omega
  have hmantissa : (2 : ℚ) ^ (52 : Int) ≤ x.mantissa := by
    have hnat : leadingBit ≤ x.mantissa := by
      rw [mantissa, if_neg hsmall]
      exact Nat.le_add_right _ _
    rw [← cast_leadingBit]
    exact_mod_cast hnat
  have hscale : (2 : ℚ) ^ (-52 : Int) ≤ 2 ^ x.scale := by
    refine zpow_le_zpow_right₀ (by norm_num) ?_
    rw [scale, if_neg hsmall]
    unfold leadingBit at *
    omega
  calc (1 : ℚ) = 2 ^ (52 : Int) * 2 ^ (-52 : Int) := by norm_num
    _ ≤ x.mantissa * 2 ^ x.scale := mul_le_mul hmantissa hscale (by positivity) (by positivity)

/-- **A natural other than zero** is rounded to a number that is at least one. That holds of
    naturals beyond the greatest finite number as well, which become infinity. -/
theorem one_le_ofNat (negative : Bool) {n : Nat} (hn : n ≠ 0) :
    1 ≤ (ofRatio negative n 1).toRat := by
  apply one_le_toRat
  rw [ofRatio_eq_pack negative hn]
  obtain ⟨hmin, hhigh, hlow⟩ := ratioScale_spec hn (d := 1) (by decide)
  generalize ratioScale n 1 = q at hmin hhigh hlow
  have hone : (1 : ℚ) ≤ n / (1 : Nat) := by
    rw [Nat.cast_one, div_one]
    exact_mod_cast Nat.pos_of_ne_zero hn
  -- at a smaller scale 53 bits would not reach one
  have hq : -52 ≤ q := by
    by_contra hlt
    have hpow : (2 : ℚ) ^ (53 + q) ≤ 2 ^ (0 : Int) := zpow_le_zpow_right₀ (by norm_num) (by omega)
    rw [zpow_zero] at hpow
    linarith
  have hround : leadingBit ≤ roundQuotient (scaleDown n 1 q).1 (scaleDown n 1 q).2 := by
    refine le_roundQuotient (scaleDown_spec (n := n) (by decide) q).1
      ((scaled_le_iff (by decide) q).2.mpr ?_)
    rw [cast_leadingBit, ← zpow_add₀ (by norm_num)]
    exact hlow.resolve_left (by omega)
  have hsum : 1023 * leadingBit ≤ (q + 1074).toNat * leadingBit
      + roundQuotient (scaleDown n 1 q).1 (scaleDown n 1 q).2 := by
    unfold leadingBit at *
    omega
  exact le_magnitude_pack negative hsum (Nat.mul_le_mul_right _ (by decide))

end SchemaEmbed.Binary64
