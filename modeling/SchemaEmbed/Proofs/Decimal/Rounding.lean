import Mathlib.Algebra.Order.Field.Basic
import Mathlib.Algebra.Order.Field.Power
import Mathlib.Algebra.Order.Ring.Rat
import Mathlib.Tactic.FieldSimp
import Mathlib.Tactic.Linarith
import Mathlib.Tactic.NormNum
import Mathlib.Tactic.Positivity
import Mathlib.Tactic.Ring
import SchemaEmbed.Decimal.Shortest

namespace SchemaEmbed.Binary64

/-!
# Rounding to the nearest number

Every reader of decimals ends in `ofRatio`, which rounds a fraction of naturals. Here rounding
gets a meaning that mentions no algorithm, an interval of rationals around each number, and the
algorithm is proved to agree with it:

* `RoundsTo` — the rationals that are nearer to a number than to any other, a tie being
  won by the even significand;
* `HasScale` / `ratioScale_spec` — the scale that a rational is rounded at, which is one only
  (`HasScale.unique`);
* `IsNearest` / `roundQuotient_eq` — the natural nearest to a rational in units of a scale;
* `ofRatio_of_nearest` — a fraction is rounded to the nearest natural at its scale;
* `ofRatio_eq` — what rounds to a number is rounded to it;
* `ofDecimal_eq` — so is a decimal.

Only one direction is needed: a text that is written for a number lies in the number's interval,
so reading it must give the number. That every rational lies in some interval, or which one, is
never asked.

Powers of two have integer exponents throughout, `2 ^ (x.scale - 2)` being a quarter of the last
place, the coarsest unit in which both ends of every interval are whole.
-/

/-! ### The interval of a number

Between two neighbours the border lies half way. Above the significand that is half of a last
place; below it as well, except that the neighbour below a power of two is only half as far away.
The smallest power of two with 53 bits is no exception, since the numbers below it have the same
spacing, hence the condition on the magnitude.
-/

/-- How far below the significand the interval of a number begins, in quarters of the last
    place: half a place, but a quarter where the spacing halves. -/
def gapBelow (x : Binary64) : ℚ :=
  if x.mantissa = leadingBit ∧ 2 * leadingBit ≤ x.magnitude.val then 1 else 2

theorem gapBelow_eq (x : Binary64) : x.gapBelow = 1 ∨ x.gapBelow = 2 := by
  unfold gapBelow
  split
  · exact .inl rfl
  · exact .inr rfl

theorem one_le_gapBelow (x : Binary64) : 1 ≤ x.gapBelow := by
  rcases x.gapBelow_eq with h | h <;> rw [h]
  norm_num

theorem gapBelow_le_two (x : Binary64) : x.gapBelow ≤ 2 := by
  rcases x.gapBelow_eq with h | h <;> rw [h]
  norm_num

/-- Whether a rational lies in the interval of a positive number `mantissa · 2 ^ scale`, to
    which its ends belong if the significand is even. -/
def RoundsTo (x : Binary64) (r : ℚ) : Prop :=
  (4 * x.mantissa - x.gapBelow) * 2 ^ (x.scale - 2) ≤ r
    ∧ r ≤ (4 * x.mantissa + 2) * 2 ^ (x.scale - 2)
    ∧ (r = (4 * x.mantissa - x.gapBelow) * 2 ^ (x.scale - 2)
        ∨ r = (4 * x.mantissa + 2) * 2 ^ (x.scale - 2) → x.mantissa % 2 = 0)

/-! ### Fractions that are scaled by powers of two

The algorithm never divides by a power of two: it multiplies the numerator or the denominator,
whichever keeps both of them natural. As rationals the two ways are one.
-/

/-- A power of two as a rational. -/
theorem cast_twoTo (k : Nat) : ((twoTo k : Nat) : ℚ) = 2 ^ k := by
  show (((2 ^ k : Nat)) : ℚ) = 2 ^ k
  push_cast
  rfl

/-- A last place is four quarters. -/
theorem two_zpow_eq_quarters (e : Int) : (2 : ℚ) ^ e = 4 * 2 ^ (e - 2) := by
  rw [show e = e - 2 + 2 by ring, zpow_add₀ (by norm_num)]
  norm_num
  ring

/-- The last place of the next smaller scale is two quarters. -/
theorem two_zpow_pred_eq_quarters (e : Int) : (2 : ℚ) ^ (e - 1) = 2 * 2 ^ (e - 2) := by
  rw [show e - 1 = e - 2 + 1 by ring, zpow_add₀ (by norm_num)]
  norm_num
  ring

/-- `n · 2 ^ e` as a fraction, whose denominator is not zero. -/
theorem shifted_spec (n : Nat) (e : Int) :
    0 < (shifted n e).2 ∧ ((shifted n e).1 : ℚ) / (shifted n e).2 = n * 2 ^ e := by
  unfold shifted
  split
  · next he =>
    obtain ⟨k, rfl⟩ := Int.eq_ofNat_of_zero_le he
    refine ⟨Nat.one_pos, ?_⟩
    simp only [Int.toNat_natCast, zpow_natCast, Nat.cast_one, div_one]
    rw [Nat.cast_mul, cast_twoTo]
  · next he =>
    obtain ⟨k, rfl⟩ : ∃ k : Nat, e = -(k : Int) := ⟨(-e).toNat, by omega⟩
    refine ⟨Nat.pow_pos (by decide), ?_⟩
    simp only [neg_neg, Int.toNat_natCast, zpow_neg, zpow_natCast]
    rw [cast_twoTo, div_eq_mul_inv]

/-- `scaleDown` divides a fraction by a power of two, and its denominator is not zero either. -/
theorem scaleDown_spec {n d : Nat} (hd : 0 < d) (q : Int) :
    0 < (scaleDown n d q).2
      ∧ ((scaleDown n d q).1 : ℚ) / (scaleDown n d q).2 = n / d / 2 ^ q := by
  have hd' : (d : ℚ) ≠ 0 := by exact_mod_cast hd.ne'
  unfold scaleDown
  split
  · next hq =>
    obtain ⟨k, rfl⟩ := Int.eq_ofNat_of_zero_le hq
    refine ⟨Nat.mul_pos hd (Nat.pow_pos (by decide)), ?_⟩
    simp only [Int.toNat_natCast, zpow_natCast]
    rw [Nat.cast_mul, cast_twoTo, div_div]
  · next hq =>
    obtain ⟨k, rfl⟩ : ∃ k : Nat, q = -(k : Int) := ⟨(-q).toNat, by omega⟩
    refine ⟨hd, ?_⟩
    simp only [neg_neg, Int.toNat_natCast, zpow_neg, zpow_natCast]
    rw [Nat.cast_mul, cast_twoTo]
    field_simp

/-- A whole quotient is below a bound exactly if the fraction is, so the test of the algorithm is
    one on rationals. -/
theorem div_lt_iff {a b c : Nat} (hb : 0 < b) : a / b < c ↔ (a : ℚ) / b < c := by
  have hb' : (0 : ℚ) < b := by exact_mod_cast hb
  rw [Nat.div_lt_iff_lt_mul hb, div_lt_iff₀ hb']
  exact_mod_cast Iff.rfl

/-- A fraction lies within a factor of two of the power that the logarithms of its parts
    make. -/
theorem log2_bounds {n d : Nat} (hn : n ≠ 0) (hd : d ≠ 0) :
    (2 : ℚ) ^ ((n.log2 : Int) - d.log2 - 1) ≤ n / d
      ∧ (n / d : ℚ) < 2 ^ ((n.log2 : Int) - d.log2 + 1) := by
  have hd' : (0 : ℚ) < d := by exact_mod_cast Nat.pos_of_ne_zero hd
  have hnlow : (2 : ℚ) ^ (n.log2 : Int) ≤ n := by
    rw [zpow_natCast]; exact_mod_cast Nat.log2_self_le hn
  have hnhigh : (n : ℚ) < 2 ^ ((n.log2 : Int) + 1) := by
    have h := Nat.lt_log2_self (n := n)
    rw [← Nat.cast_succ, zpow_natCast]; exact_mod_cast h
  have hdlow : (2 : ℚ) ^ (d.log2 : Int) ≤ d := by
    rw [zpow_natCast]; exact_mod_cast Nat.log2_self_le hd
  have hdhigh : (d : ℚ) < 2 ^ ((d.log2 : Int) + 1) := by
    have h := Nat.lt_log2_self (n := d)
    rw [← Nat.cast_succ, zpow_natCast]; exact_mod_cast h
  constructor
  · rw [le_div_iff₀ hd']
    calc (2 : ℚ) ^ ((n.log2 : Int) - d.log2 - 1) * d
        ≤ 2 ^ ((n.log2 : Int) - d.log2 - 1) * 2 ^ ((d.log2 : Int) + 1) := by
          gcongr
      _ = 2 ^ (n.log2 : Int) := by
          rw [← zpow_add₀ (by norm_num)]
          congr 1
          ring
      _ ≤ n := hnlow
  · rw [div_lt_iff₀ hd']
    calc (n : ℚ) < 2 ^ ((n.log2 : Int) + 1) := hnhigh
      _ = 2 ^ ((n.log2 : Int) - d.log2 + 1) * 2 ^ (d.log2 : Int) := by
          rw [← zpow_add₀ (by norm_num)]
          congr 1
          ring
      _ ≤ 2 ^ ((n.log2 : Int) - d.log2 + 1) * d := by
          gcongr

/-! ### The scale of a rational

The logarithms of numerator and denominator tell the scale but for one, and `ratioScale` settles
the rest by one division. What it finds is described without logarithms.
-/

/-- Whether a rational is rounded at a scale: it has at most 53 bits before the point there,
    and exactly 53 unless the scale is the smallest one. -/
def HasScale (r : ℚ) (q : Int) : Prop :=
  -1074 ≤ q ∧ r < 2 ^ (53 + q) ∧ (q = -1074 ∨ 2 ^ (52 + q) ≤ r)

/-- A rational is rounded at one scale only. Whatever finds a scale with these bounds has found
    the right one. -/
theorem HasScale.unique {r : ℚ} {q q' : Int} (h : HasScale r q) (h' : HasScale r q') : q = q' := by
  -- of two scales the greater one has too many bits at the smaller one
  have hle {p p' : Int} (hp : HasScale r p) (hp' : HasScale r p') : p' ≤ p := by
    by_contra hlt
    rcases hp'.2.2 with hmin | hlow
    · have := hp.1
      omega
    · have hpow : (2 : ℚ) ^ (53 + p) ≤ 2 ^ (52 + p') :=
        zpow_le_zpow_right₀ (by norm_num) (by omega)
      linarith [hp.2.1]
  have h₁ := hle h h'
  have h₂ := hle h' h
  omega

/-- **The scale of a fraction** is the one that `ratioScale` finds from the logarithms. -/
theorem ratioScale_spec {n d : Nat} (hn : n ≠ 0) (hd : d ≠ 0) :
    HasScale (n / d) (ratioScale n d) := by
  obtain ⟨hlow, hhigh⟩ := log2_bounds hn hd
  obtain ⟨hpos, hquot⟩ := scaleDown_spec (n := n) (Nat.pos_of_ne_zero hd)
    (max ((n.log2 : Int) - d.log2 - 52) (-1074))
  unfold ratioScale
  dsimp only
  generalize hq : max ((n.log2 : Int) - d.log2 - 52) (-1074) = q at hpos hquot ⊢
  have hbit : ((leadingBit : Nat) : ℚ) = 2 ^ (52 : Int) := by norm_num [leadingBit]
  have hpow : (2 : ℚ) ^ (52 + q) = 2 ^ (52 : Int) * 2 ^ q := zpow_add₀ (by norm_num) _ _
  have htwo : (0 : ℚ) < 2 ^ q := by positivity
  split
  · -- the first guess has one bit too few
    next hlt =>
    rw [div_lt_iff hpos, hquot, hbit, div_lt_iff₀ htwo, ← hpow] at hlt
    refine ⟨by omega, lt_of_lt_of_le hlt ?_, ?_⟩
    · exact zpow_le_zpow_right₀ (by norm_num) (by omega)
    · by_cases hmin : max (q - 1) (-1074) = -1074
      · exact .inl hmin
      · refine .inr (le_trans (zpow_le_zpow_right₀ (by norm_num) ?_) hlow)
        omega
  · -- the first guess is right, since the logarithms bound the fraction from above
    next hge =>
    rw [div_lt_iff hpos, hquot, hbit, div_lt_iff₀ htwo, ← hpow, not_lt] at hge
    refine ⟨by omega, lt_of_lt_of_le hhigh ?_, .inr hge⟩
    exact zpow_le_zpow_right₀ (by norm_num) (by omega)

/-! ### The nearest natural -/

/-- **The nearest natural**, a tie going to the even one. Twice the fraction is compared, so that
    the halves are whole. -/
theorem roundQuotient_eq {a b k : Nat} (hb : 0 < b) (hlow : 2 * (k * b) ≤ 2 * a + b)
    (hhigh : 2 * a ≤ 2 * (k * b) + b)
    (htie : 2 * (k * b) = 2 * a + b ∨ 2 * a = 2 * (k * b) + b → k % 2 = 0) :
    roundQuotient a b = k := by
  have hdiv : b * (a / b) + a % b = a := Nat.div_add_mod a b
  have hmod : a % b < b := Nat.mod_lt a hb
  -- the whole part is `k` or the natural before it
  have hle : a / b ≤ k := by
    by_contra hlt
    have hmul : (k + 1) * b ≤ a / b * b := Nat.mul_le_mul_right b (by omega)
    rw [Nat.add_mul, Nat.one_mul] at hmul
    rw [Nat.mul_comm b] at hdiv
    omega
  have hge : k ≤ a / b + 1 := by
    by_contra hlt
    have hmul : (a / b + 1) * b + b ≤ k * b := by
      rw [← Nat.succ_mul]
      exact Nat.mul_le_mul_right b (by omega)
    rw [Nat.add_mul, Nat.one_mul] at hmul
    rw [Nat.mul_comm b] at hdiv
    omega
  unfold roundQuotient
  dsimp only
  rcases Nat.lt_or_eq_of_le hle with hlt | heq
  · -- the whole part is one less, so the rest is at least one half
    have hk : k = a / b + 1 := by omega
    have hkb : k * b = b * (a / b) + b := by rw [hk, Nat.add_mul, Nat.one_mul, Nat.mul_comm]
    rw [if_pos]
    · exact hk.symm
    · by_cases hhalf : 2 * (a % b) = b
      · have heven : k % 2 = 0 := htie (.inl (by omega))
        simp only [Bool.or_eq_true, Bool.and_eq_true, decide_eq_true_eq, beq_iff_eq]
        right
        omega
      · simp only [Bool.or_eq_true, decide_eq_true_eq]
        left
        omega
  · have hkb : k * b = b * (a / b) := by rw [← heq, Nat.mul_comm]
    rw [if_neg]
    · exact heq
    · simp only [Bool.or_eq_true, Bool.and_eq_true, decide_eq_true_eq, beq_iff_eq, not_or, not_and]
      refine ⟨by omega, fun hhalf => ?_⟩
      have heven : k % 2 = 0 := htie (.inr (by omega))
      omega

/-! ### Parts of a number

A magnitude is `q * leadingBit + m`, where the significand `m` may be as large as twice the leading
bit; that the carry goes into the scale by itself is what makes `pack` so short.
-/

/-- The bounds of the parts of a finite number other than zero. The last part says that a number
    has 53 bits unless its scale is the smallest, and that a magnitude which has a scale above
    the smallest lies past the first power of two with 53 bits. -/
theorem parts_bounds {x : Binary64} (hfinite : x.isFinite = true) (hzero : x.isZero = false) :
    0 < x.mantissa ∧ x.mantissa < 2 * leadingBit ∧ -1074 ≤ x.scale
      ∧ x.scale ≤ 971
      ∧ (x.scale ≠ -1074 → leadingBit ≤ x.mantissa ∧ 2 * leadingBit ≤ x.magnitude.val) := by
  have hbelow : x.magnitude.val < 2047 * leadingBit := of_decide_eq_true hfinite
  simp only [isZero, beq_eq_false_iff_ne] at hzero
  unfold mantissa scale
  by_cases hsmall : x.magnitude.val < leadingBit
  · simp only [if_pos hsmall]
    unfold leadingBit at *
    omega
  · simp only [if_neg hsmall]
    unfold leadingBit at *
    omega

/-- A finite number is made of its parts: whatever scale and significand add up to its magnitude,
    `pack` makes the number of them. -/
theorem pack_parts {x : Binary64} (hfinite : x.isFinite = true) {m q : Nat}
    (h : q * leadingBit + m = x.magnitude.val) : pack x.negative m q = x := by
  simp only [isFinite, decide_eq_true_eq] at hfinite
  unfold pack
  dsimp only
  rw [dif_pos (by omega)]
  obtain ⟨negative, magnitude⟩ := x
  congr 1
  exact Fin.ext h

/-- The magnitude of a number is its scale, counted from the smallest, and its significand. The
    leading bit of the significand counts as one step of the scale. -/
theorem magnitude_eq (x : Binary64) :
    (x.scale + 1074).toNat * leadingBit + x.mantissa = x.magnitude.val := by
  unfold mantissa scale
  by_cases hsmall : x.magnitude.val < leadingBit
  · simp only [if_pos hsmall]
    show 0 * leadingBit + _ = _
    omega
  · simp only [if_neg hsmall]
    unfold leadingBit at *
    omega

/-! ### Rounding at a scale -/

/-- Whether `k` is the natural nearest to a rational in units of `2 ^ q`, a tie going to the even
    one. -/
def IsNearest (r : ℚ) (q : Int) (k : Nat) : Prop :=
  (k - 1 / 2) * 2 ^ q ≤ r ∧ r ≤ (k + 1 / 2) * 2 ^ q
    ∧ (r = (k - 1 / 2) * 2 ^ q ∨ r = (k + 1 / 2) * 2 ^ q → k % 2 = 0)

/-- A fraction is rounded to the nearest natural in units of a scale. -/
theorem roundQuotient_scaleDown {n d k : Nat} (hd : 0 < d) {q : Int} (h : IsNearest (n / d) q k) :
    roundQuotient (scaleDown n d q).1 (scaleDown n d q).2 = k := by
  obtain ⟨hlow, hhigh, htie⟩ := h
  obtain ⟨hpos, hquot⟩ := scaleDown_spec (n := n) hd q
  generalize (scaleDown n d q).1 = a at hquot ⊢
  generalize (scaleDown n d q).2 = b at hpos hquot ⊢
  have hb : (0 : ℚ) < b := by exact_mod_cast hpos
  have htwo : (0 : ℚ) < 2 ^ q := by positivity
  -- the fraction in units of the scale is `a / b`
  have hr : (n / d : ℚ) = a / b * 2 ^ q := by rw [hquot]; field_simp
  rw [hr] at hlow hhigh htie
  have hlow' : (k : ℚ) - 1 / 2 ≤ a / b := le_of_mul_le_mul_right hlow htwo
  have hhigh' : (a / b : ℚ) ≤ k + 1 / 2 := le_of_mul_le_mul_right hhigh htwo
  rw [le_div_iff₀ hb] at hlow'
  rw [div_le_iff₀ hb] at hhigh'
  -- twice the bounds are statements about naturals
  refine roundQuotient_eq hpos ?_ ?_ ?_
  · have : (2 * (k * b) : ℚ) ≤ 2 * a + b := by linarith
    exact_mod_cast this
  · have : (2 * a : ℚ) ≤ 2 * (k * b) + b := by linarith
    exact_mod_cast this
  · rintro (heq | heq)
    · have hq : (2 * (k * b) : ℚ) = 2 * a + b := by exact_mod_cast heq
      refine htie (.inl (congrArg (· * (2 : ℚ) ^ q) ?_))
      rw [div_eq_iff hb.ne']
      linarith
    · have hq : (2 * a : ℚ) = 2 * (k * b) + b := by exact_mod_cast heq
      refine htie (.inr (congrArg (· * (2 : ℚ) ^ q) ?_))
      rw [div_eq_iff hb.ne']
      linarith

/-- A fraction is rounded to the nearest natural at its scale. -/
theorem ofRatio_of_nearest {n d k : Nat} {q : Int} (hn : n ≠ 0) (hd : d ≠ 0)
    (hscale : HasScale (n / d) q) (h : IsNearest (n / d) q k) (negative : Bool) :
    ofRatio negative n d = pack negative k (q + 1074).toNat := by
  unfold ofRatio
  rw [if_neg hn]
  dsimp only
  rw [(ratioScale_spec hn hd).unique hscale, roundQuotient_scaleDown (Nat.pos_of_ne_zero hd) h]

/-! ### What rounds to a number

A rational in the interval of a number is rounded at the number's own scale, and there the
significand is the nearest natural. One part of one kind of interval is different: what lies
below a power of two has one bit less before the point, so it is rounded at the next smaller
scale, where the number is `2 ^ 53` places. `pack` carries that into the exponent.
-/

/-- A significand and half a place more has 53 bits at most. -/
theorem cast_mantissa_add_one_le {x : Binary64} (hfinite : x.isFinite = true)
    (hzero : x.isZero = false) : (x.mantissa : ℚ) + 1 ≤ 2 ^ 53 := by
  obtain ⟨-, hmax, -⟩ := parts_bounds hfinite hzero
  have : x.mantissa + 1 ≤ 2 ^ 53 := by simp only [leadingBit] at hmax; omega
  exact_mod_cast this

namespace RoundsTo

variable {x : Binary64} {r : ℚ}

/-- What rounds to a number is at most half a place from it. -/
theorem isNearest (h : x.RoundsTo r) : IsNearest r x.scale x.mantissa := by
  obtain ⟨hlow, hhigh, htie⟩ := h
  have hunit : (0 : ℚ) < 2 ^ (x.scale - 2) := by positivity
  have hgap := x.gapBelow_le_two
  unfold IsNearest
  rw [two_zpow_eq_quarters]
  refine ⟨by nlinarith, by linarith, ?_⟩
  rintro (heq | heq)
  · -- half a place below is the lower end, unless the spacing halves there
    rcases x.gapBelow_eq with hone | htwo
    · rw [hone] at hlow
      nlinarith
    · exact htie (.inl (by rw [heq, htwo]; ring))
  · exact htie (.inr (by rw [heq]; ring))

/-- What rounds to a number has the scale of the number, if it has 53 bits there or needs
    none. -/
theorem hasScale (hfinite : x.isFinite = true) (hzero : x.isZero = false) (h : x.RoundsTo r)
    (hbits : x.scale = -1074 ∨ 2 ^ (52 + x.scale) ≤ r) : HasScale r x.scale := by
  obtain ⟨-, -, hscale, -⟩ := parts_bounds hfinite hzero
  have hmax := cast_mantissa_add_one_le hfinite hzero
  have hunit : (0 : ℚ) < 2 ^ (x.scale - 2) := by positivity
  refine ⟨hscale, ?_, hbits⟩
  calc r ≤ (4 * x.mantissa + 2) * 2 ^ (x.scale - 2) := h.2.1
    _ < 4 * 2 ^ 53 * 2 ^ (x.scale - 2) := by
        refine mul_lt_mul_of_pos_right ?_ hunit
        linarith
    _ = 2 ^ (53 + x.scale) := by
        rw [zpow_add₀ (by norm_num), two_zpow_eq_quarters x.scale]
        norm_num
        ring

/-- What rounds to a number and has fewer than 53 bits at its scale lies below a power of two,
    which is the number. -/
theorem mantissa_eq_leadingBit (hfinite : x.isFinite = true) (hzero : x.isZero = false)
    (h : x.RoundsTo r) (hmin : x.scale ≠ -1074) (hbits : r < 2 ^ (52 + x.scale)) :
    x.mantissa = leadingBit := by
  obtain ⟨-, -, -, -, hnormal⟩ := parts_bounds hfinite hzero
  obtain ⟨hlead, -⟩ := hnormal hmin
  by_contra hne
  have hmore : (2 : ℚ) ^ 52 + 1 ≤ x.mantissa := by
    have : 2 ^ 52 + 1 ≤ x.mantissa := by simp only [leadingBit] at hlead hne; omega
    exact_mod_cast this
  -- any other significand is a whole place more, and the interval begins half a place below
  have hgap := x.gapBelow_le_two
  have hunit : (0 : ℚ) < 2 ^ (x.scale - 2) := by positivity
  have hle : (4 * 2 ^ 52 : ℚ) * 2 ^ (x.scale - 2) ≤ r := by
    refine le_trans (mul_le_mul_of_nonneg_right ?_ hunit.le) h.1
    linarith
  rw [zpow_add₀ (by norm_num), two_zpow_eq_quarters x.scale] at hbits
  norm_num at hle hbits
  linarith

/-- Below a power of two a rational is rounded at the next smaller scale, where the number has
    one bit more. -/
theorem below (hfinite : x.isFinite = true) (hzero : x.isZero = false) (h : x.RoundsTo r)
    (hmin : x.scale ≠ -1074) (hbits : r < 2 ^ (52 + x.scale)) :
    HasScale r (x.scale - 1) ∧ IsNearest r (x.scale - 1) (2 * leadingBit) := by
  obtain ⟨-, -, hscale, -, hnormal⟩ := parts_bounds hfinite hzero
  have hmant := mantissa_eq_leadingBit hfinite hzero h hmin hbits
  have hgap : x.gapBelow = 1 := by
    unfold gapBelow
    rw [if_pos ⟨hmant, (hnormal hmin).2⟩]
  have hmantq : (x.mantissa : ℚ) = 2 ^ 52 := by rw [hmant]; norm_num [leadingBit]
  obtain ⟨hlow, -⟩ := h
  rw [hgap, hmantq] at hlow
  rw [zpow_add₀ (by norm_num), two_zpow_eq_quarters x.scale] at hbits
  have hunit : (0 : ℚ) < 2 ^ (x.scale - 2) := by positivity
  refine ⟨⟨by omega, ?_, .inr ?_⟩, ?_, ?_, fun _ => Nat.mul_mod_right 2 leadingBit⟩
  · rw [zpow_add₀ (by norm_num), two_zpow_pred_eq_quarters x.scale]
    norm_num at hbits ⊢
    linarith
  · rw [zpow_add₀ (by norm_num), two_zpow_pred_eq_quarters x.scale]
    norm_num at hlow ⊢
    linarith
  · rw [two_zpow_pred_eq_quarters]
    norm_num [leadingBit] at hlow ⊢
    linarith
  · rw [two_zpow_pred_eq_quarters]
    norm_num [leadingBit] at hbits ⊢
    linarith

end RoundsTo

/-- **What rounds to a number** is rounded to it. -/
theorem ofRatio_eq {x : Binary64} (hfinite : x.isFinite = true) (hzero : x.isZero = false)
    {n d : Nat} (hn : n ≠ 0) (hd : d ≠ 0) (h : x.RoundsTo (n / d)) :
    ofRatio x.negative n d = x := by
  by_cases hbits : x.scale = -1074 ∨ (2 : ℚ) ^ (52 + x.scale) ≤ n / d
  · rw [ofRatio_of_nearest hn hd (h.hasScale hfinite hzero hbits) h.isNearest]
    exact pack_parts hfinite (magnitude_eq x)
  · rw [not_or, not_le] at hbits
    obtain ⟨hmin, hbits⟩ := hbits
    obtain ⟨hscale, hnearest⟩ := h.below hfinite hzero hmin hbits
    rw [ofRatio_of_nearest hn hd hscale hnearest]
    refine pack_parts hfinite ?_
    -- one scale less and twice the leading bit make the same magnitude
    have hmagnitude := magnitude_eq x
    have hlead := h.mantissa_eq_leadingBit hfinite hzero hmin hbits
    obtain ⟨-, -, hleast, -⟩ := parts_bounds hfinite hzero
    rw [show (x.scale + 1074).toNat = (x.scale - 1 + 1074).toNat + 1 by omega, Nat.succ_mul,
      hlead] at hmagnitude
    omega

/-! ### Decimals

`ofDecimal` looks at the width of a decimal first, so that an exponent of a million needs no power
of ten. The guards are far outside of what rounds to a finite number.
-/

/-- What rounds to a number is at least half of the smallest one and below the next power of two
    after the largest. -/
theorem RoundsTo.bounds {x : Binary64} (hfinite : x.isFinite = true) (hzero : x.isZero = false)
    {r : ℚ} (h : x.RoundsTo r) : 2 ^ (-1075 : Int) ≤ r ∧ r < 2 ^ (1024 : Int) := by
  obtain ⟨hm, -, hscale, hscale', -⟩ := parts_bounds hfinite hzero
  have hm' : (1 : ℚ) ≤ x.mantissa := by exact_mod_cast hm
  have hmax' := cast_mantissa_add_one_le hfinite hzero
  have hgap := x.gapBelow_le_two
  have hlow : (2 : ℚ) ^ (-1076 : Int) ≤ 2 ^ (x.scale - 2) :=
    zpow_le_zpow_right₀ (by norm_num) (by omega)
  have hhigh : (2 : ℚ) ^ (x.scale - 2) ≤ 2 ^ (969 : Int) :=
    zpow_le_zpow_right₀ (by norm_num) (by omega)
  constructor
  · calc (2 : ℚ) ^ (-1075 : Int) = 2 * 2 ^ (-1076 : Int) := by
          rw [show (-1075 : Int) = 1 + -1076 by norm_num, zpow_add₀ (by norm_num), zpow_one]
      _ ≤ (4 * x.mantissa - x.gapBelow) * 2 ^ (x.scale - 2) := by
          refine mul_le_mul ?_ hlow (zpow_nonneg (by norm_num) _) ?_
          · linarith only [hm', hgap]
          · linarith only [hm', hgap]
      _ ≤ r := h.1
  · have hsum : (4 * x.mantissa + 2 : ℚ) < 2 ^ (55 : Int) := by
      norm_num at hmax' ⊢
      linarith only [hmax']
    calc r ≤ (4 * x.mantissa + 2) * 2 ^ (x.scale - 2) := h.2.1
      _ ≤ (4 * x.mantissa + 2) * 2 ^ (969 : Int) := by
          exact mul_le_mul_of_nonneg_left hhigh (by positivity)
      _ < 2 ^ (55 : Int) * 2 ^ (969 : Int) := by
          exact mul_lt_mul_of_pos_right hsum (zpow_pos (by norm_num) _)
      _ = 2 ^ (1024 : Int) := (zpow_add₀ (by norm_num) _ _).symm

/-- **A decimal that rounds to a number** is rounded to it; the width of its digits does not
    settle it otherwise, provided that the digits do not exceed it. -/
theorem ofDecimal_eq {x : Binary64} (hfinite : x.isFinite = true) (hzero : x.isZero = false)
    {digits width : Nat} {exponent : Int} (hwidth : digits < 10 ^ width)
    (h : x.RoundsTo (digits * 10 ^ exponent)) :
    ofDecimal x.negative digits width exponent = x := by
  have hten (k : Nat) : ((tenTo k : Nat) : ℚ) = 10 ^ k := by
    show ((10 ^ k : Nat) : ℚ) = 10 ^ k
    push_cast
    rfl
  have hpos (k : Nat) : tenTo k ≠ 0 := Nat.ne_of_gt (Nat.pow_pos (by decide))
  obtain ⟨hlow, hhigh⟩ := h.bounds hfinite hzero
  have hexp : (0 : ℚ) < 10 ^ exponent := by positivity
  have hdigits : digits ≠ 0 := by
    rintro rfl
    have : (0 : ℚ) < 2 ^ (-1075 : Int) := by positivity
    rw [Nat.cast_zero, zero_mul] at hlow
    linarith
  -- neither guard on the width applies
  have hsmall : ¬ (width : Int) + exponent < -330 := by
    intro hlt
    have hwidth' : (digits : ℚ) < 10 ^ (width : Int) := by
      rw [zpow_natCast]
      exact_mod_cast hwidth
    have hless : (digits * 10 ^ exponent : ℚ) < 10 ^ (-330 : Int) := by
      calc (digits * 10 ^ exponent : ℚ) < 10 ^ (width : Int) * 10 ^ exponent := by gcongr
        _ = 10 ^ ((width : Int) + exponent) := (zpow_add₀ (by norm_num) _ _).symm
        _ ≤ 10 ^ (-330 : Int) := zpow_le_zpow_right₀ (by norm_num) (by omega)
    have hpowers : (10 : ℚ) ^ (-330 : Int) ≤ 2 ^ (-1075 : Int) := by
      have hnat : 2 ^ 1075 ≤ 10 ^ 330 := by decide +kernel
      rw [zpow_neg, zpow_neg]
      exact inv_anti₀ (by positivity) (by exact_mod_cast hnat)
    exact lt_irrefl _ ((hlow.trans_lt hless).trans_le hpowers)
  have hlarge : ¬ exponent > 310 := by
    intro hgt
    have hone : (1 : ℚ) ≤ digits := by exact_mod_cast Nat.pos_of_ne_zero hdigits
    have hmore : (10 : ℚ) ^ (310 : Int) ≤ digits * 10 ^ exponent := by
      calc (10 : ℚ) ^ (310 : Int) ≤ 10 ^ exponent := zpow_le_zpow_right₀ (by norm_num) (by omega)
        _ ≤ digits * 10 ^ exponent := le_mul_of_one_le_left hexp.le hone
    have hnat : 2 ^ 1024 ≤ 10 ^ 310 := by decide +kernel
    have hpowers : (2 : ℚ) ^ (1024 : Int) ≤ 10 ^ (310 : Int) := by exact_mod_cast hnat
    exact lt_irrefl _ ((hmore.trans_lt hhigh).trans_le hpowers)
  unfold ofDecimal
  rw [if_neg hdigits, if_neg hsmall, if_neg hlarge]
  split
  · next hexp =>
    obtain ⟨k, rfl⟩ := Int.eq_ofNat_of_zero_le hexp
    refine ofRatio_eq hfinite hzero (Nat.mul_ne_zero hdigits (hpos _)) (by decide) ?_
    simpa [hten] using h
  · next hexp =>
    obtain ⟨k, rfl⟩ : ∃ k : Nat, exponent = -(k : Int) := ⟨(-exponent).toNat, by omega⟩
    refine ofRatio_eq hfinite hzero hdigits (hpos _) ?_
    rw [neg_neg, Int.toNat_natCast, hten]
    rwa [zpow_neg, zpow_natCast, ← div_eq_mul_inv] at h

end SchemaEmbed.Binary64
