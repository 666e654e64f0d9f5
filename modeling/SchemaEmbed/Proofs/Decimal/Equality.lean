import SchemaEmbed.Proofs.Decimal.Range

namespace SchemaEmbed.Binary64

/-!
# Numeric equality

The comparison of two floating-point numbers is a comparison of bits with two exceptions, the zeros
and the values that are no number. Here it is given the meaning that a reader expects, equality of
rationals:

* `value` — the rational that a finite number is;
* `toRat_inj` — finite numbers of one absolute value have one magnitude;
* `Equals` — equality by value, which `sameNumber_iff` says is what `sameNumber` decides.

That a rational has one representation only is not read off the fields. It follows from rounding:
both numbers are what their common value is rounded to.
-/

/-- The rational that a finite number is. -/
def value (x : Binary64) : ℚ := if x.negative then -x.toRat else x.toRat

/-- **Numeric equality**: two finite numbers of one value, or one infinity twice. A NaN is left
    out of both cases, so it equals nothing. -/
def Equals (x y : Binary64) : Prop :=
  (x.isFinite = true ∧ y.isFinite = true ∧ x.value = y.value)
    ∨ (x = y ∧ x.isFinite = false ∧ x.isNaN = false)

/-! ### Absolute values

The significand and the scale of a number are not determined by its absolute value alone, since a
significand that is even could be halved. What fixes them is that a significand has 53 bits or its
scale is the smallest one, and that is what rounding knows.
-/

/-- A number lies strictly inside of its interval, so that it rounds to itself whether its
    significand is even or odd. -/
theorem roundsTo_toRat (x : Binary64) : x.RoundsTo x.toRat := by
  have hpos : (0 : ℚ) < 2 ^ (x.scale - 2) := by positivity
  have hgap := x.one_le_gapBelow
  have hrat : x.toRat = 4 * x.mantissa * 2 ^ (x.scale - 2) := by
    rw [toRat, two_zpow_eq_quarters]
    ring
  rw [RoundsTo, hrat]
  refine ⟨by nlinarith, by nlinarith, ?_⟩
  -- a number is at neither end of its interval
  rintro (h | h) <;> nlinarith

/-- The absolute value is zero for the two zeros and for no other finite number. -/
theorem toRat_eq_zero_iff {x : Binary64} (hfinite : x.isFinite = true) :
    x.toRat = 0 ↔ x.isZero = true := by
  constructor
  · intro h
    by_contra hzero
    obtain ⟨hm, -⟩ := parts_bounds hfinite (by simpa using hzero)
    have hm' : (0 : ℚ) < x.mantissa := by exact_mod_cast hm
    have hpos : 0 < x.toRat := by unfold toRat; positivity
    exact hpos.ne' h
  · intro h
    have hmantissa : x.mantissa = 0 := by
      simp only [isZero, beq_iff_eq] at h
      rw [mantissa, h, if_pos (by decide)]
    rw [toRat, hmantissa, Nat.cast_zero, zero_mul]

/-- **Finite numbers of one absolute value** and sign are the same: rounding the common value
    gives the one as well as the other. -/
theorem toRat_inj {x y : Binary64} (hx : x.isFinite = true) (hy : y.isFinite = true)
    (hzero : x.isZero = false) (hsign : x.negative = y.negative) (h : x.toRat = y.toRat) :
    x = y := by
  have hzero' : y.isZero = false := by
    rw [← Bool.not_eq_true, ← toRat_eq_zero_iff hy, ← h, toRat_eq_zero_iff hx, hzero]
    decide
  -- both are what the fraction `x` is rounded to
  obtain ⟨hd, hquot⟩ := shifted_spec x.mantissa x.scale
  have hrat : x.toRat = ((shifted x.mantissa x.scale).1 : ℚ) / (shifted x.mantissa x.scale).2 :=
    hquot.symm
  have hn : (shifted x.mantissa x.scale).1 ≠ 0 := by
    intro hn
    rw [hn, Nat.cast_zero, zero_div, toRat_eq_zero_iff hx, hzero] at hrat
    cases hrat
  have hofx := ofRatio_eq hx hzero hn hd.ne' (hrat ▸ roundsTo_toRat x)
  have hofy := ofRatio_eq hy hzero' hn hd.ne' (hrat ▸ h ▸ roundsTo_toRat y)
  rw [← hofx, hsign, hofy]

/-! ### Equality

On finite numbers `Equals` is an equivalence. It is not reflexive on all of them, so that a
document with a NaN in it is never up to date.
-/

/-- Finite numbers and the values that are no number lie on different sides of infinity. -/
theorem isNaN_of_isFinite {x : Binary64} (h : x.isFinite = true) : x.isNaN = false := by
  simp only [isFinite, isNaN, decide_eq_true_eq, decide_eq_false_iff_not] at h ⊢
  omega

/-- Absolute values are not negative. -/
theorem toRat_nonneg (x : Binary64) : 0 ≤ x.toRat := by
  unfold toRat
  positivity

/-- Finite numbers of one value are the same, or they are zeros, whose signs may differ. -/
theorem value_eq_iff {x y : Binary64} (hx : x.isFinite = true) (hy : y.isFinite = true) :
    x.value = y.value ↔ x = y ∨ x.isZero = true ∧ y.isZero = true := by
  have hnonneg := toRat_nonneg x
  have hnonneg' := toRat_nonneg y
  constructor
  · intro h
    -- numbers of unlike signs have one value only if both are zero
    have habs : x.toRat = y.toRat ∧ (x.negative = y.negative ∨ x.toRat = 0) := by
      unfold value at h
      cases hs : x.negative <;> cases ht : y.negative <;> simp only [hs, ht] at h ⊢ <;> grind
    by_cases hzero : x.isZero = true
    · exact .inr ⟨hzero, (toRat_eq_zero_iff hy).mp (habs.1 ▸ (toRat_eq_zero_iff hx).mpr hzero)⟩
    · refine .inl (toRat_inj hx hy (by simpa using hzero) ?_ habs.1)
      exact habs.2.resolve_right fun h => hzero ((toRat_eq_zero_iff hx).mp h)
  · rintro (rfl | ⟨hzx, hzy⟩)
    · rfl
    · rw [value, value, (toRat_eq_zero_iff hx).mpr hzx, (toRat_eq_zero_iff hy).mpr hzy, neg_zero,
        ite_self, ite_self]

/-- Zero is finite. -/
theorem isFinite_of_isZero {x : Binary64} (h : x.isZero = true) : x.isFinite = true := by
  simp only [isZero, beq_iff_eq] at h
  simp only [isFinite, h]
  decide

/-- **What `sameNumber` decides** is numeric equality. -/
theorem sameNumber_iff {x y : Binary64} : x.sameNumber y = true ↔ x.Equals y := by
  have hsame : x.sameNumber y = true ↔ x.isNaN = false ∧ y.isNaN = false
      ∧ (x = y ∨ x.isZero = true ∧ y.isZero = true) := by
    simp [sameNumber, and_assoc]
  rw [hsame]
  constructor
  · rintro ⟨hx, hy, h⟩
    by_cases hfinite : x.isFinite = true
    · have hfinite' : y.isFinite = true := by
        rcases h with rfl | ⟨-, hzero⟩
        · exact hfinite
        · exact isFinite_of_isZero hzero
      exact .inl ⟨hfinite, hfinite', (value_eq_iff hfinite hfinite').mpr h⟩
    · refine .inr ⟨h.resolve_right fun hzero => hfinite (isFinite_of_isZero hzero.1), ?_, hx⟩
      simpa using hfinite
  · rintro (⟨hx, hy, h⟩ | ⟨rfl, -, hx⟩)
    · exact ⟨isNaN_of_isFinite hx, isNaN_of_isFinite hy, (value_eq_iff hx hy).mp h⟩
    · exact ⟨hx, hx, .inl rfl⟩

namespace Equals

variable {x y z : Binary64}

/-- A finite number equals itself; a NaN does not. -/
theorem refl (h : x.isFinite = true) : x.Equals x := .inl ⟨h, h, rfl⟩

/-- Equality goes both ways. -/
theorem symm (h : x.Equals y) : y.Equals x := by
  rcases h with ⟨hx, hy, h⟩ | ⟨rfl, h⟩
  · exact .inl ⟨hy, hx, h.symm⟩
  · exact .inr ⟨rfl, h⟩

/-- Equality is transitive. The middle number settles which of the two cases it is, since it
    cannot be both finite and infinite. -/
theorem trans (hxy : x.Equals y) (hyz : y.Equals z) : x.Equals z := by
  rcases hxy with ⟨hx, hy, hxy⟩ | ⟨rfl, -⟩
  · rcases hyz with ⟨-, hz, hyz⟩ | ⟨rfl, hy', -⟩
    · exact .inl ⟨hx, hz, hxy.trans hyz⟩
    · rw [hy] at hy'
      cases hy'
  · exact hyz

end Equals

end SchemaEmbed.Binary64
