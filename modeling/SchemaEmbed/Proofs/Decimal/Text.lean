import SchemaEmbed.Decimal.Layout
import SchemaEmbed.Proofs.Decimal.Shortest
import SchemaEmbed.Proofs.Json.Numeral

namespace SchemaEmbed

/-!
# The text of a floating-point number

Three formats write floating-point numbers and three readers take them up. Between the two stands
one notion, a decimal text in its parts, so that the layouts are proved once and each reader once:

* `Numeral` — a decimal text in its parts;
* `Numeral.Valid` — what every reader of decimals asks for: a digit before the point, no zero that
  says nothing, and a fraction or an exponent;
* `Numeral.Valid.chars_inj` — a numeral is told by its text;
* `FloatLayout.renderChars_spec` — the text of a finite number is the sign and a valid numeral that
  rounds to the number.

What a reader then has to do is to find the parts again and to round; no reader is asked about
layouts.
-/

/-! ### Digits

The value of digits is `Nat.ofDigitChars`, which reads from the left onto what has been read
before. Readers differ in how many digits they look at, and the bound below is what lets them stop
early.
-/

/-- The value of digits is below the power of ten that their count gives, times one more than
    what was read before them. -/
theorem ofDigitChars_lt {ds : List Char} (hds : ∀ c ∈ ds, c.isDigit = true) (init : Nat) :
    Nat.ofDigitChars 10 ds init < (init + 1) * 10 ^ ds.length := by
  induction ds generalizing init with
  | nil => simp
  | cons c ds ih =>
    obtain ⟨hc, hrest⟩ := List.forall_mem_cons.mp hds
    have hdigit : c.toNat - '0'.toNat ≤ 9 := by
      simp only [Char.isDigit, Bool.and_eq_true, decide_eq_true_eq] at hc
      have hle : c.toNat ≤ '9'.toNat := hc.2
      have hnine : '9'.toNat = 57 := rfl
      have hzero : '0'.toNat = 48 := rfl
      omega
    rw [Nat.ofDigitChars_cons, List.length_cons, Nat.pow_succ]
    calc _ < (10 * init + (c.toNat - '0'.toNat) + 1) * 10 ^ ds.length := ih hrest _
      _ ≤ ((init + 1) * 10) * 10 ^ ds.length := Nat.mul_le_mul_right _ (by omega)
      _ = (init + 1) * (10 ^ ds.length * 10) := by ring

/-- Zeros before digits say nothing. -/
theorem ofDigitChars_dropWhile (ds : List Char) :
    Nat.ofDigitChars 10 (ds.dropWhile (· == '0')) 0 = Nat.ofDigitChars 10 ds 0 := by
  induction ds with
  | nil => rfl
  | cons c ds ih =>
    rw [List.dropWhile_cons]
    split
    · next hc =>
      have hzero : c = '0' := by simpa using hc
      rw [ih, hzero, Nat.ofDigitChars_cons]
      rfl
    · rfl

/-! ### Numerals

A numeral is kept as text in three parts, not as a number: `1.50` and `1.5` are two numerals of one
value. Which of the texts of a value is written is a matter of the layout.
-/

/-- A decimal text in its parts. -/
structure Numeral where
  /-- The digits before the point. -/
  whole : List Char
  /-- The digits after the point, without which there is no point. -/
  fraction : List Char
  /-- The power of ten behind the digits. -/
  exponent : Option Int

namespace Numeral

/-- The text of the exponent: its mark, its sign, which may be left out if it is a plus, and its
    digits. -/
def exponentChars (plus : Bool) : Option Int → List Char
  | none => []
  | some e =>
    'e' :: (if e < 0 then ['-'] else if plus then ['+'] else []) ++ FloatLayout.digits e.natAbs

/-- The text of the fraction with its point, nothing at all if there is no fraction. -/
def fractionChars (fraction : List Char) : List Char :=
  if fraction.isEmpty then [] else '.' :: fraction

/-- The text, where `plus` tells whether a positive exponent has its sign. -/
def chars (plus : Bool) (n : Numeral) : List Char :=
  n.whole ++ fractionChars n.fraction ++ exponentChars plus n.exponent

/-- All digits. -/
def digits (n : Numeral) : List Char := n.whole ++ n.fraction

/-- The digits as a natural. -/
def significand (n : Numeral) : Nat := Nat.ofDigitChars 10 n.digits 0

/-- The power of ten that belongs to the last digit: the exponent, less one for each digit behind
    the point. -/
def scale (n : Numeral) : Int := n.exponent.getD 0 - n.fraction.length

/-- How many digits count, that is, all from the first one that is not a zero. -/
def width (n : Numeral) : Nat := (n.digits.dropWhile (· == '0')).length

/-- The rational. -/
def toRat (n : Numeral) : ℚ := n.significand * 10 ^ n.scale

/-- What every reader of decimals asks for. A text that lacks a fraction and an exponent would be
    read as an integer. -/
structure Valid (n : Numeral) : Prop where
  digits : ∀ c ∈ n.digits, c.isDigit = true
  whole_ne_nil : n.whole ≠ []
  /-- A zero at the head stands alone. -/
  not_padded : n.whole = ['0'] ∨ n.whole.head? ≠ some '0'
  /-- The text is not that of an integer. -/
  not_integer : n.fraction ≠ [] ∨ n.exponent.isSome = true

/-- The digits that count give a bound of their value, as `ofDecimal` wants it of the width it is
    told. -/
theorem Valid.significand_lt {n : Numeral} (hn : n.Valid) : n.significand < 10 ^ n.width := by
  have hdigits (c : Char) (hc : c ∈ n.digits.dropWhile (· == '0')) : c.isDigit = true :=
    hn.digits c ((List.dropWhile_sublist _).mem hc)
  have hlt := ofDigitChars_lt hdigits 0
  rw [ofDigitChars_dropWhile] at hlt
  simpa [significand, width] using hlt

end Numeral

namespace Numeral

variable {n : Numeral}

/-- The mark of an exponent, of either case. -/
def isMark (c : Char) : Bool := c == 'e' || c == 'E'

/-- The characters before the exponent are digits and a point, so none of them is the mark of an
    exponent. -/
theorem Valid.mem_mantissa (hn : n.Valid) {c : Char}
    (hc : c ∈ n.whole ++ fractionChars n.fraction) : c.isDigit = true ∨ c = '.' := by
  rw [List.mem_append] at hc
  rcases hc with hc | hc
  · exact .inl (hn.digits c (List.mem_append_left _ hc))
  · unfold fractionChars at hc
    split at hc
    · cases hc
    · rcases List.mem_cons.mp hc with rfl | hc
      · exact .inr rfl
      · exact .inl (hn.digits c (List.mem_append_right _ hc))

/-- Neither a digit nor a point is the mark of an exponent. -/
theorem isMark_of_digit {c : Char} (h : c.isDigit = true ∨ c = '.') : isMark c = false := by
  rcases h with h | rfl
  · have hne : c ≠ 'e' ∧ c ≠ 'E' := by
      constructor <;> rintro rfl <;> cases h
    simp [isMark, hne]
  · rfl

/-- The text is split at the mark of the exponent: before it stands the mantissa, and what
    follows is the text of the exponent. -/
theorem Valid.span_mark (hn : n.Valid) (plus : Bool) :
    (n.chars plus).takeWhile (! isMark ·) = n.whole ++ fractionChars n.fraction
      ∧ (n.chars plus).dropWhile (! isMark ·) = exponentChars plus n.exponent := by
  have hmantissa : ∀ c ∈ n.whole ++ fractionChars n.fraction, (! isMark c) = true := fun c hc => by
    rw [isMark_of_digit (hn.mem_mantissa hc)]
    rfl
  have hend : (exponentChars plus n.exponent).takeWhile (! isMark ·) = []
      ∧ (exponentChars plus n.exponent).dropWhile (! isMark ·) = exponentChars plus n.exponent := by
    cases n.exponent with
    | none => exact ⟨rfl, rfl⟩
    | some e => exact ⟨rfl, rfl⟩
  unfold chars
  rw [List.takeWhile_append_of_pos hmantissa, List.dropWhile_append_of_pos hmantissa, hend.1,
    hend.2, List.append_nil]
  exact ⟨rfl, rfl⟩

/-- What is before the exponent is split at the point, before which only digits stand. -/
theorem Valid.span_point (hn : n.Valid) :
    (n.whole ++ fractionChars n.fraction).takeWhile (· != '.') = n.whole
      ∧ (n.whole ++ fractionChars n.fraction).dropWhile (· != '.') = fractionChars n.fraction := by
  have hwhole : ∀ c ∈ n.whole, (c != '.') = true := fun c hc => by
    have hdigit := hn.digits c (List.mem_append_left _ hc)
    have hne : c ≠ '.' := by
      rintro rfl
      cases hdigit
    simpa using hne
  have hend : (fractionChars n.fraction).takeWhile (· != '.') = []
      ∧ (fractionChars n.fraction).dropWhile (· != '.') = fractionChars n.fraction := by
    unfold fractionChars
    split <;> exact ⟨rfl, rfl⟩
  rw [List.takeWhile_append_of_pos hwhole, List.dropWhile_append_of_pos hwhole, hend.1, hend.2,
    List.append_nil]
  exact ⟨rfl, rfl⟩

/-- The text of the fraction tells it, since a fraction that is written has digits. -/
theorem fractionChars_inj {fraction fraction' : List Char}
    (h : fractionChars fraction = fractionChars fraction') : fraction = fraction' := by
  unfold fractionChars at h
  split at h <;> split at h
  · simp_all
  · cases h
  · cases h
  · exact (List.cons.inj h).2

/-- The text of the exponent tells it: its sign stands before the digits, and the digits of a
    natural tell the natural. -/
theorem exponentChars_inj {plus : Bool} {e e' : Option Int}
    (h : exponentChars plus e = exponentChars plus e') : e = e' := by
  cases e with
  | none =>
    cases e' with
    | none => rfl
    | some e' => cases h
  | some e =>
    cases e' with
    | none => cases h
    | some e' =>
      -- the sign is what stands before the digits, and a minus is none but a minus
      have hsplit (e : Int) : ((exponentChars plus (some e)).tail.takeWhile (! ·.isDigit)
            = if e < 0 then ['-'] else if plus then ['+'] else [])
          ∧ (exponentChars plus (some e)).tail.dropWhile (! ·.isDigit)
            = FloatLayout.digits e.natAbs := by
        obtain ⟨c, ds, hds, hc, -⟩ := Json.toDigits_head e.natAbs
        have hc' : c.isDigit = true :=
          Nat.isDigit_of_mem_toDigits (by decide) (by decide) (hds ▸ List.mem_cons_self)
        have hminus : '-'.isDigit = false := by decide
        have hplus : '+'.isDigit = false := by decide
        simp only [exponentChars, FloatLayout.digits, hds]
        split
        · simp [hc', hminus]
        · cases plus <;> simp [hc', hplus]
      obtain ⟨hsign, hdigits⟩ := hsplit e
      obtain ⟨hsign', hdigits'⟩ := hsplit e'
      rw [h, hsign'] at hsign
      rw [h, hdigits'] at hdigits
      have habs : e'.natAbs = e.natAbs := by
        have hvalue := congrArg (Nat.ofDigitChars 10 · 0) hdigits
        simpa only [FloatLayout.digits, Nat.ofDigitChars_ten_toDigits] using hvalue
      have hminus (e : Int) :
          (if e < 0 then ['-'] else if plus then ['+'] else []) = ['-'] ↔ e < 0 := by
        split
        · next he => exact iff_of_true rfl he
        · next he => exact iff_of_false (by cases plus <;> decide) he
      have hneg : e' < 0 ↔ e < 0 := by rw [← hminus e', ← hminus e, hsign]
      exact congrArg some (by omega)

/-- **The text of a numeral tells it.** Splitting at the mark and then at the point gives the
    parts back. -/
theorem Valid.chars_inj {n n' : Numeral} (hn : n.Valid) (hn' : n'.Valid) {plus : Bool}
    (h : n.chars plus = n'.chars plus) : n = n' := by
  obtain ⟨hmantissa, hexponent⟩ := hn.span_mark plus
  obtain ⟨hmantissa', hexponent'⟩ := hn'.span_mark plus
  rw [h, hmantissa'] at hmantissa
  rw [h, hexponent'] at hexponent
  obtain ⟨hwhole, hfraction⟩ := hn.span_point
  obtain ⟨hwhole', hfraction'⟩ := hn'.span_point
  rw [← hmantissa, hwhole'] at hwhole
  rw [← hmantissa, hfraction'] at hfraction
  obtain ⟨whole, fraction, exponent⟩ := n
  obtain ⟨whole', fraction', exponent'⟩ := n'
  dsimp only at hwhole hfraction hexponent
  rw [hwhole, fractionChars_inj hfraction, exponentChars_inj hexponent]

/-- The text begins with a digit, so a reader is in its number branch at once or after a minus
    sign. -/
theorem Valid.head_chars (hn : n.Valid) (plus : Bool) :
    ∃ c rest, n.chars plus = c :: rest ∧ c.isDigit = true := by
  obtain ⟨c, rest, hwhole⟩ := List.exists_cons_of_ne_nil hn.whole_ne_nil
  refine ⟨c, rest ++ fractionChars n.fraction ++ exponentChars plus n.exponent, ?_, ?_⟩
  · simp [chars, hwhole]
  · exact hn.digits c (by simp [Numeral.digits, hwhole])

/-- Somewhere in the text there is a point or the mark of an exponent, by which a reader knows
    that it is no integer. -/
theorem Valid.mem_chars (hn : n.Valid) (plus : Bool) :
    '.' ∈ n.chars plus ∨ 'e' ∈ n.chars plus := by
  rcases hn.not_integer with h | h
  · left
    have : fractionChars n.fraction = '.' :: n.fraction := by simp [fractionChars, h]
    simp [chars, this]
  · right
    obtain ⟨e, he⟩ := Option.isSome_iff_exists.mp h
    simp [chars, he, exponentChars]

/-- Digits, a point, the mark of an exponent and its signs are all the characters of the text. -/
theorem Valid.of_mem_chars (hn : n.Valid) {plus : Bool} {c : Char} (hc : c ∈ n.chars plus) :
    c.isDigit = true ∨ c ∈ ['.', 'e', '-', '+'] := by
  rcases List.mem_append.mp hc with hc | hc
  · rcases hn.mem_mantissa hc with h | rfl
    · exact .inl h
    · exact .inr (by decide)
  · cases he : n.exponent with
    | none => rw [he] at hc; cases hc
    | some e =>
      rw [he] at hc
      simp only [exponentChars, List.mem_append, List.mem_cons] at hc
      rcases hc with (rfl | hc) | hc
      · exact .inr (by decide)
      · right
        split at hc
        · simp only [List.mem_singleton] at hc
          simp [hc]
        · split at hc
          · simp only [List.mem_singleton] at hc
            simp [hc]
          · cases hc
      · exact .inl (Nat.isDigit_of_mem_toDigits (by decide) (by decide) hc)

end Numeral

/-! ### Layouts

A layout puts digits around a point or gives them an exponent. Either way the digits are those of
the shortest decimal, possibly with zeros at one end, and the value is unchanged.
-/

namespace FloatLayout

variable {ds : List Char}

/-- Zeros are digits. -/
theorem isDigit_zeros (k : Nat) : ∀ c ∈ List.replicate k '0', c.isDigit = true := by
  intro c hc
  rw [List.eq_of_mem_replicate hc]
  rfl

/-- A numeral has the value and the layout of digits with the point at a place. -/
structure IsPointed (ds : List Char) (place : Int) (n : Numeral) : Prop where
  valid : n.Valid
  exponent : n.exponent = none
  chars (plus : Bool) : point ds place = n.chars plus
  toRat : n.toRat = Nat.ofDigitChars 10 ds 0 * (10 : ℚ) ^ (place - ds.length)

/-- All digits behind the point: a zero stands before it, and `k` zeros fill the gap. -/
theorem isPointed_behind (hds : ∀ c ∈ ds, c.isDigit = true) (hne : ds ≠ []) (k : Nat) :
    IsPointed ds (-(k : Int)) ⟨['0'], List.replicate k '0' ++ ds, none⟩ := by
  have hdigits : ∀ c ∈ ['0'] ++ (List.replicate k '0' ++ ds), c.isDigit = true := by
    simp only [List.mem_append, List.mem_singleton]
    rintro c (rfl | hc | hc)
    · rfl
    · exact isDigit_zeros k c hc
    · exact hds c hc
  -- zeros before the digits do not count
  have hvalue : Nat.ofDigitChars 10 (['0'] ++ (List.replicate k '0' ++ ds)) 0
      = Nat.ofDigitChars 10 ds 0 := by
    rw [Nat.ofDigitChars_append, Nat.ofDigitChars_append, Nat.ofDigitChars_replicate_zero]
    rfl
  refine ⟨⟨hdigits, by simp, .inl rfl, .inl (by simp [hne])⟩, rfl, fun plus => ?_, ?_⟩
  · unfold point
    rw [if_pos (by omega)]
    simp [Numeral.chars, Numeral.exponentChars, Numeral.fractionChars, hne]
  · simp only [Numeral.toRat, Numeral.significand, Numeral.digits, Numeral.scale, hvalue]
    congr 2
    simp
    ring

/-- All digits before the point: `k` zeros follow them, and one more behind the point. -/
theorem isPointed_before (hds : ∀ c ∈ ds, c.isDigit = true) (hne : ds ≠ [])
    (hhead : ds.head? ≠ some '0') (k : Nat) :
    IsPointed ds (ds.length + k) ⟨ds ++ List.replicate k '0', ['0'], none⟩ := by
  have hlength : 0 < ds.length := List.length_pos_of_ne_nil hne
  have hdigits : ∀ c ∈ ds ++ List.replicate k '0' ++ ['0'], c.isDigit = true := by
    simp only [List.mem_append, List.mem_singleton]
    rintro c ((hc | hc) | rfl)
    · exact hds c hc
    · exact isDigit_zeros k c hc
    · rfl
  have hhead' : (ds ++ List.replicate k '0').head? ≠ some '0' := by
    rwa [List.head?_append_of_ne_nil _ hne]
  -- the zero behind the point makes one power of ten too many, which the scale takes back
  have hvalue : Nat.ofDigitChars 10 (ds ++ List.replicate k '0' ++ ['0']) 0
      = 10 ^ (k + 1) * Nat.ofDigitChars 10 ds 0 := by
    have hsnoc : List.replicate k '0' ++ ['0'] = List.replicate (k + 1) '0' :=
      (List.replicate_succ' ..).symm
    rw [List.append_assoc, hsnoc, Nat.ofDigitChars_append, Nat.ofDigitChars_replicate_zero]
  refine ⟨⟨hdigits, by simp [hne], .inr hhead', .inl (by simp)⟩, rfl, fun plus => ?_, ?_⟩
  · unfold point
    have hk : ((ds.length : Int) + k).toNat - ds.length = k := by omega
    rw [if_neg (by omega), if_pos (by omega), hk]
    simp [Numeral.chars, Numeral.exponentChars, Numeral.fractionChars]
  · simp only [Numeral.toRat, Numeral.significand, Numeral.digits, Numeral.scale, hvalue]
    have hplace : (ds.length : Int) + k - ds.length = k := by omega
    rw [hplace]
    push_cast
    simp only [List.length_singleton, Option.getD_none, Nat.cast_one, zpow_natCast]
    rw [show (0 : Int) - 1 = -1 by norm_num, zpow_neg_one, pow_succ]
    field_simp

/-- The point among the digits splits them. -/
theorem isPointed_among (hds : ∀ c ∈ ds, c.isDigit = true) (hhead : ds.head? ≠ some '0') {k : Nat}
    (hpos : 0 < k) (hk : k < ds.length) : IsPointed ds k ⟨ds.take k, ds.drop k, none⟩ := by
  have hdrop : ds.drop k ≠ [] := by
    rw [Ne, List.drop_eq_nil_iff]
    omega
  have htake : ds.take k ≠ [] := by
    rw [Ne, List.take_eq_nil_iff, not_or]
    exact ⟨by omega, List.ne_nil_of_length_pos (by omega)⟩
  have hhead' : (ds.take k).head? ≠ some '0' := by
    rwa [List.head?_take, if_neg (by omega)]
  refine ⟨⟨?_, htake, .inr hhead', .inl hdrop⟩, rfl, fun plus => ?_, ?_⟩
  · simpa [Numeral.digits] using hds
  · unfold point
    rw [if_neg (by omega), if_neg (by omega), Int.toNat_natCast]
    simp [Numeral.chars, Numeral.exponentChars, Numeral.fractionChars, hdrop]
  · simp only [Numeral.toRat, Numeral.significand, Numeral.digits, Numeral.scale,
      List.take_append_drop, List.length_drop, Option.getD_none]
    congr 2
    omega

/-- **Digits around a point** are a numeral of the same value, wherever the point is. -/
theorem point_spec (hds : ∀ c ∈ ds, c.isDigit = true) (hne : ds ≠ [])
    (hhead : ds.head? ≠ some '0') (place : Int) : ∃ n, IsPointed ds place n := by
  by_cases hlow : place ≤ 0
  · obtain ⟨k, rfl⟩ : ∃ k : Nat, place = -(k : Int) := ⟨(-place).toNat, by omega⟩
    exact ⟨_, isPointed_behind hds hne k⟩
  by_cases hhigh : (ds.length : Int) ≤ place
  · obtain ⟨k, rfl⟩ : ∃ k : Nat, place = ds.length + k := ⟨(place - ds.length).toNat, by omega⟩
    exact ⟨_, isPointed_before hds hne hhead k⟩
  · obtain ⟨k, rfl⟩ : ∃ k : Nat, place = k := ⟨place.toNat, by omega⟩
    exact ⟨_, isPointed_among hds hhead (by omega) (by omega)⟩

/-- **Digits with an exponent** are a numeral of the same value, of which one digit stands before
    the point. -/
theorem scientific_spec (hds : ∀ c ∈ ds, c.isDigit = true) (hne : ds ≠ [])
    (hhead : ds.head? ≠ some '0') (plus : Bool) (place : Int) :
    ∃ n : Numeral, n.Valid ∧ scientific plus ds place = n.chars plus
      ∧ n.toRat = Nat.ofDigitChars 10 ds 0 * (10 : ℚ) ^ (place - ds.length) := by
  obtain ⟨d, rest, rfl⟩ := List.exists_cons_of_ne_nil hne
  have hmark : (if place - 1 < 0 then ['e', '-'] else if plus then ['e', '+'] else ['e'])
      ++ FloatLayout.digits (place - 1).natAbs
      = Numeral.exponentChars plus (some (place - 1)) := by
    simp only [Numeral.exponentChars]
    split
    · rfl
    · cases plus <;> rfl
  refine ⟨⟨[d], rest, some (place - 1)⟩, ⟨hds, by simp, ?_, .inr rfl⟩, ?_, ?_⟩
  · exact .inr hhead
  · unfold scientific Numeral.chars
    dsimp only
    rw [List.append_assoc, hmark]
    cases rest <;> rfl
  · simp only [Numeral.toRat, Numeral.significand, Numeral.digits, Numeral.scale,
      List.singleton_append, Option.getD_some, List.length_cons]
    congr 2
    push_cast
    ring

/-- **The text of a finite number** is the sign and a valid numeral that reads back. It has
    an exponent only if the layout is not positional there. -/
theorem renderChars_spec (l : FloatLayout) {x : Binary64} (hfinite : x.isFinite = true) :
    ∃ n : Numeral, n.Valid
      ∧ l.renderChars x = (if x.negative then ['-'] else []) ++ n.chars l.plus
      ∧ ((∀ place, l.positional place = true) → n.exponent = none)
      ∧ Binary64.ofDecimal x.negative n.significand n.width n.scale = x := by
  by_cases hzero : x.isZero = true
  · refine ⟨⟨['0'], ['0'], none⟩, ⟨List.all_eq_true.mp rfl, by decide, by decide, by decide⟩, ?_,
      fun _ => rfl, ?_⟩
    · unfold renderChars
      rw [hzero]
      rfl
    · have hmagnitude : x.magnitude = ⟨0, by decide⟩ := by
        apply Fin.ext
        simpa [Binary64.isZero] using hzero
      show Binary64.ofDecimal x.negative 0 0 (-1) = x
      unfold Binary64.ofDecimal Binary64.zero
      rw [if_pos rfl, ← hmagnitude]
  · have hzero' : x.isZero = false := by simpa using hzero
    have hround := Decimal.shortest_roundsTo hfinite hzero'
    have hpos := (hround.bounds hfinite hzero').1
    unfold renderChars
    rw [hzero']
    simp only [Bool.false_eq_true, ↓reduceIte]
    generalize Decimal.shortest x = d at hround hpos ⊢
    -- a number other than zero has a digit other than zero at its head
    have hne : d.significand ≠ 0 := by
      intro h
      rw [Decimal.toRat, h, Nat.cast_zero, zero_mul] at hpos
      have htwo : (0 : ℚ) < 2 ^ (-1075 : Int) := by positivity
      exact absurd hpos (not_le.mpr htwo)
    obtain ⟨c, cs, hcs, -, hc⟩ := Json.toDigits_head d.significand
    have hds : ∀ a ∈ digits d.significand, a.isDigit = true := fun a ha =>
      Nat.isDigit_of_mem_toDigits (by decide) (by decide) ha
    have hnil : digits d.significand ≠ [] := by simp [digits, hcs]
    have hhead : (digits d.significand).head? ≠ some '0' := by simp [digits, hcs, hc hne]
    have hvalue : Nat.ofDigitChars 10 (digits d.significand) 0 = d.significand :=
      Nat.ofDigitChars_ten_toDigits
    have hread {n : Numeral} (hn : n.Valid) (hsame : n.toRat = d.toRat) :
        Binary64.ofDecimal x.negative n.significand n.width n.scale = x :=
      Binary64.ofDecimal_eq hfinite hzero' hn.significand_lt
        (by rw [← hsame] at hround; exact hround)
    generalize hplace : ((digits d.significand).length : Int) + d.exponent = place
    have hexponent : place - (digits d.significand).length = d.exponent := by omega
    by_cases hpositional : l.positional place = true
    · obtain ⟨n, hn, hnone, hpoint, hsame⟩ := point_spec hds hnil hhead place
      rw [hvalue, hexponent] at hsame
      exact ⟨n, hn, by rw [if_pos hpositional, hpoint], fun _ => hnone, hread hn hsame⟩
    · obtain ⟨n, hn, hscientific, hsame⟩ := scientific_spec hds hnil hhead l.plus place
      rw [hvalue, hexponent] at hsame
      exact ⟨n, hn, by rw [if_neg hpositional, hscientific],
        fun hall => absurd (hall _) hpositional, hread hn hsame⟩

end FloatLayout

end SchemaEmbed
