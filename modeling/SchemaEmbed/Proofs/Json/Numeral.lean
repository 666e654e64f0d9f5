import SchemaEmbed.Json.Numeral

namespace SchemaEmbed.Json

/-!
# JSON integers are read as they were written

Integers of 64 bits, signed or not, have to survive the round trip exactly, while everything else
that looks like a number becomes a float. The reader decides this by the size of the significand
that it gathered, and by what comes after it.

* `Ends` — what may follow a number;
* `gather_digits` — digits are gathered up to the first character that is none;
* `numeral_toDigits` — a whole number within the significand is read as an integer, and a negative
  one if it is in range;
* `numeral_yieldsNumber` — no integer out of range is read from any text.

The last one needs a lemma for each of the readers that `numeral` calls, in the order in which they
call each other: all but one of them only make floats.
-/

/-- Whether a number ends before a text: nothing in it would continue the number. -/
def Ends (rest : List Char) : Prop :=
  ∀ c ∈ rest.head?, isDigit c = false ∧ c ≠ '.' ∧ c ≠ 'e' ∧ c ≠ 'E'

/-! ### Digits -/

/-- The digits of this reader are those of the core library. -/
theorem isDigit_of_isDigit {c : Char} (h : c.isDigit = true) : isDigit c = true := by
  simp only [Char.isDigit, Bool.and_eq_true, decide_eq_true_eq] at h
  simp only [isDigit, Bool.and_eq_true, decide_eq_true_eq]
  exact h

/-- The decimal text of a number consists of digits. -/
theorem isDigit_of_mem_toDigits {n : Nat} {c : Char} (h : c ∈ Nat.toDigits 10 n) :
    isDigit c = true :=
  isDigit_of_isDigit (Nat.isDigit_of_mem_toDigits (by decide) (by decide) h)

/-- The text of a number begins with a digit, which is not zero unless the number is: no number
    is written with a zero in front. -/
theorem toDigits_head (n : Nat) :
    ∃ c ds, Nat.toDigits 10 n = c :: ds ∧ isDigit c = true ∧ (n ≠ 0 → c ≠ '0') := by
  induction n using Nat.strongRecOn with
  | ind n ih =>
    by_cases h : n < 10
    · have hall : ∀ m < 10, isDigit m.digitChar = true ∧ (m ≠ 0 → m.digitChar ≠ '0') := by decide
      exact ⟨n.digitChar, [], Nat.toDigits_of_lt_base h, hall n h⟩
    · obtain ⟨c, ds, hds, hc, hne⟩ := ih (n / 10) (by omega)
      refine ⟨c, ds ++ [(n % 10).digitChar], ?_, hc, fun _ => hne (by omega)⟩
      rw [Nat.toDigits_of_base_le (by decide) (by omega), hds, List.cons_append]

/-- Digits that are appended to a number make it no smaller. -/
theorem le_ofDigitChars (ds : List Char) (init : Nat) : init ≤ Nat.ofDigitChars 10 ds init := by
  rw [Nat.ofDigitChars_eq_ofDigitChars_zero]
  have hpos : 0 < 10 ^ ds.length := Nat.pow_pos (by decide)
  calc init ≤ 10 ^ ds.length * init := Nat.le_mul_of_pos_left init hpos
    _ ≤ _ := Nat.le_add_right _ _

/-- **Digits are gathered** up to the first character that is none. -/
theorem gather_digits {limit : Nat} {ds : List Char} (hds : ∀ c ∈ ds, isDigit c = true)
    {init : Nat} (hlimit : Nat.ofDigitChars 10 ds init ≤ limit) (count : Nat)
    {rest : List Char} (hrest : Ends rest) :
    gather limit init count (ds ++ rest)
      = ⟨Nat.ofDigitChars 10 ds init, count + ds.length, rest⟩ := by
  induction ds generalizing init count with
  | nil =>
    cases rest with
    | nil => simp [gather]
    | cons c rest =>
      have hc := (hrest c rfl).1
      simp [gather, hc]
  | cons c ds ih =>
    have hc := hds c List.mem_cons_self
    have hinit : init * 10 + digitValue c = 10 * init + (c.toNat - '0'.toNat) := by
      rw [Nat.mul_comm]
      rfl
    rw [Nat.ofDigitChars_cons, ← hinit] at hlimit ⊢
    -- the digits so far are within the limit because all of them are
    have hle := Nat.le_trans (le_ofDigitChars ds _) hlimit
    rw [List.cons_append, gather, if_pos hc, if_pos hle,
      ih (fun d hd => hds d (List.mem_cons_of_mem _ hd)) hlimit]
    rw [List.length_cons, show count + 1 + ds.length = count + (ds.length + 1) by omega]

/-! ### Numbers -/

/-- A whole part after which the number ends is an integer, if a negative one is in range and not
    zero. -/
theorem afterWhole_ends {negative : Bool} {n : Nat} {rest : List Char} (hrest : Ends rest)
    (hn : negative = true → 1 ≤ n ∧ Number.minInt ≤ -(n : Int)) :
    afterWhole negative n rest = .ok (.int (if negative then -(n : Int) else n), rest) := by
  have hint : (if ¬ negative = true then Except.ok (Number.int n, rest)
      else if 1 ≤ n ∧ Number.minInt ≤ -(n : Int) then .ok (.int (-n), rest)
      else .ok (.float { Binary64.ofNat n with negative := true }, rest) :
        Except Fault (Number × List Char))
      = .ok (.int (if negative then -(n : Int) else n), rest) := by
    cases negative
    · simp
    · simp [hn rfl]
  cases rest with
  | nil => exact hint
  | cons c rest =>
    obtain ⟨-, hdot, he, hE⟩ := hrest c rfl
    -- neither a fraction nor an exponent follows
    unfold afterWhole
    split
    · next heq => exact absurd (List.cons.inj heq).1 hdot
    · next heq => exact absurd (List.cons.inj heq).1 he
    · next heq => exact absurd (List.cons.inj heq).1 hE
    · exact hint

/-- **A whole number** is read as it was written, and what follows it is left. -/
theorem numeral_toDigits {negative : Bool} {n : Nat} (hmax : n ≤ maxSignificand)
    (hn : negative = true → 1 ≤ n ∧ Number.minInt ≤ -(n : Int)) {rest : List Char}
    (hrest : Ends rest) :
    numeral negative (Nat.toDigits 10 n ++ rest)
      = .ok (.int (if negative then -(n : Int) else n), rest) := by
  rw [← afterWhole_ends hrest hn]
  by_cases hzero : n = 0
  · subst hzero
    rw [Nat.toDigits_zero]
    cases rest with
    | nil => rfl
    | cons c rest =>
      have hc := (hrest c rfl).1
      simp [numeral, hc]
  · obtain ⟨c, ds, hds, hc, hne⟩ := toDigits_head n
    have hgather : gather maxSignificand 0 0 (Nat.toDigits 10 n ++ rest)
        = ⟨n, 0 + (Nat.toDigits 10 n).length, rest⟩ := by
      have hvalue : Nat.ofDigitChars 10 (Nat.toDigits 10 n) 0 = n :=
        Nat.ofDigitChars_ten_toDigits
      rw [gather_digits (fun d hd => isDigit_of_mem_toDigits hd) (by rw [hvalue]; exact hmax) 0
        hrest, hvalue]
    have hexcess : rest.takeWhile isDigit = [] := by
      cases rest with
      | nil => rfl
      | cons d rest => rw [List.takeWhile_cons, (hrest d rfl).1]; rfl
    rw [hds, List.cons_append] at hgather ⊢
    -- the text does not begin with zero, so all its digits are gathered at once
    have hc0 := hne hzero
    unfold numeral
    split
    · next heq => cases heq
    · next heq => exact absurd (List.cons.inj heq).1 hc0
    · next heq => exact absurd (List.cons.inj heq).1 hc0
    · next c' rest' heq =>
      obtain ⟨rfl, rfl⟩ := List.cons.inj heq
      simp only [hc, hgather, hexcess, ↓reduceIte, List.isEmpty_nil]

/-- The text of an integer: its digits, after a minus if it is negative. -/
theorem toList_toString_int (i : Int) :
    (toString i).toList
      = if i < 0 then '-' :: Nat.toDigits 10 i.natAbs else Nat.toDigits 10 i.natAbs := by
  cases i with
  | ofNat n =>
    have hn : ¬ Int.ofNat n < 0 := Int.not_lt.mpr (Int.natCast_nonneg n)
    rw [if_neg hn]
    exact Nat.toList_repr
  | negSucc n =>
    rw [if_pos (Int.negSucc_lt_zero n)]
    show ("-" ++ (n + 1).repr).toList = _
    rw [String.toList_append, Nat.toList_repr]
    rfl

/-! ### What numbers are read

An integer is made in one place only, from a significand that has been found in range. All the
other places make floats or fail.
-/

/-- Whether every number that is read is an integer in range or a float. -/
def YieldsNumber (r : Except Fault (Number × List Char)) : Prop :=
  ∀ i rest, r = .ok (.int i, rest) → Number.minInt ≤ i ∧ i ≤ Number.maxInt

/-- What is gathered stays within the limit, since a digit that would exceed it is left. -/
theorem gather_le {limit init : Nat} (h : init ≤ limit) (count : Nat) (s : List Char) :
    (gather limit init count s).significand ≤ limit := by
  induction s generalizing init count with
  | nil => exact h
  | cons c s ih =>
    rw [gather]
    split
    · split
      · next hle => exact ih hle (count + 1)
      · exact h
    · exact h

/-- A reading that fails yields no integer out of range. -/
theorem yieldsNumber_error (f : Fault) : YieldsNumber (.error f) := fun _ _ h => by cases h

/-- A float is no integer, and so not one out of range. -/
theorem yieldsNumber_float (x : Binary64) (rest : List Char) :
    YieldsNumber (.ok (.float x, rest)) :=
  fun _ _ h => by cases h

/-- If either of two readings yields numbers only, so does the one that is taken. -/
theorem yieldsNumber_ite {r r' : Except Fault (Number × List Char)} (p : Prop) [Decidable p]
    (h : YieldsNumber r) (h' : YieldsNumber r') : YieldsNumber (if p then r else r') := by
  split
  · exact h
  · exact h'

/-- A significand that is scaled by a power of ten is a float. -/
theorem floatOf_yieldsNumber (negative : Bool) (significand : Nat) (exponent : Int)
    (rest : List Char) : YieldsNumber (floatOf negative significand exponent rest) := by
  unfold floatOf
  split
  · exact yieldsNumber_float _ _
  · exact yieldsNumber_error _

/-- A number with an exponent is a float. -/
theorem exponentPart_yieldsNumber (negative : Bool) (significand : Nat) (exponent : Int)
    (s : List Char) : YieldsNumber (exponentPart negative significand exponent s) := by
  unfold exponentPart
  dsimp only
  split
  · exact yieldsNumber_error _
  split
  · split
    · split
      · exact yieldsNumber_ite _ (yieldsNumber_error _) (yieldsNumber_float _ _)
      · exact floatOf_yieldsNumber _ _ _ _
    · exact floatOf_yieldsNumber _ _ _ _
  · exact yieldsNumber_error _

/-- A number that has a fraction and may have an exponent is a float. -/
theorem optionalExponent_yieldsNumber (negative : Bool) (significand : Nat) (exponent : Int)
    (s : List Char) : YieldsNumber (optionalExponent negative significand exponent s) := by
  unfold optionalExponent
  split
  · exact exponentPart_yieldsNumber _ _ _ _
  · exact exponentPart_yieldsNumber _ _ _ _
  · exact floatOf_yieldsNumber _ _ _ _

/-- A number with a fraction is a float. -/
theorem fractionPart_yieldsNumber (negative : Bool) (significand : Nat) (exponent : Int)
    (s : List Char) : YieldsNumber (fractionPart negative significand exponent s) := by
  unfold fractionPart
  dsimp only
  split
  · split
    · exact yieldsNumber_error _
    · exact optionalExponent_yieldsNumber _ _ _ _
  · split
    · exact optionalExponent_yieldsNumber _ _ _ _
    split
    · exact yieldsNumber_error _
    · exact optionalExponent_yieldsNumber _ _ _ _

/-- A whole number that fits the significand is an integer in range or a float: if the integer is
    out of range, the float is taken. -/
theorem afterWhole_yieldsNumber (negative : Bool) {significand : Nat}
    (hmax : significand ≤ maxSignificand) (s : List Char) :
    YieldsNumber (afterWhole negative significand s) := by
  unfold maxSignificand at hmax
  unfold afterWhole
  split
  · exact fractionPart_yieldsNumber _ _ _ _
  · exact exponentPart_yieldsNumber _ _ _ _
  · exact exponentPart_yieldsNumber _ _ _ _
  split
  · rintro i left ⟨⟩
    simp only [Number.minInt, Number.maxInt]
    omega
  split
  · next hmin =>
    rintro i left ⟨⟩
    simp only [Number.minInt, Number.maxInt] at hmin ⊢
    omega
  · exact yieldsNumber_float _ _

/-- **Every number that is read** is an integer in range or a float. -/
theorem numeral_yieldsNumber (negative : Bool) (s : List Char) :
    YieldsNumber (numeral negative s) := by
  have hzero : 0 ≤ maxSignificand := Nat.zero_le _
  unfold numeral
  split
  · exact yieldsNumber_error _
  · split
    · exact yieldsNumber_error _
    · exact afterWhole_yieldsNumber negative hzero _
  · exact afterWhole_yieldsNumber negative hzero _
  split
  · dsimp only
    split
    · exact afterWhole_yieldsNumber negative (gather_le hzero 0 _) _
    · unfold afterLongWhole
      split
      · exact fractionPart_yieldsNumber _ _ _ _
      · exact optionalExponent_yieldsNumber _ _ _ _
  · exact yieldsNumber_error _

end SchemaEmbed.Json
