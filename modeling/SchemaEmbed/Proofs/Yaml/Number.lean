import SchemaEmbed.Proofs.Decimal.Text
import SchemaEmbed.Yaml.Printer

namespace SchemaEmbed.Yaml

/-!
# YAML numbers are read as they were written

A plain scalar is tried as one thing after another: as a word for null or a truth value, as an
integer, and as a float. So that a number is read back it does not suffice that its text is read as
it by the last reader that is asked; every reader before it has to refuse the text.

* `numberInBase_digits` — digits are read as the natural that they write;
* `BeginsNumber.not_word` — the text of a number is no word;
* `resolvePlain_int` — the text of an integer stands for it;
* `resolvePlain_float` — so does the text of a finite float, in every layout.

What is said of floats is said of a `Numeral` that is valid, with a mark for a positive exponent or
without one. The shortest digits of a float and its layout enter only at the end, as
`FloatLayout.renderChars_spec`.
-/

/-! ### Digits

Naturals are read in a base, digit by digit, and one character that is no digit makes the whole
text no natural. Both are proved for every start of the count, since the induction goes through it.
-/

/-- The value of a decimal digit, which is read as a digit of any base up to sixteen. -/
theorem hexValue_of_isDigit {c : Char} (h : c.isDigit = true) :
    hexValue? c = some (c.toNat - '0'.toNat) ∧ c.toNat - '0'.toNat < 10 := by
  simp only [Char.isDigit, Bool.and_eq_true, decide_eq_true_eq] at h
  have hle : c.toNat ≤ '9'.toNat := h.2
  have hnine : '9'.toNat = 57 := rfl
  have hzero : '0'.toNat = 48 := rfl
  refine ⟨?_, by omega⟩
  unfold hexValue?
  exact if_pos h

/-- **Digits are read** as the natural that they write. -/
theorem numberInBase_digits {ds : List Char} (hds : ∀ c ∈ ds, c.isDigit = true) (hne : ds ≠ []) :
    numberInBase 10 ds = some (Nat.ofDigitChars 10 ds 0) := by
  have hfold (init : Nat) : ds.foldlM (fun n c => (hexValue? c).bind fun d =>
      if d < 10 then some (n * 10 + d) else none) init = some (Nat.ofDigitChars 10 ds init) := by
    clear hne
    induction ds generalizing init with
    | nil => rfl
    | cons c ds ih =>
      obtain ⟨hc, hrest⟩ := List.forall_mem_cons.mp hds
      obtain ⟨hvalue, hlt⟩ := hexValue_of_isDigit hc
      rw [List.foldlM_cons, hvalue, Nat.ofDigitChars_cons, Nat.mul_comm 10 init, ← ih hrest]
      show (if c.toNat - '0'.toNat < 10 then some (init * 10 + (c.toNat - '0'.toNat))
        else none).bind _ = _
      rw [if_pos hlt]
      rfl
  unfold numberInBase
  rw [if_neg (by simpa using hne)]
  exact hfold 0

/-- What has another character than decimal digits is no natural in base ten. -/
theorem numberInBase_eq_none {s : List Char} {c : Char} (hc : c ∈ s)
    (hvalue : ∀ d ∈ hexValue? c, 10 ≤ d) : numberInBase 10 s = none := by
  have hfold (init : Nat) : s.foldlM (fun n c => (hexValue? c).bind fun d =>
      if d < 10 then some (n * 10 + d) else none) init = none := by
    induction s generalizing init with
    | nil => cases hc
    | cons a s ih =>
      rw [List.foldlM_cons]
      rcases List.mem_cons.mp hc with rfl | hc
      · -- the character itself is refused
        cases hd : hexValue? c with
        | none => rfl
        | some d =>
          have hlarge := hvalue d hd
          show (if d < 10 then some (init * 10 + d) else none).bind _ = none
          rw [if_neg (by omega)]
          rfl
      · cases ((hexValue? a).bind fun d => if d < 10 then some (init * 10 + d) else none) with
        | none => rfl
        | some n => exact ih hc n
  unfold numberInBase
  split
  · rfl
  · exact hfold 0

/-! ### What a number cannot be taken for

The words for null, truth values, infinity and no number are compared with the text as a whole. It
is enough to look at the first character.
-/

/-- Whether a text begins like a number: with a digit, or with a digit after a minus. -/
def BeginsNumber (s : List Char) : Prop :=
  ∃ c rest, c.isDigit = true ∧ (s = c :: rest ∨ s = '-' :: c :: rest)

/-- A text that begins like a number is no word for null or a truth value, since all of these
    begin with a letter or a tilde. -/
theorem BeginsNumber.not_word {s : List Char} (h : BeginsNumber s) :
    (s.isEmpty || isNullWord s) = false ∧ readBool s = none := by
  obtain ⟨c, rest, hc, hs⟩ := h
  have hne (word : List Char) (hword : word.head?.any fun d => ! d.isDigit && d != '-') :
      (s == word) = false := by
    obtain ⟨d, tail, rfl⟩ : ∃ d tail, word = d :: tail := by
      cases word with
      | nil => cases hword
      | cons d tail => exact ⟨d, tail, rfl⟩
    have hd : d.isDigit = false ∧ d ≠ '-' := by simpa using hword
    rw [beq_eq_false_iff_ne]
    rintro rfl
    rcases hs with hs | hs
    · obtain ⟨rfl, -⟩ := List.cons.inj hs
      rw [hd.1] at hc
      cases hc
    · exact hd.2 (List.cons.inj hs).1
  have hnil : s.isEmpty = false := by
    rcases hs with rfl | rfl <;> rfl
  constructor
  · simp only [isNullWord, hnil, Bool.false_or]
    rw [hne _ rfl, hne _ rfl, hne _ rfl, hne _ rfl]
    rfl
  · unfold readBool
    rw [hne _ rfl, hne _ rfl, hne _ rfl, hne _ rfl, hne _ rfl, hne _ rfl]
    rfl

/-! ### Integers

An integer is written in decimal digits without padding, with a minus if it is negative.
-/

/-- The digits of a natural are not padded, whatever sign is before them, and they do not begin
    like a number in another base. -/
theorem isZeroPadded_toDigits (n : Nat) :
    isZeroPadded (Nat.toDigits 10 n) = false ∧ isZeroPadded ('-' :: Nat.toDigits 10 n) = false
      ∧ dropBaseMark (Nat.toDigits 10 n) = none := by
  obtain ⟨c, ds, hds, hc, hzero⟩ := Json.toDigits_head n
  have hc' : c.isDigit = true := hc
  by_cases hn : n = 0
  · subst hn
    exact ⟨by decide, by decide, by decide⟩
  · have hne := hzero hn
    have hplus : c ≠ '+' ∧ c ≠ '-' := by
      constructor <;> rintro rfl <;> cases hc'
    rw [hds]
    refine ⟨?_, ?_, ?_⟩
    · unfold isZeroPadded
      simp [hne, hplus]
    · unfold isZeroPadded
      simp [hne]
    · unfold dropBaseMark
      split
      · next heq => exact absurd (List.cons.inj heq).1 hne
      · next heq => exact absurd (List.cons.inj heq).1 hne
      · next heq => exact absurd (List.cons.inj heq).1 hne
      · rfl

/-- The digits of a natural are read as it. -/
theorem numberInBase_toDigits (n : Nat) : numberInBase 10 (Nat.toDigits 10 n) = some n := by
  obtain ⟨c, ds, hds, -⟩ := Json.toDigits_head n
  rw [numberInBase_digits (fun d hd => Nat.isDigit_of_mem_toDigits (by decide) (by decide) hd)
    (by simp [hds]), Nat.ofDigitChars_ten_toDigits]

/-- The digits of a natural have no sign, so none is dropped. -/
theorem toDigits_unsigned (n : Nat) :
    dropPlus (Nat.toDigits 10 n) = Nat.toDigits 10 n ∧ ∀ rest, Nat.toDigits 10 n ≠ '-' :: rest := by
  obtain ⟨c, ds, hds, hc, -⟩ := Json.toDigits_head n
  have hsign : c ≠ '+' ∧ c ≠ '-' := by
    constructor <;> rintro rfl <;> cases hc
  rw [hds]
  constructor
  · unfold dropPlus
    simp [hsign]
  · intro rest heq
    exact hsign.2 (List.cons.inj heq).1

/-- **The text of an integer** is read as it, with a minus or without a sign. -/
theorem integer_toString (i : Int) : integer (toString i).toList = some i := by
  obtain ⟨hplain, hminus, hmark⟩ := isZeroPadded_toDigits i.natAbs
  rw [Json.toList_toString_int]
  split
  · next hneg =>
    have hunsigned : unsigned ('-' :: Nat.toDigits 10 i.natAbs) (Nat.toDigits 10 i.natAbs)
        = some i.natAbs := by
      unfold unsigned
      rw [hmark, hminus]
      exact numberInBase_toDigits _
    simp only [integer, hunsigned]
    show some (-(i.natAbs : Int)) = some i
    congr 1
    omega
  · next hpos =>
    obtain ⟨hdrop, hsign⟩ := toDigits_unsigned i.natAbs
    have hunsigned : unsigned (Nat.toDigits 10 i.natAbs) (Nat.toDigits 10 i.natAbs)
        = some i.natAbs := by
      unfold unsigned
      rw [hmark, hplain]
      exact numberInBase_toDigits _
    unfold integer
    split
    · next rest heq => exact absurd heq (hsign rest)
    · rw [hdrop, hunsigned, Option.map_some]
      congr 1
      show ((i.natAbs : Nat) : Int) = i
      omega

/-- The text of an integer begins like a number. -/
theorem beginsNumber_toString (i : Int) : BeginsNumber (toString i).toList := by
  obtain ⟨c, ds, hds, hc, -⟩ := Json.toDigits_head i.natAbs
  refine ⟨c, ds, hc, ?_⟩
  rw [Json.toList_toString_int, hds]
  split
  · exact .inr rfl
  · exact .inl rfl

/-- **The text of an integer** that a document can hold stands for it. Outside of the bounds it
    is read as a float instead. -/
theorem resolvePlain_int {i : Int} (hmin : Number.minInt ≤ i) (hmax : i ≤ Number.maxInt) :
    resolvePlain (toString i).toList = some (.number (.int i)) := by
  obtain ⟨hnull, hbool⟩ := (beginsNumber_toString i).not_word
  have hint : readInt (toString i).toList = .value i := by
    unfold readInt
    rw [integer_toString]
    exact if_pos ⟨hmin, hmax⟩
  unfold resolvePlain
  rw [hnull, hbool, hint]
  rfl

/-! ### Floats

The text of a float has a point or an exponent, and this is what keeps it from being read as an
integer.
-/

section Float

variable {n : Numeral} (plus : Bool)

/-- The text of a float, after a sign or without one, is that of no natural: it has a point or an
    exponent, which is no digit in any base. -/
theorem unsigned_chars (hn : n.Valid) (whole : List Char) :
    unsigned whole (n.chars plus) = none := by
  have hnumber : numberInBase 10 (n.chars plus) = none := by
    rcases hn.mem_chars plus with h | h
    · exact numberInBase_eq_none h (by decide)
    · exact numberInBase_eq_none h (by decide)
  have hmark : dropBaseMark (n.chars plus) = none := by
    unfold dropBaseMark
    -- a base would stand where a point or an exponent is
    have hnot (d : Char) (rest : List Char) (heq : n.chars plus = '0' :: d :: rest)
        (hd : d ∈ ['x', 'o', 'b']) : False := by
      have hin : d ∈ n.chars plus := by simp [heq]
      have hmem := hn.of_mem_chars hin
      simp only [List.mem_cons, List.not_mem_nil, or_false] at hd hmem
      rcases hd with rfl | rfl | rfl <;> simp at hmem
    split
    · next rest heq => exact (hnot 'x' rest heq (by decide)).elim
    · next rest heq => exact (hnot 'o' rest heq (by decide)).elim
    · next rest heq => exact (hnot 'b' rest heq (by decide)).elim
    · rfl
  unfold unsigned
  rw [hmark, hnumber]
  exact ite_self none

/-- The text of a float is read as the number that its parts are rounded to, if that is finite:
    the whole digits, the fraction and the exponent are found where they were put. -/
theorem decimal_chars (hn : n.Valid) {negative : Bool}
    (hfinite : (Binary64.ofDecimal negative n.significand n.width n.scale).isFinite = true) :
    decimal negative (n.chars plus)
      = some (Binary64.ofDecimal negative n.significand n.width n.scale) := by
  -- the text is cut at the mark of the exponent, and what is before it at the point
  obtain ⟨hmantissa, hexponent⟩ := hn.span_mark plus
  obtain ⟨hwhole, hfraction⟩ := hn.span_point
  have hsplit : splitExponent (n.chars plus)
      = (n.whole ++ Numeral.fractionChars n.fraction,
        (Numeral.exponentChars plus n.exponent).tail?) := by
    show ((n.chars plus).takeWhile (! Numeral.isMark ·),
      ((n.chars plus).dropWhile (! Numeral.isMark ·)).tail?) = _
    rw [hmantissa, hexponent]
  have hdrop : (Numeral.fractionChars n.fraction).drop 1 = n.fraction := by
    unfold Numeral.fractionChars
    split
    · next h => simp_all
    · rfl
  -- the exponent has a sign of its own, which may be a plus
  have hvalue (e : Int) : exponentValue ((Numeral.exponentChars plus (some e)).tail) = some e := by
    obtain ⟨hplus, hsign⟩ := toDigits_unsigned e.natAbs
    simp only [Numeral.exponentChars, FloatLayout.digits, List.cons_append, List.tail_cons]
    split
    · simp only [List.cons_append, List.nil_append, exponentValue, numberInBase_toDigits]
      show some (-(e.natAbs : Int)) = some e
      congr 1
      omega
    · have hunsigned : (numberInBase 10 (Nat.toDigits 10 e.natAbs)).map Int.ofNat = some e := by
        rw [numberInBase_toDigits, Option.map_some]
        congr 1
        show ((e.natAbs : Nat) : Int) = e
        omega
      cases plus with
      | true => exact hunsigned
      | false =>
        simp only [Bool.false_eq_true, ↓reduceIte, List.nil_append]
        unfold exponentValue
        split
        · next rest heq => exact absurd heq (hsign rest)
        · rw [hplus, hunsigned]
  have hdigits : numberInBase 10 (n.whole ++ n.fraction) = some n.significand :=
    numberInBase_digits hn.digits (by simp [hn.whole_ne_nil])
  have hresult : (if (Binary64.ofDecimal negative n.significand n.width n.scale).isFinite
      then some (Binary64.ofDecimal negative n.significand n.width n.scale) else none)
      = some (Binary64.ofDecimal negative n.significand n.width n.scale) := if_pos hfinite
  unfold decimal
  rw [hsplit]
  simp only [hwhole, hfraction, hdrop]
  cases he : n.exponent with
  | none =>
    have hscale : n.scale = 0 - n.fraction.length := by simp [Numeral.scale, he]
    rw [← hresult, hscale]
    simp only [Numeral.exponentChars, List.tail?_nil, hdigits]
    rfl
  | some e =>
    have hscale : n.scale = e - n.fraction.length := by simp [Numeral.scale, he]
    have htail : (Numeral.exponentChars plus (some e)).tail?
        = some (Numeral.exponentChars plus (some e)).tail := rfl
    rw [← hresult, hscale]
    simp only [htail, hvalue, hdigits]
    rfl

/-- The text of a float that is not negative has no sign to drop, and does not begin with a
    point. -/
theorem chars_unsigned (hn : n.Valid) :
    dropPlus (n.chars plus) = n.chars plus ∧ (∀ rest, n.chars plus ≠ '-' :: rest)
      ∧ ∀ rest, n.chars plus ≠ '.' :: rest := by
  obtain ⟨c, rest, hhead, hc⟩ := hn.head_chars plus
  have hsign : c ≠ '+' ∧ c ≠ '-' ∧ c ≠ '.' := by
    refine ⟨?_, ?_, ?_⟩ <;> rintro rfl <;> cases hc
  rw [hhead]
  refine ⟨?_, ?_, ?_⟩
  · unfold dropPlus
    simp [hsign]
  · intro rest heq
    exact hsign.2.1 (List.cons.inj heq).1
  · intro rest heq
    exact hsign.2.2 (List.cons.inj heq).1

/-- The text of a float, with a sign or without one, is that of no integer. -/
theorem integer_chars (hn : n.Valid) (negative : Bool) :
    integer ((if negative then ['-'] else []) ++ n.chars plus) = none := by
  cases negative with
  | true => simp [integer, unsigned_chars plus hn]
  | false =>
    obtain ⟨hplus, hminus, -⟩ := chars_unsigned plus hn
    show integer (n.chars plus) = none
    unfold integer
    split
    · next rest heq => exact absurd heq (hminus rest)
    · rw [hplus, unsigned_chars plus hn, Option.map_none]

/-- The text of a float is not digits with a zero before them: after the zero there is a point or
    an exponent. Such a text would be taken for a string. -/
theorem isZeroPadded_chars (hn : n.Valid) (negative : Bool) :
    isZeroPadded ((if negative then ['-'] else []) ++ n.chars plus) = false := by
  have hdigits (rest : List Char) (heq : n.chars plus = '0' :: rest) :
      rest.all isDigit = false := by
    have hbad (d : Char) (hd : d ∈ n.chars plus) (hnot : isDigit d = false) (hne : d ≠ '0') :
        rest.all isDigit = false := by
      rw [heq] at hd
      rw [List.all_eq_false]
      exact ⟨d, (List.mem_cons.mp hd).resolve_left hne, by rw [hnot]; decide⟩
    rcases hn.mem_chars plus with h | h
    · exact hbad '.' h (by decide) (by decide)
    · exact hbad 'e' h (by decide) (by decide)
  obtain ⟨hplus, hminus, -⟩ := chars_unsigned plus hn
  unfold isZeroPadded
  dsimp only
  split
  · -- after a sign and a zero only digits would be left
    next d rest heq =>
    cases negative with
    | true => exact hdigits _ heq
    | false =>
      obtain ⟨c, others, hhead, hc⟩ := hn.head_chars plus
      rw [hhead] at hminus
      simp only [Bool.false_eq_true, ↓reduceIte, List.nil_append, hhead] at heq
      split at heq
      · next heq' =>
        rw [(List.cons.inj heq').1] at hc
        cases hc
      · next heq' => exact absurd heq' (hminus _)
      · exact hdigits _ (hhead.trans heq)
  · rfl

/-- The text of a float is read as it, and not as infinite or as no number, whose words begin
    with a point. -/
theorem readFloat_chars (hn : n.Valid) {negative : Bool} {x : Binary64}
    (hdecimal : decimal negative (n.chars plus) = some x) :
    readFloat ((if negative then ['-'] else []) ++ n.chars plus) = some x := by
  obtain ⟨hplus, hminus, hpoint⟩ := chars_unsigned plus hn
  have hword (word : String) (h : word.toList.head? = some '.') :
      (n.chars plus == word.toList) = false ∧ ('-' :: n.chars plus == word.toList) = false := by
    obtain ⟨rest, hrest⟩ := List.head?_eq_some_iff.mp h
    rw [beq_eq_false_iff_ne, beq_eq_false_iff_ne, hrest]
    exact ⟨hpoint rest, fun heq => by cases heq⟩
  have hinfinity : (n.chars plus == ".inf".toList || n.chars plus == ".Inf".toList
      || n.chars plus == ".INF".toList) = false := by
    rw [(hword ".inf" (by decide)).1, (hword ".Inf" (by decide)).1, (hword ".INF" (by decide)).1]
    rfl
  have hhead : (n.chars plus).head? ≠ some '+' := by
    obtain ⟨c, rest, hhead, hc⟩ := hn.head_chars plus
    rw [hhead]
    rintro ⟨⟩
    cases hc
  unfold readFloat
  cases negative with
  | true =>
    have hdrop : dropPlus ('-' :: n.chars plus) = '-' :: n.chars plus := rfl
    simp only [↓reduceIte, List.cons_append, List.nil_append, hdrop, List.head?_cons,
      (hword ".inf" (by decide)).2, (hword ".Inf" (by decide)).2, (hword ".INF" (by decide)).2,
      (hword ".nan" (by decide)).2, (hword ".NaN" (by decide)).2, (hword ".NAN" (by decide)).2,
      hinfinity, hdecimal]
    rfl
  | false =>
    simp only [Bool.false_eq_true, ↓reduceIte, List.nil_append, hplus, hhead, false_and, hinfinity,
      (hword ".nan" (by decide)).1, (hword ".NaN" (by decide)).1, (hword ".NAN" (by decide)).1,
      Bool.or_self]
    exact hdecimal

/-- The text of a finite float begins like a number, in every layout. -/
theorem beginsNumber_renderChars (l : FloatLayout) {x : Binary64} (hfinite : x.isFinite = true) :
    BeginsNumber (l.renderChars x) := by
  obtain ⟨n, hn, hchars, -⟩ := l.renderChars_spec hfinite
  obtain ⟨c, rest, hhead, hc⟩ := hn.head_chars l.plus
  refine ⟨c, rest, hc, ?_⟩
  rw [hchars, hhead]
  cases x.negative
  · exact .inl rfl
  · exact .inr rfl

/-- **The text of a finite float** is read as it, and as nothing else, whatever its layout is.
    The shortest digits are rounded to the float again. -/
theorem readFloat_renderChars (l : FloatLayout) {x : Binary64} (hfinite : x.isFinite = true) :
    integer (l.renderChars x) = none ∧ isZeroPadded (l.renderChars x) = false
      ∧ readFloat (l.renderChars x) = some x := by
  obtain ⟨n, hn, hchars, -, hvalue⟩ := l.renderChars_spec hfinite
  have hdecimal : decimal x.negative (n.chars l.plus) = some x := by
    have hfinite' :
        (Binary64.ofDecimal x.negative n.significand n.width n.scale).isFinite = true := by
      rw [hvalue]
      exact hfinite
    rw [decimal_chars _ hn hfinite', hvalue]
  rw [hchars]
  exact ⟨integer_chars _ hn _, isZeroPadded_chars _ hn _, readFloat_chars _ hn hdecimal⟩

/-- **The text of a finite float** stands for it. -/
theorem resolvePlain_float (l : FloatLayout) {x : Binary64} (hfinite : x.isFinite = true) :
    resolvePlain (l.renderChars x) = some (.number (.float x)) := by
  obtain ⟨hnull, hbool⟩ := (beginsNumber_renderChars l hfinite).not_word
  obtain ⟨hinteger, hpadded, hfloat⟩ := readFloat_renderChars l hfinite
  -- no integer, so the float is asked for next
  have hint : readInt (l.renderChars x) = .none := by
    unfold readInt
    rw [hinteger]
  unfold resolvePlain
  rw [hnull, hbool, hint, hpadded, hfloat]
  rfl

end Float

end SchemaEmbed.Yaml
