import SchemaEmbed.Proofs.Outcome
import SchemaEmbed.Proofs.Yaml.Number
import SchemaEmbed.Toml.Bare
import SchemaEmbed.Toml.Printer

namespace SchemaEmbed.Toml

/-!
# Values without quotes are read as they were written

Numbers, dates and truth values have no quotes in TOML, and the reader takes everything up to the
next character that cannot stand in them and then tries one kind after the other. So it has to be
shown that the text of one kind is not taken for that of another.

* `bareWord_append` — such a value ends before whatever the writer puts after it;
* `readBare_int` — an integer is read back if it has 64 bits with its sign, and refused otherwise;
* `readBare_float` — a finite float is read back.

Documents can have integers of 64 bits without a sign. The writer writes them, and the reader
refuses those that do not fit with a sign.
-/

/-! ### Where a value ends

A value without quotes has no end of its own. The reader takes characters up to a blank, a break, a
bracket or the like, and one case more: a blank between a date and a time does not end the value.
What the writer puts after a value ends it in any case.
-/

/-- What the writer puts after a value: the end of its line, a comma, or a closing bracket.
    Before a closing brace there is a blank, which by itself would not be enough. -/
def EndsValue (t : List Char) : Prop :=
  (∃ c rest, t = c :: rest ∧ (c = '\n' ∨ c = ',' ∨ c = ']')) ∨ ∃ rest, t = ' ' :: '}' :: rest

/-- **A value without quotes** ends before what is put after it. -/
theorem bareWord_append {word t : List Char} (hword : ∀ c ∈ word, endsBare c = false)
    (ht : EndsValue t) : bareWord (word ++ t) = word := by
  have hstop : t.takeWhile (! endsBare ·) = [] := by
    rcases ht with ⟨c, rest, rfl, rfl | rfl | rfl⟩ | ⟨rest, rfl⟩ <;> rfl
  have htake : (word ++ t).takeWhile (! endsBare ·) = word := by
    rw [List.takeWhile_append_of_pos fun c hc => by rw [hword c hc]; rfl, hstop, List.append_nil]
  unfold bareWord
  simp only [htake, List.drop_left]
  split
  · -- a brace is no digit of a time
    rcases ht with ⟨c, rest, heq, hc⟩ | ⟨rest, heq⟩
    · obtain ⟨rfl, -⟩ := List.cons.inj heq
      rcases hc with hc | hc | hc <;> exact absurd hc (by decide)
    · rw [(List.cons.inj (List.cons.inj heq).2).1]
      rfl
  · rfl

/-! ### Digits

Digits may have underscores between them and must not have a zero before them. The writer makes
neither, so digits are read as they stand.
-/

section Digits

variable {ds : List Char}

/-- Digits alone have no underscores to be dropped between them. -/
theorem dropUnderscores_digits (hds : ∀ c ∈ ds, c.isDigit = true) (hne : ds ≠ []) :
    dropUnderscores? isDigit ds = some ds := by
  induction ds with
  | nil => exact absurd rfl hne
  | cons c ds ih =>
    obtain ⟨hc, hds⟩ := List.forall_mem_cons.mp hds
    -- the next character is a digit, and so no underscore
    have hdigit : isDigit c = true := hc
    cases ds with
    | nil => simp [dropUnderscores?, hdigit]
    | cons d ds =>
      have hd : d ≠ '_' := by
        rintro rfl
        cases hds '_' List.mem_cons_self
      rw [dropUnderscores?, hdigit, ih hds (by simp)]
      · rfl
      · intro _ _ heq
        exact absurd heq hd

/-- A text with a character that is neither a digit nor an underscore is refused where digits are
    expected, wherever the character stands. The induction is on the calls of the function. -/
theorem dropUnderscores_eq_none {s : List Char} {c : Char} (hc : c ∈ s) (hdigit : isDigit c = false)
    (hunderscore : c ≠ '_') : dropUnderscores? isDigit s = none := by
  fun_induction dropUnderscores? isDigit s with
  | case1 => rfl
  | case2 => rfl
  | case3 a ha =>
    rw [List.mem_singleton.mp hc] at hdigit
    simp [hdigit] at ha
  | case4 a ha d rest hd ih =>
    rcases List.mem_cons.mp hc with rfl | hc
    · simp [hdigit] at ha
    · rw [ih ((List.mem_cons.mp hc).resolve_left hunderscore), Option.map_none]
  | case5 => rfl
  | case6 a ha d rest hd ih =>
    rcases List.mem_cons.mp hc with rfl | hc
    · simp [hdigit] at ha
    · rw [ih hc, Option.map_none]

/-- Digits without a needless zero before them are those of a decimal number; a zero alone is not
    needless. -/
theorem decimalDigits_digits (hds : ∀ c ∈ ds, c.isDigit = true) (hne : ds ≠ [])
    (hhead : ds = ['0'] ∨ ds.head? ≠ some '0') : decimalDigits? ds = some ds := by
  have hpadded : isZeroPadded ds = false := by
    rcases hhead with rfl | hhead
    · rfl
    · unfold isZeroPadded
      split
      · exact absurd rfl hhead
      · rfl
  rw [decimalDigits?, dropUnderscores_digits hds hne]
  simp [hpadded]

/-- A digit is no sign, and so nothing is split from it. -/
theorem splitSign_digits {c : Char} {rest : List Char} (hc : c.isDigit = true) :
    splitSign (c :: rest) = (false, c :: rest) := by
  unfold splitSign
  split
  · next heq =>
    rw [(List.cons.inj heq).1] at hc
    cases hc
  · next heq =>
    rw [(List.cons.inj heq).1] at hc
    cases hc
  · rfl

end Digits

/-! ### Integers

The text of an integer is tried as an integer first. If it is too great, the reader goes on to
floats, dates and times, and for a refusal each of them has to fail.
-/

/-- The text of a natural number is that of a decimal number, as it has no zero before it. -/
theorem decimalDigits_toDigits (n : Nat) :
    decimalDigits? (Nat.toDigits 10 n) = some (Nat.toDigits 10 n) := by
  obtain ⟨c, ds, hds, hc, hzero⟩ := Json.toDigits_head n
  apply decimalDigits_digits
  · exact fun d hd => Nat.isDigit_of_mem_toDigits (by decide) (by decide) hd
  · simp [hds]
  · by_cases hn : n = 0
    · subst hn
      exact .inl rfl
    · right
      rw [hds]
      simpa using hzero hn

/-- **The text of an integer** is read as it, whatever its size. Only the limits of 64 bits,
    which are applied afterwards, can refuse it. -/
theorem integer_toString (i : Int) : integer? (toString i).toList = some i := by
  obtain ⟨c, ds, hds, hc, hzero⟩ := Json.toDigits_head i.natAbs
  have hnumber : numberInBase 10 (Nat.toDigits 10 i.natAbs) = some i.natAbs :=
    Yaml.numberInBase_toDigits i.natAbs
  -- the second character of a base is a letter, and here it is a digit
  have hmark (d : Char) (hd : d.isDigit = false) (rest : List Char) :
      Nat.toDigits 10 i.natAbs ≠ '0' :: d :: rest := by
    intro heq
    have hdigit : d.isDigit = true :=
      Nat.isDigit_of_mem_toDigits (b := 10) (by decide) (by decide) (n := i.natAbs) (by simp [heq])
    rw [hd] at hdigit
    cases hdigit
  rw [Json.toList_toString_int]
  split
  · next hneg =>
    simp only [integer?, splitSign, decimalDigits_toDigits, Option.bind_eq_bind, Option.bind_some,
      hnumber, ↓reduceIte]
    show some (-(i.natAbs : Int)) = some i
    congr 1
    omega
  · next hpos =>
    unfold integer?
    split
    · next rest heq => exact absurd heq (hmark 'x' (by decide) rest)
    · next rest heq => exact absurd heq (hmark 'o' (by decide) rest)
    · next rest heq => exact absurd heq (hmark 'b' (by decide) rest)
    · have hsign : splitSign (Nat.toDigits 10 i.natAbs) = (false, Nat.toDigits 10 i.natAbs) := by
        rw [hds]
        exact splitSign_digits hc
      simp only [hsign, decimalDigits_toDigits, Option.bind_eq_bind, Option.bind_some, hnumber,
        Bool.false_eq_true, ↓reduceIte]
      show some ((i.natAbs : Nat) : Int) = some i
      congr 1
      omega

/-- What begins with a digit or a minus is no truth value, and these are tried first of all. -/
theorem not_word {s : List Char} {c : Char} {rest : List Char} (hs : s = c :: rest)
    (hc : c.isDigit = true ∨ c = '-') :
    s ≠ ['t', 'r', 'u', 'e'] ∧ s ≠ ['f', 'a', 'l', 's', 'e'] := by
  have hne (d : Char) (word : List Char) (hd : d.isDigit = false ∧ d ≠ '-') : s ≠ d :: word := by
    rw [hs]
    intro heq
    rw [(List.cons.inj heq).1] at hc
    rcases hc with hc | hc
    · rw [hd.1] at hc
      cases hc
    · exact hd.2 hc
  exact ⟨hne 't' _ (by decide), hne 'f' _ (by decide)⟩

/-- More than four digits begin no date and no time: a year has four, and an hour two. -/
theorem dateTime_digits {ds : List Char} (hds : ∀ c ∈ ds, c.isDigit = true)
    (hlong : 4 < ds.length) :
    DateTime.read? ds = none := by
  have hdigits (width : Nat) (hwidth : width ≤ 4) : digits? width ds = none := by
    have htake : ds.takeWhile isDigit = ds := by
      have happend : (ds ++ []).takeWhile isDigit = _ := List.takeWhile_append_of_pos hds
      simpa using happend
    rw [digits?]
    simp only [htake]
    exact if_neg (by omega)
  rw [DateTime.read?, Date.read?, Time.read?, hdigits 4 (Nat.le_refl 4), hdigits 2 (by decide)]
  rfl

/-- Digits with neither a point nor an exponent are no float, though they could be rounded to
    one. -/
theorem readFloat_digits {ds : List Char} (hds : ∀ c ∈ ds, c.isDigit = true) (hne : ds ≠ []) :
    readFloat? ds = none := by
  have hmark : ∀ c ∈ ds, (! (c == 'e' || c == 'E')) = true := by
    intro c hc
    have hmark : (c == 'e' || c == 'E') = false := Numeral.isMark_of_digit (.inl (hds c hc))
    rw [hmark]
    rfl
  have hpoint : ∀ c ∈ ds, (c != '.') = true := by
    intro c hc
    rw [bne_iff_ne]
    rintro rfl
    cases hds '.' hc
  have hnone : '.' ∉ ds := fun hmem => by cases hds '.' hmem
  -- a decimal without a fraction needs an exponent
  have hdecimal : decimal? false ds = none := by
    have htake : (ds ++ []).takeWhile _ = _ := List.takeWhile_append_of_pos hmark
    have hdrop : (ds ++ []).dropWhile _ = _ := List.dropWhile_append_of_pos hmark
    have hfraction : (ds ++ []).dropWhile _ = _ := List.dropWhile_append_of_pos hpoint
    simp only [List.append_nil, List.takeWhile_nil, List.dropWhile_nil] at htake hdrop hfraction
    simp only [decimal?, htake, hdrop, hfraction, List.contains_eq_mem, hnone, decide_false,
      Bool.false_eq_true, ↓reduceIte, Option.bind_eq_bind, Option.bind_none, Option.bind_fun_none]
  obtain ⟨c, rest, rfl⟩ := List.exists_cons_of_ne_nil hne
  have hc := hds c List.mem_cons_self
  have hword (d : Char) (hd : d.isDigit = false) (word : List Char) : c :: rest ≠ d :: word := by
    intro heq
    rw [(List.cons.inj heq).1, hd] at hc
    cases hc
  rw [readFloat?, splitSign_digits hc]
  simp only [hword 'i' (by decide), hword 'n' (by decide), ↓reduceIte, hdecimal]

/-- **The text of an integer** is read back if it has 64 bits with its sign, and is refused if it
    is greater. Below there is nothing to refuse: structured values have no smaller integers. -/
theorem readBare_int {i : Int} (hmin : Number.minInt ≤ i) :
    Yields (i ≤ maxInteger) (readBare (toString i).toList) (.integer i) := by
  obtain ⟨c, ds, hds, hc, hzero⟩ := Json.toDigits_head i.natAbs
  have hhead : ∃ c rest, (toString i).toList = c :: rest ∧ (c.isDigit = true ∨ c = '-') := by
    rw [Json.toList_toString_int, hds]
    split
    · exact ⟨_, _, rfl, .inr rfl⟩
    · exact ⟨_, _, rfl, .inl hc⟩
  obtain ⟨a, rest, htext, ha⟩ := hhead
  obtain ⟨htrue, hfalse⟩ := not_word htext ha
  by_cases hmax : i ≤ maxInteger
  · have hread : readInteger? (toString i).toList = some i := by
      rw [readInteger?, integer_toString]
      exact if_pos ⟨hmin, hmax⟩
    exact .of_ok (by rw [readBare, if_neg htrue, if_neg hfalse, hread]) hmax
  · -- the digits are too many for anything else
    have hread : readInteger? (toString i).toList = none := by
      rw [readInteger?, integer_toString]
      exact if_neg fun h => hmax h.2
    have hdigits : (toString i).toList = Nat.toDigits 10 i.natAbs := by
      rw [Json.toList_toString_int, if_neg (by unfold maxInteger at hmax; omega)]
    have hall : ∀ d ∈ Nat.toDigits 10 i.natAbs, d.isDigit = true := fun d hd =>
      Nat.isDigit_of_mem_toDigits (by decide) (by decide) hd
    -- an integer beyond 64 bits has more than four digits
    have hlong : 4 < (Nat.toDigits 10 i.natAbs).length := by
      have hlt := ofDigitChars_lt hall 0
      rw [Nat.ofDigitChars_ten_toDigits, Nat.zero_add, Nat.one_mul] at hlt
      by_contra hshort
      have hpow : 10 ^ (Nat.toDigits 10 i.natAbs).length ≤ 10 ^ 4 :=
        Nat.pow_le_pow_right (Nat.succ_pos 9) (Nat.le_of_not_lt hshort)
      have hsmall : i.natAbs < 10000 := Nat.lt_of_lt_of_le hlt hpow
      unfold maxInteger at hmax
      omega
    have hfloat : readFloat? (toString i).toList = none := by
      rw [hdigits]
      exact readFloat_digits hall (by simp [hds])
    have hdate : DateTime.read? (toString i).toList = none := by
      rw [hdigits]
      exact dateTime_digits hall hlong
    exact .of_error (by rw [readBare, if_neg htrue, if_neg hfalse, hread, hfloat, hdate]) hmax

/-! ### Floats

A float is written without an exponent and always with a point. This is what distinguishes its text
from that of an integer, and its digits are enough to give the float back when they are rounded.
-/

section Float

variable {n : Numeral}

/-- The text of a float has a point and no exponent. -/
theorem fractionChars_ne_nil (hn : n.Valid) (hexponent : n.exponent = none) :
    n.fraction ≠ [] ∧ Numeral.fractionChars n.fraction = '.' :: n.fraction := by
  have hne : n.fraction ≠ [] := by
    refine hn.not_integer.resolve_right ?_
    rw [hexponent]
    exact Bool.false_ne_true
  exact ⟨hne, by simp [Numeral.fractionChars, hne]⟩

/-- A text with a point is that of no integer, in whatever base: the point is no digit, and there
    is no letter behind a zero. -/
theorem readInteger_chars (hn : n.Valid) (hexponent : n.exponent = none) (negative : Bool) :
    readInteger? ((if negative then ['-'] else []) ++ n.chars false) = none := by
  have hpoint : '.' ∈ n.chars false := by
    simp [Numeral.chars, (fractionChars_ne_nil hn hexponent).2]
  have hdecimal : decimalDigits? (n.chars false) = none := by
    rw [decimalDigits?, dropUnderscores_eq_none hpoint (by decide) (by decide)]
    rfl
  obtain ⟨c, rest, hhead, hc⟩ := hn.head_chars false
  have hinteger : integer? ((if negative then ['-'] else []) ++ n.chars false) = none := by
    cases negative with
    | true =>
      simp only [↓reduceIte, List.singleton_append, integer?, splitSign, hdecimal,
        Option.bind_eq_bind, Option.bind_none]
      rfl
    | false =>
      -- a base would stand where the point is
      have hmark (d : Char) (hd : d.isDigit = false ∧ d ∉ ['.', 'e', '-', '+']) (rest : List Char) :
          n.chars false ≠ '0' :: d :: rest := by
        intro heq
        have hmem : d ∈ n.chars false := by simp [heq]
        rcases hn.of_mem_chars hmem with h | h
        · rw [hd.1] at h
          cases h
        · exact hd.2 h
      have hsign : splitSign (n.chars false) = (false, n.chars false) := by
        rw [hhead]
        exact splitSign_digits hc
      rw [if_neg Bool.false_ne_true, List.nil_append]
      unfold integer?
      split
      · next rest heq => exact absurd heq (hmark 'x' (by decide) rest)
      · next rest heq => exact absurd heq (hmark 'o' (by decide) rest)
      · next rest heq => exact absurd heq (hmark 'b' (by decide) rest)
      · simp only [hsign, hdecimal, Option.bind_eq_bind, Option.bind_none]
  rw [readInteger?, hinteger]
  rfl

/-- The text of a float is read as the number to which its digits are rounded, if that is finite. -/
theorem decimal_chars (hn : n.Valid) (hexponent : n.exponent = none) {negative : Bool}
    (hfinite : (Binary64.ofDecimal negative n.significand n.width n.scale).isFinite = true) :
    decimal? negative (n.chars false)
      = some (Binary64.ofDecimal negative n.significand n.width n.scale) := by
  obtain ⟨hne, hfraction⟩ := fractionChars_ne_nil hn hexponent
  -- there is no exponent, so that everything stands before its mark
  have htake : (n.chars false).takeWhile (fun c => ! (c == 'e' || c == 'E'))
      = n.whole ++ '.' :: n.fraction := by
    rw [← hfraction]
    exact (hn.span_mark false).1
  have hdrop : (n.chars false).dropWhile (fun c => ! (c == 'e' || c == 'E')) = [] := by
    have hspan := (hn.span_mark false).2
    rw [hexponent] at hspan
    exact hspan
  obtain ⟨hwhole, hpoint⟩ := hn.span_point
  rw [hfraction] at hwhole hpoint
  have hread : decimalDigits? n.whole = some n.whole :=
    decimalDigits_digits (fun c hc => hn.digits c (List.mem_append_left _ hc)) hn.whole_ne_nil
      hn.not_padded
  have hrest : dropUnderscores? isDigit n.fraction = some n.fraction :=
    dropUnderscores_digits (fun c hc => hn.digits c (List.mem_append_right _ hc)) hne
  have hnumber : numberInBase 10 (n.whole ++ n.fraction) = some n.significand :=
    Yaml.numberInBase_digits hn.digits (by simp [hne])
  have hscale : n.scale = 0 - n.fraction.length := by simp [Numeral.scale, hexponent]
  have hresult : (if (Binary64.ofDecimal negative n.significand n.width n.scale).isFinite
      then some (Binary64.ofDecimal negative n.significand n.width n.scale) else none)
      = some (Binary64.ofDecimal negative n.significand n.width n.scale) := if_pos hfinite
  rw [← hresult, hscale]
  simp only [decimal?, htake, hdrop, hwhole, hpoint, hread, hrest, hnumber, Option.bind_eq_bind,
    Option.bind_some, List.contains_eq_mem, List.mem_append, List.mem_cons, true_or, or_true,
    decide_true, ↓reduceIte]
  rfl

/-- **The text of a finite float** is read back: it is no word and no integer, and its digits are
    rounded to the float that they were written for. -/
theorem readBare_float {x : Binary64} (hfinite : x.isFinite = true) :
    readBare (FloatLayout.toml.renderChars x) = .ok (.float x) := by
  obtain ⟨n, hn, hchars, hexponent, hvalue⟩ := FloatLayout.toml.renderChars_spec hfinite
  have hnone : n.exponent = none := hexponent fun _ => rfl
  have hdecimal : decimal? x.negative (n.chars false) = some x := by
    have hfinite' :
        (Binary64.ofDecimal x.negative n.significand n.width n.scale).isFinite = true := by
      rw [hvalue]
      exact hfinite
    rw [decimal_chars hn hnone hfinite', hvalue]
  obtain ⟨c, rest, hhead, hc⟩ := hn.head_chars false
  -- a digit at the head is neither that of a word for infinity nor for no number
  have hword (d : Char) (hd : d.isDigit = false) (word : List Char) :
    n.chars false ≠ d :: word := by
    intro heq
    rw [hhead] at heq
    rw [(List.cons.inj heq).1, hd] at hc
    cases hc
  have hfloat : readFloat? ((if x.negative then ['-'] else []) ++ n.chars false) = some x := by
    have hsign : splitSign ((if x.negative then ['-'] else []) ++ n.chars false)
        = (x.negative, n.chars false) := by
      cases x.negative with
      | true => rfl
      | false =>
        rw [if_neg Bool.false_ne_true, List.nil_append, hhead]
        exact splitSign_digits hc
    rw [readFloat?, hsign]
    simp only [hword 'i' (by decide), hword 'n' (by decide), ↓reduceIte, hdecimal]
  have htext : ∃ a others, (if x.negative then ['-'] else []) ++ n.chars false = a :: others
      ∧ (a.isDigit = true ∨ a = '-') := by
    cases x.negative with
    | true => exact ⟨'-', _, rfl, .inr rfl⟩
    | false => exact ⟨c, rest, hhead, .inl hc⟩
  obtain ⟨a, others, hcons, ha⟩ := htext
  obtain ⟨htrue, hfalse⟩ := not_word hcons ha
  rw [hchars, show FloatLayout.toml.plus = false from rfl, readBare, if_neg htrue, if_neg hfalse,
    readInteger_chars hn hnone, hfloat]

end Float

end SchemaEmbed.Toml
