import SchemaEmbed.Proofs.Json.NumeralText

namespace SchemaEmbed.Json

/-!
# A number and what follows it

A number in a list is followed by a comma or a line break, and alone by nothing. Its text is read
up to its end, and what follows has no say in the number, whether it can be read or is out of
range. So what a number is read as can be asked of its text alone.

* `NoDigit` — what may follow digits;
* `Uniform` — whether a reading gives the same number whatever follows, or fails whatever follows;
* `gather_uniform` — digits that fit are gathered, and the others are left;
* `fractionPart_uniform` / `exponentPart_uniform` — **the parts of a number** are read so;
* `numeral_uniform` — and so is the whole number.
-/

/-- Whether a text does not begin with a digit. This is what may follow digits, for them to be
    told from it. -/
def NoDigit (s : List Char) : Prop := ∀ c ∈ s.head?, isDigit c = false

/-- What ends a number ends digits. -/
theorem Ends.noDigit {s : List Char} (h : Ends s) : NoDigit s := fun c hc => (h c hc).1

/-- Whether the same number is read whatever follows it, or none whatever follows it. The fault
    itself may depend on what follows, as it has a place in the text. -/
def Uniform (r : List Char → Except Fault (Number × List Char)) : Prop :=
  (∃ n, ∀ rest, Ends rest → r rest = .ok (n, rest)) ∨ ∀ rest, Ends rest → ∃ f, r rest = .error f

namespace Uniform

variable {r r' : List Char → Except Fault (Number × List Char)}

/-- A reading that agrees with another one wherever a number ends is uniform if that one is. -/
theorem congr (h : Uniform r') (heq : ∀ rest, Ends rest → r rest = r' rest) : Uniform r := by
  rcases h with ⟨n, h⟩ | h
  · exact .inl ⟨n, fun rest hrest => (heq rest hrest).trans (h rest hrest)⟩
  · exact .inr fun rest hrest => heq rest hrest ▸ h rest hrest

/-- A number that needs no more text is read whatever follows. -/
theorem ok (n : Number) : Uniform fun rest => .ok (n, rest) := .inl ⟨n, fun _ _ => rfl⟩

/-- What always fails does so whatever follows. -/
theorem error (f : List Char → Fault) : Uniform fun rest => .error (f rest) :=
  .inr fun rest _ => ⟨f rest, rfl⟩

end Uniform

/-! ### Digits -/

/-- Digits before another character are dropped up to that character. -/
theorem dropWhile_digits {ds rest : List Char} (hds : ∀ c ∈ ds, isDigit c = true)
    (hrest : NoDigit rest) : (ds ++ rest).dropWhile isDigit = rest := by
  rw [List.dropWhile_append_of_pos hds]
  cases rest with
  | nil => rfl
  | cons c rest => rw [List.dropWhile_cons, hrest c rfl]; rfl

/-- Digits before another character are taken up to that character. -/
theorem takeWhile_digits {ds rest : List Char} (hds : ∀ c ∈ ds, isDigit c = true)
    (hrest : NoDigit rest) : (ds ++ rest).takeWhile isDigit = ds := by
  have hnone : rest.takeWhile isDigit = [] := by
    cases rest with
    | nil => rfl
    | cons c rest => rw [List.takeWhile_cons, hrest c rfl]; rfl
  rw [List.takeWhile_append_of_pos hds, hnone, List.append_nil]

/-- **Digits that fit are gathered**, and which ones do does not depend on what follows. -/
theorem gather_uniform (limit significand count : Nat) {ds : List Char}
    (hds : ∀ c ∈ ds, isDigit c = true) :
    ∃ gathered count' left, (∀ c ∈ left, isDigit c = true)
      ∧ (left = [] → count' = count + ds.length)
      ∧ ∀ rest, NoDigit rest →
        gather limit significand count (ds ++ rest) = ⟨gathered, count', left ++ rest⟩ := by
  induction ds generalizing significand count with
  | nil =>
    refine ⟨significand, count, [], by simp, fun _ => rfl, fun rest hrest => ?_⟩
    cases rest with
    | nil => rfl
    | cons c rest => simp [gather, hrest c rfl]
  | cons c ds ih =>
    obtain ⟨hc, hds'⟩ := List.forall_mem_cons.mp hds
    by_cases hfits : significand * 10 + digitValue c ≤ limit
    · obtain ⟨gathered, count', left, hleft, hcount, hgather⟩ :=
        ih (significand * 10 + digitValue c) (count + 1) hds'
      refine ⟨gathered, count', left, hleft, fun hnil => ?_, fun rest hrest => ?_⟩
      · rw [hcount hnil, List.length_cons]
        omega
      · rw [List.cons_append, gather, if_pos hc, if_pos hfits, hgather rest hrest]
    · refine ⟨significand, count, c :: ds, hds, by simp, fun rest _ => ?_⟩
      rw [List.cons_append, gather, if_pos hc, if_neg hfits]

/-! ### The parts of a number

The readers are taken from the last part of a number to the first. Each part is split into its own
digits and what comes after them, and the reader of that is the one before.
-/

section Parts

variable (negative : Bool)

/-- Scaling a significand looks at no text; it gives a float, or is out of range. -/
theorem floatOf_uniform (significand : Nat) (exponent : Int) :
    Uniform (floatOf negative significand exponent) := by
  unfold floatOf
  cases scaleByTen significand exponent with
  | some x => exact .ok _
  | none => exact .error _

/-- What is read after the mark and the sign of an exponent, which is `exponentPart` from there
    on. -/
def exponentDigits (significand : Nat) (exponent : Int) (down : Bool) (digits : List Char) :
    Except Fault (Number × List Char) :=
  let g := gather maxExponent 0 0 digits
  match g.rest with
  | d :: after =>
    if isDigit d then
      if significand ≠ 0 ∧ ¬ down then .error (.here .numberOutOfRange after)
      else .ok (.float (.zero negative), after.dropWhile isDigit)
    else floatOf negative significand (if down then exponent - g.significand
      else exponent + g.significand) g.rest
  | [] => floatOf negative significand (if down then exponent - g.significand
      else exponent + g.significand) []

/-- Reading an exponent takes its sign away and goes on with its digits. -/
theorem exponentPart_sign (significand : Nat) (exponent : Int) {sign : List Char}
    (hsign : IsSign sign) {c : Char} (hc : isDigit c = true) :
    ∃ down, ∀ t, exponentPart negative significand exponent (sign ++ c :: t)
      = exponentDigits negative significand exponent down (c :: t) := by
  have hdigits (down : Bool) (t : List Char) :
      (if isDigit c then exponentDigits negative significand exponent down (c :: t)
        else .error (.peek .invalidNumber (c :: t)))
        = exponentDigits negative significand exponent down (c :: t) := if_pos hc
  rcases hsign with rfl | rfl | rfl
  · refine ⟨false, fun t => ?_⟩
    rw [← hdigits]
    unfold exponentPart
    split
    next down digits hdown =>
    split at hdown
    · next heq => exact absurd hc (by rw [(List.cons.inj heq).1]; decide)
    · next heq => exact absurd hc (by rw [(List.cons.inj heq).1]; decide)
    · cases hdown
      rfl
  · refine ⟨false, fun t => ?_⟩
    rw [← hdigits]
    rfl
  · refine ⟨true, fun t => ?_⟩
    rw [← hdigits]
    rfl

/-- **The exponent of a number** after its mark is read whatever follows, or not whatever
    follows. -/
theorem exponentPart_uniform (significand : Nat) (exponent : Int) {s : List Char} (hs : IsPower s) :
    Uniform fun rest => exponentPart negative significand exponent (s ++ rest) := by
  obtain ⟨sign, ds, rfl, hsign, hne, hds⟩ := hs
  obtain ⟨c, ds, rfl⟩ := List.exists_cons_of_ne_nil hne
  obtain ⟨down, hdown⟩ := exponentPart_sign negative significand exponent hsign
    (hds c List.mem_cons_self)
  obtain ⟨gathered, count, left, hleft, -, hgather⟩ := gather_uniform maxExponent 0 0 hds
  -- without its sign the exponent is its digits, of which some may be left
  have hdigits : Uniform fun rest =>
      exponentDigits negative significand exponent down (c :: ds ++ rest) := by
    have hstep (rest : List Char) (hrest : Ends rest) := hgather rest hrest.noDigit
    cases left with
    | nil =>
      refine (floatOf_uniform negative significand (if down then exponent - gathered
        else exponent + gathered)).congr fun rest hrest => ?_
      rw [exponentDigits, hstep rest hrest, List.nil_append]
      cases rest with
      | nil => rfl
      | cons d rest => exact if_neg (by rw [hrest.noDigit d rfl]; decide)
    -- too many digits: zero stays zero, and so does what is scaled down
    | cons d left =>
      obtain ⟨hd, hleft⟩ := List.forall_mem_cons.mp hleft
      have hbeyond (rest : List Char) (hrest : Ends rest) :
          exponentDigits negative significand exponent down (c :: ds ++ rest)
            = if significand ≠ 0 ∧ ¬ down then .error (.here .numberOutOfRange (left ++ rest))
              else .ok (.float (.zero negative), rest) := by
        rw [exponentDigits, hstep rest hrest]
        simp only [List.cons_append, hd, ↓reduceIte, dropWhile_digits hleft hrest.noDigit]
      by_cases hrange : significand ≠ 0 ∧ ¬ down
      · exact (Uniform.error fun rest => .here .numberOutOfRange (left ++ rest)).congr
          fun rest hrest => (hbeyond rest hrest).trans (if_pos hrange)
      · exact (Uniform.ok (.float (.zero negative))).congr
          fun rest hrest => (hbeyond rest hrest).trans (if_neg hrange)
  refine hdigits.congr fun rest _ => ?_
  rw [List.append_assoc]
  exact hdown (ds ++ rest)

/-- Where an exponent may stand, the one that stands there or the end of the number is read
    whatever follows. -/
theorem optionalExponent_uniform (significand : Nat) (exponent : Int) {s : List Char}
    (hs : IsExponent s) :
    Uniform fun rest => optionalExponent negative significand exponent (s ++ rest) := by
  cases hs with
  | none =>
    refine (floatOf_uniform negative significand exponent).congr fun rest hrest => ?_
    unfold optionalExponent
    split
    · next heq => exact absurd rfl (hrest 'e' (by rw [← List.nil_append rest, heq]; rfl)).2.2.1
    · next heq => exact absurd rfl (hrest 'E' (by rw [← List.nil_append rest, heq]; rfl)).2.2.2
    · rfl
  | some hmark hsign hds =>
    have hpower := exponentPart_uniform negative significand exponent ⟨_, _, rfl, hsign, hds⟩
    rcases hmark with rfl | rfl
    · exact hpower
    · exact hpower

/-- What follows the digits of a fraction does not begin with a digit: an exponent begins with
    its mark. -/
theorem noDigit_exponent {s rest : List Char} (hs : IsExponent s) (hrest : Ends rest) :
    NoDigit (s ++ rest) := by
  cases hs with
  | none => exact hrest.noDigit
  | some hmark _ _ =>
    rintro c hc
    cases hc
    rcases hmark with rfl | rfl <;> decide

/-- **The fraction of a number** after its point is read whatever follows, or not whatever
    follows. -/
theorem fractionPart_uniform (significand : Nat) (exponent : Int) {ds s : List Char}
    (hds : IsDigits ds) (hs : IsExponent s) :
    Uniform fun rest => fractionPart negative significand exponent (ds ++ s ++ rest) := by
  obtain ⟨gathered, count, left, hleft, hcount, hgather⟩ :=
    gather_uniform maxSignificand significand 0 hds.2
  refine (optionalExponent_uniform negative gathered (exponent - count) hs).congr
    fun rest hrest => ?_
  have hnoDigit := noDigit_exponent hs hrest
  rw [fractionPart, List.append_assoc, hgather _ hnoDigit]
  cases left with
  | cons c left =>
    obtain ⟨hc, hleft⟩ := List.forall_mem_cons.mp hleft
    simp only [List.cons_append, hc, ↓reduceIte, dropWhile_digits hleft hnoDigit]
  | nil =>
    -- all digits were gathered, and there is one
    have hzero : count ≠ 0 := by
      rw [hcount rfl, Nat.zero_add]
      exact Nat.ne_of_gt (List.length_pos_of_ne_nil hds.1)
    rw [List.nil_append]
    generalize s ++ rest = t at hnoDigit
    cases t with
    | nil => exact if_neg hzero
    | cons c t =>
      have hc : ¬ isDigit c = true := by rw [hnoDigit c rfl]; decide
      exact (if_neg hc).trans (if_neg hzero)

/-- What follows the digits of a whole part does not begin with a digit: a fraction begins with
    its point. -/
theorem noDigit_tail {s rest : List Char} (hs : IsTail s) (hrest : Ends rest) :
    NoDigit (s ++ rest) := by
  obtain ⟨fraction, exponent, rfl, hfraction, hexponent⟩ := hs
  cases hfraction with
  | none => exact noDigit_exponent hexponent hrest
  | some _ =>
    rintro c hc
    cases hc
    decide

/-- What comes after a whole part that fits is read whatever follows. If nothing comes, the
    number is an integer unless it is negative and out of range. -/
theorem afterWhole_uniform (significand : Nat) {s : List Char} (hs : IsTail s) :
    Uniform fun rest => afterWhole negative significand (s ++ rest) := by
  obtain ⟨fraction, exponent, rfl, hfraction, hexponent⟩ := hs
  cases hfraction with
  | some hds => exact fractionPart_uniform negative significand 0 hds hexponent
  | none =>
    cases hexponent with
    | some hmark hsign hds =>
      have hpower := exponentPart_uniform negative significand 0 ⟨_, _, rfl, hsign, hds⟩
      rcases hmark with rfl | rfl
      · exact hpower
      · exact hpower
    | none =>
      -- nothing of a fraction or an exponent comes, nor can what follows be taken for it
      have hends (rest : List Char) (hrest : Ends rest) : afterWhole negative significand rest
          = if ¬ negative then .ok (.int significand, rest)
            else if 1 ≤ significand ∧ Number.minInt ≤ -(significand : Int) then
              .ok (.int (-significand), rest)
            else .ok (.float { Binary64.ofNat significand with negative := true }, rest) := by
        unfold afterWhole
        split
        · exact absurd rfl (hrest '.' rfl).2.1
        · exact absurd rfl (hrest 'e' rfl).2.2.1
        · exact absurd rfl (hrest 'E' rfl).2.2.2
        · rfl
      by_cases hnegative : ¬ negative
      · exact (Uniform.ok (.int significand)).congr fun rest hrest =>
          (hends rest hrest).trans (if_pos hnegative)
      by_cases hmin : 1 ≤ significand ∧ Number.minInt ≤ -(significand : Int)
      · exact (Uniform.ok (.int (-significand))).congr fun rest hrest =>
          (hends rest hrest).trans ((if_neg hnegative).trans (if_pos hmin))
      · exact (Uniform.ok (.float { Binary64.ofNat significand with negative := true })).congr
          fun rest hrest => (hends rest hrest).trans ((if_neg hnegative).trans (if_neg hmin))

/-- What comes after a whole part with digits that did not fit is read whatever follows, or not
    whatever follows. -/
theorem afterLongWhole_uniform (significand dropped : Nat) {s : List Char} (hs : IsTail s) :
    Uniform fun rest => afterLongWhole negative significand dropped (s ++ rest) := by
  obtain ⟨fraction, exponent, rfl, hfraction, hexponent⟩ := hs
  cases hfraction with
  | some hds => exact fractionPart_uniform negative significand dropped hds hexponent
  | none =>
    refine (optionalExponent_uniform negative significand dropped hexponent).congr
      fun rest hrest => ?_
    unfold afterLongWhole
    split
    · next heq =>
      -- neither an exponent nor what follows the number begins with a point
      cases hexponent with
      | none =>
        exact absurd rfl (hrest '.' (by rw [← List.nil_append rest]; exact congrArg _ heq)).2.1
      | some hmark _ _ =>
        rcases hmark with rfl | rfl
        · cases heq
        · cases heq
    · rfl

/-- **A number** is read whatever follows it, or not whatever follows it. -/
theorem numeral_uniform {s : List Char} (hs : IsUnsigned s) :
    Uniform fun rest => numeral negative (s ++ rest) := by
  obtain ⟨whole, tail, rfl, hwhole, htail⟩ := hs
  cases hwhole with
  | zero =>
    refine (afterWhole_uniform negative 0 htail).congr fun rest hrest => ?_
    have hnoDigit := noDigit_tail htail hrest
    rw [List.append_assoc, List.singleton_append]
    -- a zero at the head is read alone
    generalize tail ++ rest = t at hnoDigit
    cases t with
    | nil => rfl
    | cons c t => exact if_neg (by rw [hnoDigit c rfl]; decide)
  | @digits c ds hc hds =>
    obtain ⟨gathered, count, left, hleft, -, hgather⟩ := gather_uniform maxSignificand 0 0 hds.2
    have hdigit : isDigit c = true := hds.2 c List.mem_cons_self
    -- the digits that do not fit are counted
    have hnumeral (rest : List Char) (hrest : Ends rest) :
        numeral negative (c :: ds ++ tail ++ rest)
          = if left.isEmpty then afterWhole negative gathered (tail ++ rest)
            else afterLongWhole negative gathered left.length (tail ++ rest) := by
      have hnoDigit := noDigit_tail htail hrest
      have hgathered := hgather _ hnoDigit
      rw [List.append_assoc, List.cons_append] at *
      unfold numeral
      split
      · next heq => cases heq
      · next heq => exact absurd (List.cons.inj heq).1 hc
      · next heq => exact absurd (List.cons.inj heq).1 hc
      · next c' rest' heq =>
        obtain ⟨rfl, rfl⟩ := List.cons.inj heq
        simp only [hdigit, hgathered, ↓reduceIte, takeWhile_digits hleft hnoDigit,
          dropWhile_digits hleft hnoDigit]
        cases left with
        | nil => rfl
        | cons d left => rfl
    cases left with
    | nil =>
      exact (afterWhole_uniform negative gathered htail).congr hnumeral
    | cons d left =>
      exact (afterLongWhole_uniform negative gathered _ htail).congr hnumeral

end Parts

end SchemaEmbed.Json
