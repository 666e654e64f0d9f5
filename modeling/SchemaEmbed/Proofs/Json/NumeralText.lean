import SchemaEmbed.Json.Numeral
import SchemaEmbed.Proofs.Decimal.Range
import SchemaEmbed.Proofs.Json.Numeral
import SchemaEmbed.Proofs.Value

namespace SchemaEmbed.Json

/-!
# The texts of numbers

The reader of numbers is described here by the texts that it takes. Only its text tells where a
number ends; its value does not, since digits that do not fit are dropped, and since one float is
the value of many texts.

* `IsNumeral` — the text of a number: a sign, a whole part without a zero before it, a fraction and
  an exponent, of which only the whole part must be there;
* `scaleByTen_finite` — a number that is scaled is finite, or is refused as out of range;
* `Reads` — what is read from the head of a text has a certain form, and the number is finite;
* `numeral_reads` — **what is read as a number** is a numeral.

The converse is not true, as a numeral may be out of range.
-/

open Value (IsFloatFinite)

/-! ### Numerals -/

/-- One or more digits. -/
def IsDigits (s : List Char) : Prop := s ≠ [] ∧ ∀ c ∈ s, isDigit c = true

/-- The whole part of a number: digits, the first of which is no zero, unless zero is all there
    is. -/
inductive IsWhole : List Char → Prop
  | zero : IsWhole ['0']
  | digits {c ds} (hc : c ≠ '0') (h : IsDigits (c :: ds)) : IsWhole (c :: ds)

/-- The fraction of a number with its point, or nothing. -/
inductive IsFraction : List Char → Prop
  | none : IsFraction []
  | some {ds} (h : IsDigits ds) : IsFraction ('.' :: ds)

/-- A sign, if there is one. -/
def IsSign (s : List Char) : Prop := s = [] ∨ s = ['+'] ∨ s = ['-']

/-- The exponent of a number with its mark and its sign, or nothing. -/
inductive IsExponent : List Char → Prop
  | none : IsExponent []
  | some {mark sign ds} (hmark : mark = 'e' ∨ mark = 'E') (hsign : IsSign sign) (h : IsDigits ds) :
    IsExponent (mark :: (sign ++ ds))

/-- What can follow the whole part of a number: a fraction and an exponent, either of which may
    be missing. -/
def IsTail (s : List Char) : Prop :=
  ∃ fraction exponent, s = fraction ++ exponent ∧ IsFraction fraction ∧ IsExponent exponent

/-- The text of a number without its sign: a whole part and what can follow it. -/
def IsUnsigned (s : List Char) : Prop :=
  ∃ whole tail, s = whole ++ tail ∧ IsWhole whole ∧ IsTail tail

/-- The text of a number, after a minus if it is negative. No plus can stand before it. -/
def IsNumeral (s : List Char) : Prop := IsUnsigned s ∨ ∃ t, s = '-' :: t ∧ IsUnsigned t

/-- A numeral begins with a digit or a minus. -/
theorem IsNumeral.head {s : List Char} (h : IsNumeral s) :
    ∃ c t, s = c :: t ∧ (isDigit c = true ∨ c = '-') := by
  have hunsigned {s : List Char} (h : IsUnsigned s) : ∃ c t, s = c :: t ∧ isDigit c = true := by
    obtain ⟨whole, tail, rfl, hwhole, -⟩ := h
    cases hwhole with
    | zero => exact ⟨'0', tail, rfl, by decide⟩
    | digits _ hdigits => exact ⟨_, _, rfl, hdigits.2 _ List.mem_cons_self⟩
  rcases h with h | ⟨t, rfl, -⟩
  · obtain ⟨c, t, hs, hc⟩ := hunsigned h
    exact ⟨c, t, hs, .inl hc⟩
  · exact ⟨'-', t, rfl, .inr rfl⟩

/-! ### What is scaled is finite

A significand is scaled by powers of ten that are floats themselves. Dividing by a number that is
at least one cannot leave the range, and a product is looked at before it is taken.
-/

/-- A power of ten is at least one. -/
theorem one_le_powerOfTen (e : Nat) : 1 ≤ (powerOfTen e).toRat := by
  unfold powerOfTen Binary64.ofDecimal
  rw [if_neg (by decide), if_neg (by omega)]
  split
  · exact Binary64.one_le_toRat (Nat.mul_le_mul_right _ (by decide))
  · rw [if_pos (Int.natCast_nonneg e), Int.toNat_natCast, Nat.one_mul]
    exact Binary64.one_le_ofNat _ (Nat.ne_of_gt (Nat.pow_pos (by decide)))

/-- Bringing an exponent into range divides by a power of ten, and so keeps a number finite. -/
theorem liftExponent_finite (fuel : Nat) {x : Binary64} (hx : x.isFinite = true) (e : Int) :
    (liftExponent fuel x e).1.isFinite = true := by
  induction fuel generalizing x e with
  | zero => exact hx
  | succ fuel ih =>
    rw [liftExponent]
    split
    · exact ih (Binary64.isFinite_div hx (one_le_powerOfTen 308)) _
    · exact hx

/-- A significand that fits is far below the greatest float, and so it is rounded to a finite
    number. -/
theorem ofNat_finite {significand : Nat} (h : significand ≤ maxSignificand) :
    (Binary64.ofNat significand).isFinite = true := by
  refine Binary64.isFinite_ofRatio _ (by decide) ?_
  have hle : (significand : ℚ) ≤ maxSignificand := by exact_mod_cast h
  have hone : (1 : ℚ) ≤ (2 * leadingBit - 1 : Nat) := by exact_mod_cast (by decide)
  calc (significand : ℚ) / (1 : Nat) = significand := by rw [Nat.cast_one, div_one]
    _ ≤ maxSignificand := hle
    _ ≤ 2 ^ (64 : Int) := by norm_num [maxSignificand]
    _ ≤ 2 ^ (971 : Int) := zpow_le_zpow_right₀ (by norm_num) (by norm_num)
    _ ≤ Binary64.maxFinite := le_mul_of_one_le_left (by positivity) hone

/-- **A number that is scaled** is finite: what would be infinite is refused. -/
theorem scaleByTen_finite {significand : Nat} {exponent : Int} {x : Binary64}
    (hmax : significand ≤ maxSignificand) (h : scaleByTen significand exponent = some x) :
    x.isFinite = true := by
  have hlift := liftExponent_finite 8 (ofNat_finite hmax) exponent
  unfold scaleByTen at h
  generalize liftExponent 8 (.ofNat significand) exponent = p at hlift h
  obtain ⟨y, e⟩ := p
  dsimp only at h hlift
  split at h
  · cases h; exact hlift
  split at h
  · cases h
  split at h
  · split at h
    · next hfinite => cases h; exact hfinite
    · cases h
  · cases h
    exact Binary64.isFinite_div hlift (one_le_powerOfTen _)

/-! ### What is read as a number

One lemma for each of the readers, from the last part of a number to the first. Each says which
form of text its reader takes, and the form of the whole is put together from these as the readers
call each other.
-/

/-- Whether what is read from the head of a text has a certain form, and gives a number that is
    not infinite and no NaN. -/
def Reads (form : List Char → Prop) (s : List Char) (r : Except Fault (Number × List Char)) :
    Prop :=
  ∀ n rest, r = .ok (n, rest) → IsFloatFinite (.number n) ∧ ∃ text, s = text ++ rest ∧ form text

namespace Reads

variable {form form' : List Char → Prop} {s : List Char}
  {r r' : Except Fault (Number × List Char)}

/-- A reading that fails reads nothing, of whatever form. -/
theorem error {f : Fault} : Reads form s (.error f) := fun _ _ h => by cases h

/-- A number that is read has the form that its text has. -/
theorem ok {n : Number} {rest : List Char} (hn : IsFloatFinite (.number n)) (text : List Char)
    (hs : s = text ++ rest) (h : form text) : Reads form s (.ok (n, rest)) := by
  rintro n' rest' heq
  cases heq
  exact ⟨hn, text, hs, h⟩

/-- A form is completed by what was read before. -/
theorem after (before : List Char) (h : Reads form s r)
    (hform : ∀ text, form text → form' (before ++ text)) : Reads form' (before ++ s) r := by
  intro n rest hr
  obtain ⟨hn, text, rfl, htext⟩ := h n rest hr
  exact ⟨hn, before ++ text, (List.append_assoc ..).symm, hform text htext⟩

/-- What is read has every more general form, too. -/
theorem mono (h : Reads form s r) (hform : ∀ text, form text → form' text) : Reads form' s r :=
  h.after [] hform

end Reads

/-- What is gathered from the head of a text are digits; they are counted, and the rest of the
    text follows them. -/
theorem gather_spec (limit significand count : Nat) (s : List Char) :
    ∃ ds, (∀ c ∈ ds, isDigit c = true) ∧ s = ds ++ (gather limit significand count s).rest
      ∧ (gather limit significand count s).count = count + ds.length := by
  induction s generalizing significand count with
  | nil => exact ⟨[], by simp, rfl, rfl⟩
  | cons c s ih =>
    rw [gather]
    split
    · next hc =>
      split
      · obtain ⟨ds, hds, hs, hcount⟩ := ih (significand * 10 + digitValue c) (count + 1)
        refine ⟨c :: ds, List.forall_mem_cons.mpr ⟨hc, hds⟩, ?_, ?_⟩
        · rw [List.cons_append, ← hs]
        · rw [hcount, List.length_cons]
          omega
      · exact ⟨[], by simp, rfl, rfl⟩
    · exact ⟨[], by simp, rfl, rfl⟩

/-- Whether a text is what follows the mark of an exponent: a sign, if any, and digits. -/
def IsPower (s : List Char) : Prop := ∃ sign ds, s = sign ++ ds ∧ IsSign sign ∧ IsDigits ds

/-- The mark of an exponent and what follows it are an exponent. -/
theorem IsPower.exponent {mark : Char} (hmark : mark = 'e' ∨ mark = 'E') {s : List Char}
    (h : IsPower s) : IsExponent (mark :: s) := by
  obtain ⟨sign, ds, rfl, hsign, hds⟩ := h
  exact .some hmark hsign hds

/-- Digits with another digit after them, and all that follow that one, are digits. -/
theorem IsDigits.append_takeWhile {ds rest : List Char} {c : Char}
    (hds : ∀ d ∈ ds, isDigit d = true) (hc : isDigit c = true) :
    IsDigits (ds ++ c :: rest.takeWhile isDigit) := by
  refine ⟨by simp, fun d hd => ?_⟩
  rcases List.mem_append.mp hd with hd | hd
  · exact hds d hd
  · rcases List.mem_cons.mp hd with rfl | hd
    · exact hc
    · exact List.all_eq_true.mp List.all_takeWhile d hd

section Parts

variable (negative : Bool) {significand : Nat} (hmax : significand ≤ maxSignificand)
  (exponent : Int)

include hmax

/-- When a significand is scaled the text of the number is over, so that nothing more is read. -/
theorem floatOf_reads (s : List Char) :
    Reads (· = []) s (floatOf negative significand exponent s) := by
  unfold floatOf
  split
  · next x hx =>
    have hfinite : x.isFinite = true := scaleByTen_finite hmax hx
    exact .ok (n := .float { x with negative }) (by exact hfinite) [] rfl rfl
  · exact .error

/-- After the mark of an exponent there is a sign, if any, and digits, even if the exponent is so
    great that some of them are dropped. -/
theorem exponentPart_reads (s : List Char) :
    Reads IsPower s (exponentPart negative significand exponent s) := by
  unfold exponentPart
  split
  next down digits hdown =>
  obtain ⟨sign, hsign, rfl⟩ : ∃ sign, IsSign sign ∧ s = sign ++ digits := by
    split at hdown <;> cases hdown
    · exact ⟨['+'], .inr (.inl rfl), rfl⟩
    · exact ⟨['-'], .inr (.inr rfl), rfl⟩
    · exact ⟨[], .inl rfl, rfl⟩
  clear hdown
  cases digits with
  | nil => exact .error
  | cons c rest =>
    dsimp only
    split
    · next hc =>
      obtain ⟨ds, hds, hsplit, -⟩ := gather_spec maxExponent 0 0 (c :: rest)
      generalize gather maxExponent 0 0 (c :: rest) = g at hsplit
      obtain ⟨gathered, count, left⟩ := g
      dsimp only at hsplit ⊢
      -- digits are gathered because the first character is one
      have hdigits (hleft : ∀ d ∈ left.head?, isDigit d = false) : IsDigits ds := by
        refine ⟨?_, hds⟩
        rintro rfl
        rw [List.nil_append] at hsplit
        have hcontra := hleft c (by rw [← hsplit]; rfl)
        rw [hc] at hcontra
        cases hcontra
      have hfloat (e : Int) (hleft : ∀ d ∈ left.head?, isDigit d = false) :
          Reads IsPower (sign ++ (c :: rest)) (floatOf negative significand e left) := by
        rw [hsplit, ← List.append_assoc]
        exact (floatOf_reads negative hmax e left).after (sign ++ ds) fun text htext =>
          ⟨sign, ds, by rw [htext, List.append_nil], hsign, hdigits hleft⟩
      -- digits that are left would make the exponent too great, and are dropped
      cases left with
      | nil => exact hfloat _ (by simp)
      | cons d after =>
        dsimp only
        split
        · next hd =>
          split
          · exact .error
          · refine .ok (by exact rfl) (sign ++ (ds ++ d :: after.takeWhile isDigit)) ?_
              ⟨sign, _, rfl, hsign, .append_takeWhile hds hd⟩
            rw [hsplit]
            simp
        · next hd => exact hfloat _ (by simpa using hd)
    · exact .error

/-- Where an exponent may stand, one is read or nothing is. -/
theorem optionalExponent_reads (s : List Char) :
    Reads IsExponent s (optionalExponent negative significand exponent s) := by
  have hpower (rest : List Char) := exponentPart_reads negative hmax exponent rest
  unfold optionalExponent
  split
  · exact (hpower _).after ['e'] fun _ h => h.exponent (.inl rfl)
  · exact (hpower _).after ['E'] fun _ h => h.exponent (.inr rfl)
  · exact (floatOf_reads negative hmax exponent _).mono fun text htext => htext ▸ .none

/-- After the point of a number there are digits, at least one, and an exponent, if any. -/
theorem fractionPart_reads (s : List Char) :
    Reads (fun t => IsTail ('.' :: t)) s (fractionPart negative significand exponent s) := by
  obtain ⟨ds, hds, hsplit, hcount⟩ := gather_spec maxSignificand significand 0 s
  have hmax' := gather_le hmax 0 s
  unfold fractionPart
  generalize gather maxSignificand significand 0 s = g at hsplit hcount hmax'
  obtain ⟨gathered, count, left⟩ := g
  dsimp only at hsplit hcount hmax' ⊢
  have hexponent (digits : List Char) (hdigits : IsDigits digits) (e : Int) (rest : List Char) :
      Reads (fun t => IsTail ('.' :: t)) (digits ++ rest)
        (optionalExponent negative gathered e rest) :=
    (optionalExponent_reads negative hmax' e rest).after digits fun text htext =>
      ⟨'.' :: digits, text, rfl, .some hdigits, htext⟩
  have hne (hzero : count ≠ 0) : IsDigits ds := ⟨by rintro rfl; simp at hcount; omega, hds⟩
  subst hsplit
  -- digits that are left do not fit the significand, and are dropped
  cases left with
  | nil =>
    dsimp only
    split
    · exact .error
    · next hzero => exact hexponent ds (hne hzero) _ _
  | cons c rest =>
    dsimp only
    split
    · next hc =>
      have hdigits : IsDigits (ds ++ c :: rest.takeWhile isDigit) := .append_takeWhile hds hc
      have hall := hexponent _ hdigits (exponent - count) (rest.dropWhile isDigit)
      rwa [List.append_assoc, List.cons_append, List.takeWhile_append_dropWhile] at hall
    · split
      · exact .error
      · next hzero => exact hexponent ds (hne hzero) _ _

/-- After a whole part that fits there are a fraction and an exponent, if any. -/
theorem afterWhole_reads (s : List Char) : Reads IsTail s (afterWhole negative significand s) := by
  have hpower (rest : List Char) := exponentPart_reads negative hmax 0 rest
  have hnothing : IsTail [] := ⟨[], [], rfl, .none, .none⟩
  unfold afterWhole
  split
  · exact (fractionPart_reads negative hmax 0 _).after ['.'] fun _ h => h
  · exact (hpower _).after ['e'] fun text htext =>
      ⟨[], 'e' :: text, rfl, .none, htext.exponent (.inl rfl)⟩
  · exact (hpower _).after ['E'] fun text htext =>
      ⟨[], 'E' :: text, rfl, .none, htext.exponent (.inr rfl)⟩
  split
  · exact .ok trivial [] rfl hnothing
  split
  · exact .ok trivial [] rfl hnothing
  · exact .ok (ofNat_finite hmax) [] rfl hnothing

/-- After a whole part whose last digits did not fit there are a fraction and an exponent, if
    any. -/
theorem afterLongWhole_reads (dropped : Nat) (s : List Char) :
    Reads IsTail s (afterLongWhole negative significand dropped s) := by
  unfold afterLongWhole
  split
  · exact (fractionPart_reads negative hmax dropped _).after ['.'] fun _ h => h
  · exact (optionalExponent_reads negative hmax dropped _).mono fun text htext =>
      ⟨[], text, rfl, .none, htext⟩

end Parts

/-- **What is read as a number** after its sign is a numeral, and the number is finite. The
    digits may be more than the significand can hold; those that it cannot hold are part of the
    text all the same. -/
theorem numeral_reads (negative : Bool) (s : List Char) :
    Reads IsUnsigned s (numeral negative s) := by
  have hzero : 0 ≤ maxSignificand := Nat.zero_le _
  have hwhole {whole rest : List Char} {r : Except Fault (Number × List Char)} (h : IsWhole whole)
      (hr : Reads IsTail rest r) : Reads IsUnsigned (whole ++ rest) r :=
    hr.after whole fun text htext => ⟨whole, text, rfl, h, htext⟩
  unfold numeral
  split
  · exact .error
  · split
    · exact .error
    · exact hwhole .zero (afterWhole_reads negative hzero _)
  · exact hwhole .zero (afterWhole_reads negative hzero [])
  · next c rest hpadded hlone =>
    split
    · next hc =>
      have hne : c ≠ '0' := by
        rintro rfl
        cases rest with
        | nil => exact hlone rfl rfl
        | cons d rest => exact hpadded d rest rfl rfl
      have hdigits {whole left : List Char} {r : Except Fault (Number × List Char)}
          (hwhole' : IsDigits whole) (hsplit : c :: rest = whole ++ left)
          (hr : Reads IsTail left r) : Reads IsUnsigned (c :: rest) r := by
        obtain ⟨d, ds, rfl⟩ := List.exists_cons_of_ne_nil hwhole'.1
        obtain ⟨rfl, -⟩ := List.cons.inj hsplit
        rw [hsplit]
        exact hwhole (.digits hne hwhole') hr
      obtain ⟨ds, hds, hsplit, -⟩ := gather_spec maxSignificand 0 0 (c :: rest)
      have hmax := gather_le hzero 0 (c :: rest)
      generalize gather maxSignificand 0 0 (c :: rest) = g at hsplit hmax
      obtain ⟨gathered, count, left⟩ := g
      dsimp only at hsplit hmax ⊢
      split
      · next hexcess =>
        -- all digits were gathered, and there is one
        refine hdigits ⟨?_, hds⟩ hsplit (afterWhole_reads negative hmax left)
        rintro rfl
        rw [List.nil_append] at hsplit
        rw [← hsplit, List.takeWhile_cons_of_pos hc] at hexcess
        cases hexcess
      · next hexcess =>
        -- the digits that do not fit are only counted, but they are part of the text
        have hall : c :: rest = (ds ++ left.takeWhile isDigit) ++ left.dropWhile isDigit := by
          rw [List.append_assoc, List.takeWhile_append_dropWhile, hsplit]
        refine hdigits ⟨by simpa using fun _ => hexcess, fun d hd => ?_⟩ hall
          (afterLongWhole_reads negative hmax _ _)
        rcases List.mem_append.mp hd with hd | hd
        · exact hds d hd
        · exact List.all_eq_true.mp List.all_takeWhile d hd
    · exact .error

end SchemaEmbed.Json
