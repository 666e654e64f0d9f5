import SchemaEmbed.Json.Quoted

namespace SchemaEmbed.Json

/-!
# JSON strings are read as they were written

The writer escapes as little as it can: the two characters that mean something inside quotes, and
the control characters, of which five have a letter and the others go by their number. The reader
undoes every escape that JSON has, so that the round trip holds for more forms of a string than the
one that is written here; YAML and TOML use some of them.

* `decodeFrom_octet` — one character, by the number of an octet;
* `decodeFrom_escape` — one character, in the form it has inside quotes;
* `decode_flatMap` — a string up to and with its closing quote, in any form in which each character
  is read;
* `decode_encode` — and so in the form that the writer gives it.
-/

/-! ### Hexadecimal digits -/

/-- The digit that is written for a number below sixteen is read as that number. -/
theorem hexValue_hexDigit {n : Nat} (h : n < 16) : hexValue? (hexDigit n) = some n := by
  have hall : ∀ n < 16, hexValue? (hexDigit n) = some n := by decide
  exact hall n h

/-- **The number of an octet**, in four digits of which the first two are zero, is read as its
    character. -/
theorem decodeFrom_octet {a b : Char} {n : Nat} (hn : n < 256) (ha : hexValue? a = some (n / 16))
    (hb : hexValue? b = some (n % 16)) (read rest : List Char) :
    decodeFrom read ('\\' :: 'u' :: '0' :: '0' :: a :: b :: rest)
      = decodeFrom (Char.ofNat n :: read) rest := by
  have hzero : hexValue? '0' = some 0 := by decide
  have hvalue : hexValue4? '0' '0' a b = some n := by
    simp only [hexValue4?, hzero, ha, hb, Option.bind_eq_bind, Option.bind_some, Option.pure_def]
    congr 1
    omega
  -- an octet is no half of a surrogate pair
  have hlow : isLowSurrogate n = false := by
    simp only [isLowSurrogate, Bool.and_eq_false_iff, decide_eq_false_iff_not]; omega
  have hhigh : isHighSurrogate n = false := by
    simp only [isHighSurrogate, Bool.and_eq_false_iff, decide_eq_false_iff_not]; omega
  rw [decodeFrom]
  simp only [hvalue, hlow, hhigh]
  rfl

/-! ### Characters -/

/-- A character that is neither quote nor backslash nor control character stands for itself. -/
theorem decodeFrom_plain {c : Char} (hquote : c ≠ '"') (hslash : c ≠ '\\')
    (hcontrol : ¬ c.toNat < 0x20) (read rest : List Char) :
    decodeFrom read (c :: rest) = decodeFrom (c :: read) rest := by
  rw [decodeFrom, if_neg hcontrol]
  all_goals simp_all

/-- **One character** is read as it was written: the text of its form is gone, and the character
    is the last one read. -/
theorem decodeFrom_escape (read : List Char) (c : Char) (rest : List Char) :
    decodeFrom read (escape c ++ rest) = decodeFrom (c :: read) rest := by
  -- the cases are those of `escape`, in their order
  unfold escape
  by_cases hquote : c = '"'
  · subst hquote
    simp [decodeFrom, unescape?]
  by_cases hslash : c = '\\'
  · subst hslash
    simp [decodeFrom, unescape?]
  by_cases hb : c = '\x08'
  · subst hb
    simp [decodeFrom, unescape?]
  by_cases ht : c = '\t'
  · subst ht
    simp [decodeFrom, unescape?]
  by_cases hn : c = '\n'
  · subst hn
    simp [decodeFrom, unescape?]
  by_cases hf : c = '\x0c'
  · subst hf
    simp [decodeFrom, unescape?]
  by_cases hr : c = '\r'
  · subst hr
    simp [decodeFrom, unescape?]
  simp only [if_neg hquote, if_neg hslash, if_neg hb, if_neg ht, if_neg hn, if_neg hf, if_neg hr]
  by_cases hcontrol : c.toNat < 0x20
  · -- a control character without a letter is written by its number
    rw [if_pos hcontrol]
    have hread := decodeFrom_octet (n := c.toNat) (by omega) (hexValue_hexDigit (by omega))
      (hexValue_hexDigit (by omega)) read rest
    rwa [Char.ofNat_toNat] at hread
  · rw [if_neg hcontrol, List.singleton_append, decodeFrom_plain hquote hslash hcontrol]

/-- **A string** is read as it was written, in any form in which each character is, and what
    follows its closing quote is left. -/
theorem decode_flatMap {form : Char → List Char}
    (hform : ∀ read c rest, decodeFrom read (form c ++ rest) = decodeFrom (c :: read) rest)
    (s rest : List Char) :
    decode (s.flatMap form ++ '"' :: rest) = .ok (String.ofList s, rest) := by
  -- on the characters that are still to be read, with those read before them put aside
  have hread (chars read : List Char) :
      decodeFrom read (chars.flatMap form ++ '"' :: rest)
        = .ok (read.reverse ++ chars, rest) := by
    induction chars generalizing read with
    | nil => simp [decodeFrom]
    | cons c chars ih =>
      rw [List.flatMap_cons, List.append_assoc, hform, ih]
      simp
  simp only [decode, hread, List.reverse_nil, List.nil_append]

/-- A string between quotes as the writer escapes it is read back, and the reader stops behind
    the closing quote. -/
theorem decode_encode (s : String) (rest : List Char) :
    decode (s.toList.flatMap escape ++ '"' :: rest) = .ok (s, rest) := by
  rw [decode_flatMap decodeFrom_escape, String.ofList_toList]

end SchemaEmbed.Json
