import SchemaEmbed.Proofs.Outcome
import SchemaEmbed.Toml.Quoted
import SchemaEmbed.Toml.Written

namespace SchemaEmbed.Toml

/-!
# Strings are read as they were written

TOML has four styles of strings. The writer takes the first of them in which the string needs no
escape, with three quotes where one does not do. So what has to be shown of each style depends on
the characters that led to it.

* `escape_spec` — the form of a character between double quotes is read as it;
* `readBasic_escaped` / `readLiteral_plain` — strings on one line;
* `readLongBasic_body` / `readLongLiteral_plain` — strings in three quotes, in which no run of
  quotes closes the string before its end;
* `readString_stringChars` — a string is read back in the style that was chosen for it.

One or two quotes can stand in a string with three quotes around it, also right before its end.
That is why its body is read with the number of quotes that came just before.
-/

/-! ### Characters

Between double quotes a character stands for itself or is escaped. An escape is a letter of its own
or a code of four hexadecimal digits, which the writer uses only for control characters.
-/

/-- A character is found by its code point. -/
theorem charOfCode_toNat (c : Char) : charOfCode? c.toNat = some c := by
  have hvalid : c.toNat.isValidChar := c.valid
  unfold charOfCode?
  rw [dif_pos hvalid]
  rfl

/-- Four hexadecimal digits write the code point of a character that has to be escaped. These are
    few enough to be tried one by one. -/
theorem numberInBase_code {n : Nat} (hn : n < 128) :
    numberInBase 16 ['0', '0', hexDigit (n / 16), hexDigit (n % 16)] = some n := by
  have hall : ∀ n < 128,
      numberInBase 16 ['0', '0', hexDigit (n / 16), hexDigit (n % 16)] = some n := by
    decide +kernel
  exact hall n hn

/-- An escape by code point is read as its character. -/
theorem readEscape_code {c : Char} (hc : c.toNat < 128) (t : List Char) :
    readEscape ('u' :: '0' :: '0' :: hexDigit (c.toNat / 16) :: hexDigit (c.toNat % 16) :: t)
      = .ok (c, t) := by
  simp [readEscape, escapedLetter?, codeWidth?, numberInBase_code hc, charOfCode_toNat]

/-- **The form of a character** is the character itself, or a backslash and what is read as the
    character. In the second case no blank and no break follows the backslash, which would join
    two lines. -/
theorem escape_spec (c : Char) :
    (escape c = [c] ∧ isControl c = false ∧ c ≠ '"' ∧ c ≠ '\\')
      ∨ ∃ d form, escape c = '\\' :: d :: form ∧ isBlank d = false ∧ d ≠ '\n' ∧ d ≠ '\r'
        ∧ ∀ t, readEscape (d :: form ++ t) = .ok (c, t) := by
  unfold escape
  split
  · next h => exact .inr ⟨'b', [], rfl, by decide, by decide, by decide, fun t => by rw [h]; rfl⟩
  split
  · next h => exact .inr ⟨'t', [], rfl, by decide, by decide, by decide, fun t => by rw [h]; rfl⟩
  split
  · next h => exact .inr ⟨'n', [], rfl, by decide, by decide, by decide, fun t => by rw [h]; rfl⟩
  split
  · next h => exact .inr ⟨'f', [], rfl, by decide, by decide, by decide, fun t => by rw [h]; rfl⟩
  split
  · next h => exact .inr ⟨'r', [], rfl, by decide, by decide, by decide, fun t => by rw [h]; rfl⟩
  split
  · next h => exact .inr ⟨'"', [], rfl, by decide, by decide, by decide, fun t => by rw [h]; rfl⟩
  split
  · next h => exact .inr ⟨'\\', [], rfl, by decide, by decide, by decide, fun t => by rw [h]; rfl⟩
  split
  · next h =>
    -- control characters are among the first 128
    have hlow : c.toNat < 128 := by
      simp only [isControl, Bool.or_eq_true, Bool.and_eq_true, decide_eq_true_eq, beq_iff_eq] at h
      omega
    exact .inr ⟨'u', _, rfl, by decide, by decide, by decide, fun t => readEscape_code hlow t⟩
  · next hquote hslash hcontrol =>
    exact .inl ⟨rfl, by simpa using hcontrol, hquote, hslash⟩

/-- The form of a character has at least one character, so fuel for the text is fuel for its
    form. -/
theorem length_escape (c : Char) : 1 ≤ (escape c).length := by
  rcases escape_spec c with ⟨hform, -⟩ | ⟨d, form, hform, -⟩ <;> rw [hform] <;>
    exact Nat.succ_le_succ (Nat.zero_le _)

/-- Characters in their forms are no shorter than by themselves. -/
theorem length_flatMap_escape (s : List Char) : s.length ≤ (s.flatMap escape).length := by
  induction s with
  | nil => exact Nat.le_refl 0
  | cons c s ih =>
    have hform := length_escape c
    rw [List.flatMap_cons, List.length_append, List.length_cons]
    omega

/-- The body of a string in three double quotes is no shorter than the string. -/
theorem length_longBasicBody (s : List Char) (run : Nat) :
    s.length ≤ (longBasicBody run s).length := by
  induction s generalizing run with
  | nil => exact Nat.le_refl 0
  | cons c s ih =>
    have hform := length_escape c
    have hzero := ih 0
    have hnext := ih (run + 1)
    rw [longBasicBody]
    split
    · split <;> simp only [List.length_cons] <;> omega
    · split
      · simp only [List.length_cons]
        omega
      · rw [List.length_append, List.length_cons]
        omega

/-! ### Strings on one line

The reader goes on to the closing quote. Between double quotes no form of a character has an
unescaped one in it; between single quotes the string itself must not have one.
-/

/-- Characters in their forms are read one by one up to the closing quote. What was `read` before
    comes in reverse. -/
theorem readBasicFrom_escaped (s t : List Char) (fuel : Nat) (hfuel : s.length < fuel)
    (read : List Char) :
    readBasicFrom fuel read (s.flatMap escape ++ '"' :: t)
      = .ok (String.ofList (read.reverse ++ s), t) := by
  induction s generalizing fuel read with
  | nil =>
    obtain ⟨fuel, rfl⟩ := Nat.exists_eq_add_of_lt hfuel
    simp [readBasicFrom]
  | cons c s ih =>
    obtain ⟨fuel, rfl⟩ : ∃ n, fuel = n + 1 := ⟨fuel - 1, by omega⟩
    have hlater := ih fuel (by simpa using hfuel) (c :: read)
    rw [List.reverse_cons, List.append_assoc, List.singleton_append] at hlater
    rw [List.flatMap_cons, List.append_assoc]
    rcases escape_spec c with ⟨hform, hcontrol, hquote, hslash⟩ | ⟨d, form, hform, -, -, -, hread⟩
    · rw [hform, List.singleton_append, readBasicFrom]
      · rw [hcontrol]
        exact hlater
      · exact fun heq => hquote heq
      · exact fun heq => hslash heq
    · rw [hform, List.cons_append, readBasicFrom, hread, ok_bind]
      exact hlater

/-- **A string on one line in double quotes** is read after its opening quote. -/
theorem readBasic_escaped (s t : List Char) :
    readBasic (s.flatMap escape ++ '"' :: t) = .ok (String.ofList s, t) := by
  have hlength := length_flatMap_escape s
  apply readBasicFrom_escaped
  simp only [List.length_append, List.length_cons]
  omega

/-- **A string on one line in single quotes** is read after its opening quote. -/
theorem readLiteral_plain {s : List Char} (hcontrol : ∀ c ∈ s, isControl c = false)
    (hquote : '\'' ∉ s) (t : List Char) :
    readLiteral (s ++ '\'' :: t) = .ok (String.ofList s, t) := by
  have hplain : ∀ c ∈ s, (c != '\'') = true := by
    intro c hc
    rw [bne_iff_ne]
    rintro rfl
    exact hquote hc
  have htake : (s ++ '\'' :: t).takeWhile (· != '\'') = s := by
    rw [List.takeWhile_append_of_pos hplain]
    simp
  have hdrop : (s ++ '\'' :: t).dropWhile (· != '\'') = '\'' :: t := by
    rw [List.dropWhile_append_of_pos hplain]
    simp
  have hany : s.any isControl = false := by
    rw [List.any_eq_false]
    exact fun c hc => by simp [hcontrol c hc]
  simp [readLiteral, htake, hdrop, hany]

/-! ### Strings in three quotes

Three quotes close such a string, and as many as come right before them, up to two, belong to it.
So before each quote of the body it has to be known that no third one follows. The writer escapes
every third quote between double ones, and does not take single ones for a text with three in a
row.
-/

section Long

variable {q : Char}

/-- Up to two quotes before three others belong to the string that they close. -/
theorem closingQuotes_end {j : Nat} (hj : j ≤ 2) {t : List Char} (ht : t.head? ≠ some q) :
    closingQuotes? q (List.replicate j q ++ q :: q :: q :: t) = some j := by
  -- no further quote follows the three
  have hstop : ∀ n, (t.take n).takeWhile (· == q) = [] := by
    intro n
    cases t with
    | nil => simp
    | cons a t =>
      have ha : (a == q) = false := by simpa using ht
      cases n with
      | zero => rfl
      | succ n => rw [List.take_succ_cons, List.takeWhile_cons, ha]; rfl
  match j, hj with
  | 0, _ => simp [closingQuotes?, hstop]
  | 1, _ => simp [closingQuotes?, List.replicate_succ, hstop]
  | 2, _ => simp [closingQuotes?, List.replicate_succ]

/-- Up to two quotes before another character close nothing, as a third one is missing. -/
theorem closingQuotes_within {j : Nat} (hj : j ≤ 2) {c : Char} (hc : c ≠ q) (t : List Char) :
    closingQuotes? q (List.replicate j q ++ c :: t) = none := by
  have hc' : (c == q) = false := by simpa using hc
  match j, hj with
  | 0, _ => simp [closingQuotes?, hc']
  | 1, _ => simp [closingQuotes?, List.replicate_succ, hc']
  | 2, _ => simp [closingQuotes?, List.replicate_succ, hc']

/-- A line of a string in three quotes may hold all characters but control characters, and ends
    with a break. -/
theorem readLineChar_plain {c : Char} (hc : isControl c = false ∨ c = '\n') (t : List Char) :
    readLineChar (c :: t) = .ok (c, t) := by
  rcases hc with hc | rfl
  · simp [readLineChar, hc]
  · rfl

/-- The quotes at the head of the body of a long basic string, after `run` others: they make up
    the rest of the string, or something else stands after them. In either case they are at most
    two together with those before. -/
theorem longBasicBody_quotes (s : List Char) (run : Nat) (hrun : run ≤ 2) :
    (∃ j, j + run ≤ 2 ∧ s = List.replicate j '"' ∧ longBasicBody run s = List.replicate j '"')
      ∨ ∃ j c rest, j + run ≤ 2 ∧ c ≠ '"' ∧
        longBasicBody run s = List.replicate j '"' ++ c :: rest := by
  induction s generalizing run with
  | nil => exact .inl ⟨0, by omega, rfl, rfl⟩
  | cons c s ih =>
    by_cases hc : c = '"'
    · subst hc
      -- the third quote in a row is escaped, and any other one is not
      by_cases hfull : run = 2
      · have hbody : longBasicBody run ('"' :: s) = '\\' :: '"' :: longBasicBody 0 s := by
          rw [longBasicBody, if_pos rfl, if_pos hfull]
        exact .inr ⟨0, '\\', _, by omega, by decide, hbody⟩
      · have hbody : longBasicBody run ('"' :: s) = '"' :: longBasicBody (run + 1) s := by
          rw [longBasicBody, if_pos rfl, if_neg hfull]
        rcases ih (run + 1) (by omega) with ⟨j, hj, hs, hlater⟩ | ⟨j, d, rest, hj, hd, hlater⟩
        · refine .inl ⟨j + 1, by omega, ?_, ?_⟩
          · rw [hs, List.replicate_succ]
          · rw [hbody, hlater, List.replicate_succ]
        · refine .inr ⟨j + 1, d, rest, by omega, hd, ?_⟩
          rw [hbody, hlater, List.replicate_succ, List.cons_append]
    · by_cases hbreak : c = '\n'
      · subst hbreak
        exact .inr ⟨0, '\n', _, by omega, by decide, rfl⟩
      · have hbody : longBasicBody run (c :: s) = escape c ++ longBasicBody 0 s := by
          rw [longBasicBody, if_neg hc, if_neg hbreak]
        rcases escape_spec c with ⟨hform, -⟩ | ⟨d, form, hform, -⟩
        · exact .inr ⟨0, c, _, by omega, hc, by rw [hbody, hform]; rfl⟩
        · exact .inr ⟨0, '\\', _, by omega, by decide, by rw [hbody, hform]; rfl⟩

/-- Three quotes close the string, and those before them that belong to it are read with them. -/
theorem readLongBasicFrom_close {s : List Char} {extra : Nat}
    (hclose : closingQuotes? '"' s = some extra) (fuel : Nat) (read : List Char) :
    readLongBasicFrom (fuel + 1) read s
      = .ok (String.ofList (read.reverse ++ List.replicate extra '"'), s.drop (extra + 3)) := by
  unfold readLongBasicFrom
  rw [hclose]

/-- A character that stands for itself is read, unless the string closes before it. -/
theorem readLongBasicFrom_plain {c : Char} (hc : isControl c = false ∨ c = '\n') (hslash : c ≠ '\\')
    {t : List Char} (hopen : closingQuotes? '"' (c :: t) = none) (fuel : Nat) (read : List Char) :
    readLongBasicFrom (fuel + 1) read (c :: t) = readLongBasicFrom fuel (c :: read) t := by
  rw [readLongBasicFrom, hopen]
  · simp only [readLineChar_plain hc, ok_bind]
  · exact fun rest heq => hslash (List.cons.inj heq).1

/-- An escape is read as its character, as no break follows the backslash. -/
theorem readLongBasicFrom_escape {c d : Char} {form : List Char} (hblank : isBlank d = false)
    (hfeed : d ≠ '\n') (hreturn : d ≠ '\r') {t : List Char}
    (hread : readEscape (d :: form ++ t) = .ok (c, t)) (fuel : Nat) (read : List Char) :
    readLongBasicFrom (fuel + 1) read ('\\' :: (d :: form ++ t))
      = readLongBasicFrom fuel (c :: read) t := by
  have hopen : closingQuotes? '"' ('\\' :: (d :: form ++ t)) = none :=
    closingQuotes_within (Nat.zero_le 2) (by decide) _
  have hjoin : afterJoin? (d :: form ++ t) = none := by
    rw [afterJoin?, List.cons_append, List.dropWhile_cons, hblank]
    simp only [Bool.false_eq_true, ↓reduceIte, Option.map_eq_none_iff]
    unfold afterBreak?
    split
    · next heq => exact absurd (List.cons.inj heq).1 hfeed
    · next heq => exact absurd (List.cons.inj heq).1 hreturn
    · rfl
  rw [readLongBasicFrom, hopen]
  simp only [hjoin]
  rw [hread, ok_bind]

/-- **The body of a long basic string** is read up to the closing quotes. Before it stand `run`
    quotes, which have been read. -/
theorem readLongBasicFrom_body {t : List Char} (ht : t.head? ≠ some '"') (s : List Char)
    (run : Nat) (hrun : run ≤ 2) (fuel : Nat) (hfuel : s.length < fuel) (read : List Char) :
    readLongBasicFrom fuel read (longBasicBody run s ++ '"' :: '"' :: '"' :: t)
      = .ok (String.ofList (read.reverse ++ s), t) := by
  induction s generalizing run fuel read with
  | nil =>
    obtain ⟨fuel, rfl⟩ : ∃ n, fuel = n + 1 := ⟨fuel - 1, by omega⟩
    have hclose : closingQuotes? '"' ('"' :: '"' :: '"' :: t) = some 0 :=
      closingQuotes_end (Nat.zero_le 2) ht
    rw [longBasicBody, List.nil_append, readLongBasicFrom_close hclose]
    rfl
  | cons c s ih =>
    obtain ⟨fuel, rfl⟩ : ∃ n, fuel = n + 1 := ⟨fuel - 1, by omega⟩
    have hlater (run : Nat) (hrun : run ≤ 2) := ih run hrun fuel (by simpa using hfuel) (c :: read)
    simp only [List.reverse_cons, List.append_assoc, List.singleton_append] at hlater
    rcases longBasicBody_quotes (c :: s) run hrun with
      ⟨j, hj, hs, hbody⟩ | ⟨j, d, rest, hj, hd, hbody⟩
    · -- the string ends with these quotes
      rw [hbody, readLongBasicFrom_close (closingQuotes_end (by omega) ht), hs]
      simp [List.drop_append]
    · have hopen :
          closingQuotes? '"' (longBasicBody run (c :: s) ++ '"' :: '"' :: '"' :: t) = none := by
        rw [hbody, List.append_assoc]
        exact closingQuotes_within (by omega) hd _
      -- the cases of the writer: a quote, escaped or not, a break, and any other character
      by_cases hc : c = '"'
      · subst hc
        by_cases hfull : run = 2
        · rw [longBasicBody, if_pos rfl, if_pos hfull]
          have hquote (t : List Char) : readEscape ('"' :: [] ++ t) = .ok ('"', t) := rfl
          exact (readLongBasicFrom_escape (by decide) (by decide) (by decide) (hquote _) fuel
            read).trans (hlater 0 (by omega))
        · rw [longBasicBody, if_pos rfl, if_neg hfull] at hopen ⊢
          exact (readLongBasicFrom_plain (.inl (by decide)) (by decide) hopen fuel read).trans
            (hlater (run + 1) (by omega))
      · by_cases hbreak : c = '\n'
        · subst hbreak
          rw [longBasicBody, if_neg hc, if_pos rfl] at hopen ⊢
          exact (readLongBasicFrom_plain (.inr rfl) (by decide) hopen fuel read).trans
            (hlater 0 (by omega))
        · rw [longBasicBody, if_neg hc, if_neg hbreak] at hopen ⊢
          rcases escape_spec c with ⟨hform, hcontrol, -, hslash⟩ |
            ⟨d, form, hform, hblank, hfeed, hreturn, hread⟩
          · rw [hform] at hopen ⊢
            exact (readLongBasicFrom_plain (.inl hcontrol) hslash hopen fuel read).trans
              (hlater 0 (by omega))
          · rw [hform, List.cons_append, List.cons_append, List.append_assoc]
            exact (readLongBasicFrom_escape hblank hfeed hreturn (hread _) fuel read).trans
              (hlater 0 (by omega))

/-- The break that is put after opening quotes is dropped, and no break of the string is: where
    the string has one, the writer puts another before it. -/
theorem dropFirstBreak_opening (s : List Char) {t : List Char}
    (ht : '\n' ∉ s → ∀ c ∈ t.head?, isControl c = false) :
    dropFirstBreak ((if s.contains '\n' then ['\n'] else []) ++ t) = t := by
  split
  · rfl
  · next h =>
    have hhead := ht (by simpa using h)
    have hnone : afterBreak? t = none := by
      unfold afterBreak?
      split
      · exact absurd (hhead '\n' rfl) (by decide)
      · exact absurd (hhead '\r' rfl) (by decide)
      · rfl
    rw [List.nil_append, dropFirstBreak, hnone]
    rfl

/-- **A string between three double quotes** is read after the opening ones. -/
theorem readLongBasic_body (s : List Char) {t : List Char} (ht : t.head? ≠ some '"') :
    readLongBasic ((if s.contains '\n' then ['\n'] else [])
        ++ (longBasicBody 0 s ++ '"' :: '"' :: '"' :: t)) = .ok (String.ofList s, t) := by
  have hhead : '\n' ∉ s → ∀ c ∈ (longBasicBody 0 s ++ '"' :: '"' :: '"' :: t).head?,
      isControl c = false := by
    intro hfeed c hc
    cases s with
    | nil =>
      cases hc
      rfl
    | cons a s =>
      rw [longBasicBody, if_neg (by decide : ¬ 0 = 2),
        if_neg (fun h : a = '\n' => hfeed (h ▸ List.mem_cons_self))] at hc
      split at hc
      · cases hc
        rfl
      · rcases escape_spec a with ⟨hform, hcontrol, -⟩ | ⟨d, form, hform, -⟩ <;>
          rw [hform] at hc <;> cases hc
        · exact hcontrol
        · rfl
  have hlength := length_longBasicBody s 0
  rw [readLongBasic, dropFirstBreak_opening s hhead]
  apply readLongBasicFrom_body ht s 0 (Nat.zero_le 2)
  simp only [List.length_append, List.length_cons]
  omega

/-- A run of a character is no longer than the longest one. -/
theorem le_longestRun (q : Char) (s : List Char) (run : Nat) : run ≤ longestRun q run s := by
  induction s generalizing run with
  | nil => exact Nat.le_refl run
  | cons c s ih =>
    rw [longestRun]
    split
    · exact Nat.le_of_succ_le (ih (run + 1))
    · exact Nat.le_max_left _ _

/-- If the longest run of a character is empty, it does not occur. -/
theorem not_mem_of_longestRun {s : List Char} (h : longestRun q 0 s = 0) : q ∉ s := by
  induction s with
  | nil => exact List.not_mem_nil
  | cons c s ih =>
    rw [longestRun] at h
    split at h
    · have hle := le_longestRun q s (0 + 1)
      omega
    · next hc =>
      rw [Nat.max_eq_zero_iff] at h
      exact List.not_mem_cons_of_ne_of_not_mem (Ne.symm hc) (ih h.2)

/-- The quotes at the head of a text in which no three stand together, after `run` others: they
    make up the text, or something else stands after them. Here the writer escapes nothing, so
    this is a condition on the text. -/
theorem longestRun_quotes {s : List Char} {run : Nat} (h : longestRun q run s ≤ 2) :
    (∃ j, j + run ≤ 2 ∧ s = List.replicate j q)
      ∨ ∃ j c rest, j + run ≤ 2 ∧ c ≠ q ∧ s = List.replicate j q ++ c :: rest := by
  induction s generalizing run with
  | nil => exact .inl ⟨0, by rw [longestRun] at h; omega, rfl⟩
  | cons c s ih =>
    rw [longestRun] at h
    split at h
    · next hc =>
      subst hc
      rcases ih h with ⟨j, hj, hs⟩ | ⟨j, d, rest, hj, hd, hs⟩
      · exact .inl ⟨j + 1, by omega, by rw [hs, List.replicate_succ]⟩
      · exact .inr ⟨j + 1, d, rest, by omega, hd, by rw [hs, List.replicate_succ, List.cons_append]⟩
    · next hc => exact .inr ⟨0, c, s, by omega, hc, rfl⟩

/-- **The body of a long literal string** is read up to the closing quotes. Before it stand `run`
    quotes, which have been read. -/
theorem readLongLiteralFrom_body {t : List Char} (ht : t.head? ≠ some '\'') {s : List Char}
    (hplain : ∀ c ∈ s, isControl c = false ∨ c = '\n') {run : Nat}
    (hrun : longestRun '\'' run s ≤ 2) {fuel : Nat} (hfuel : s.length < fuel) (read : List Char) :
    readLongLiteralFrom fuel read (s ++ '\'' :: '\'' :: '\'' :: t)
      = .ok (String.ofList (read.reverse ++ s), t) := by
  induction s generalizing run fuel read with
  | nil =>
    obtain ⟨fuel, rfl⟩ : ∃ n, fuel = n + 1 := ⟨fuel - 1, by omega⟩
    have hclose : closingQuotes? '\'' ('\'' :: '\'' :: '\'' :: t) = some 0 :=
      closingQuotes_end (Nat.zero_le 2) ht
    rw [List.nil_append, readLongLiteralFrom, hclose]
    rfl
  | cons c s ih =>
    obtain ⟨fuel, rfl⟩ : ∃ n, fuel = n + 1 := ⟨fuel - 1, by omega⟩
    obtain ⟨hc, hplain⟩ := List.forall_mem_cons.mp hplain
    rcases longestRun_quotes hrun with ⟨j, hj, hs⟩ | ⟨j, d, rest, hj, hd, hs⟩
    · -- the string ends with these quotes
      rw [hs, readLongLiteralFrom, closingQuotes_end (by omega) ht]
      simp [List.drop_append]
    · have hopen : closingQuotes? '\'' (c :: s ++ '\'' :: '\'' :: '\'' :: t) = none := by
        rw [hs, List.append_assoc]
        exact closingQuotes_within (by omega) hd _
      -- whether the character is a quote or not, the runs behind it are as short
      obtain ⟨run', hrun'⟩ : ∃ run', longestRun '\'' run' s ≤ 2 := by
        rw [longestRun] at hrun
        split at hrun
        · exact ⟨_, hrun⟩
        · exact ⟨0, (Nat.max_le.mp hrun).2⟩
      rw [readLongLiteralFrom, hopen, List.cons_append]
      simp only [readLineChar_plain hc, ok_bind]
      rw [ih hplain hrun' (by simpa using hfuel), List.reverse_cons, List.append_assoc]
      rfl

/-- **A string between three single quotes** is read after the opening ones. -/
theorem readLongLiteral_plain {s : List Char} (hplain : ∀ c ∈ s, isControl c = false ∨ c = '\n')
    (hrun : longestRun '\'' 0 s ≤ 2) {t : List Char} (ht : t.head? ≠ some '\'') :
    readLongLiteral ((if s.contains '\n' then ['\n'] else [])
        ++ (s ++ '\'' :: '\'' :: '\'' :: t)) = .ok (String.ofList s, t) := by
  have hhead : '\n' ∉ s → ∀ c ∈ (s ++ '\'' :: '\'' :: '\'' :: t).head?, isControl c = false := by
    intro hfeed c hc
    cases s with
    | nil =>
      cases hc
      rfl
    | cons a s =>
      obtain rfl : a = c := by simpa using hc
      refine (hplain a List.mem_cons_self).resolve_right ?_
      rintro rfl
      exact hfeed List.mem_cons_self
  rw [readLongLiteral, dropFirstBreak_opening s hhead]
  apply readLongLiteralFrom_body ht hplain hrun
  simp only [List.length_append, List.length_cons]
  omega

end Long

/-! ### The styles

Which style a string has is read off its quotes: three of a kind, or one. As a key only one will
do. Two quotes at the head that are not three are an empty string, so what follows it must not
begin with another one.
-/

/-- Whether what stands after a string cannot be taken for one of its quotes. -/
def EndsString (t : List Char) : Prop := t.head? ≠ some '"' ∧ t.head? ≠ some '\''

section Styles

variable {s t : List Char}

/-- A string on one line in double quotes is read, as a key and as a value. -/
theorem readString_basic (key : Bool) (s : List Char) (ht : EndsString t) :
    readString? key (writtenIn .basic s ++ t) = some (.ok (String.ofList s, t)) := by
  have hform : writtenIn .basic s ++ t = '"' :: (s.flatMap escape ++ '"' :: t) := by
    simp [writtenIn]
  rw [hform, ← readBasic_escaped]
  -- the second of three quotes would be a form, or the third what follows
  have hopen : ∀ rest, s.flatMap escape ++ '"' :: t ≠ '"' :: '"' :: rest := by
    intro rest heq
    cases s with
    | nil =>
      rw [List.flatMap_nil, List.nil_append] at heq
      exact ht.1 (by rw [(List.cons.inj heq).2]; rfl)
    | cons c s =>
      rw [List.flatMap_cons, List.append_assoc] at heq
      rcases escape_spec c with ⟨hform, -, hquote, -⟩ | ⟨d, form, hform, -⟩ <;> rw [hform] at heq
      · exact hquote (List.cons.inj heq).1
      · exact absurd (List.cons.inj heq).1 (by decide)
  unfold readString?
  split
  · next heq => exact absurd (List.cons.inj heq).2 (hopen _)
  · next heq => exact absurd (List.cons.inj heq).1 (by decide)
  · next heq => rw [(List.cons.inj heq).2]
  · next heq => exact absurd (List.cons.inj heq).1 (by decide)
  · next h _ => exact absurd rfl (h _)

/-- A string on one line in single quotes is read, as a key and as a value. -/
theorem readString_literal (key : Bool) (hne : s ≠ []) (hcontrol : ∀ c ∈ s, isControl c = false)
    (hquote : '\'' ∉ s) (t : List Char) :
    readString? key (writtenIn .literal s ++ t) = some (.ok (String.ofList s, t)) := by
  have hform : writtenIn .literal s ++ t = '\'' :: (s ++ '\'' :: t) := by
    simp [writtenIn]
  rw [hform, ← readLiteral_plain hcontrol hquote]
  -- a second quote would belong to the string
  have hopen : ∀ rest, s ++ '\'' :: t ≠ '\'' :: '\'' :: rest := by
    intro rest heq
    obtain ⟨c, s, rfl⟩ := List.exists_cons_of_ne_nil hne
    rw [List.cons_append] at heq
    exact hquote ((List.cons.inj heq).1 ▸ List.mem_cons_self)
  unfold readString?
  split
  · next heq => exact absurd (List.cons.inj heq).1 (by decide)
  · next heq => exact absurd (List.cons.inj heq).2 (hopen _)
  · next heq => exact absurd (List.cons.inj heq).1 (by decide)
  · next heq => rw [(List.cons.inj heq).2]
  · next h => exact absurd rfl (h _)

/-- A string between three double quotes is read as a value. -/
theorem readString_longBasic (s : List Char) (ht : EndsString t) :
    readString? false (writtenIn .longBasic s ++ t) = some (.ok (String.ofList s, t)) := by
  have hform : writtenIn .longBasic s ++ t = '"' :: '"' :: '"' ::
      ((if s.contains '\n' then ['\n'] else [])
        ++ (longBasicBody 0 s ++ '"' :: '"' :: '"' :: t)) := by
    simp [writtenIn]
  rw [hform, ← readLongBasic_body s ht.1]
  rfl

/-- A string between three single quotes is read as a value. -/
theorem readString_longLiteral (hplain : ∀ c ∈ s, isControl c = false ∨ c = '\n')
    (hrun : longestRun '\'' 0 s ≤ 2) (ht : EndsString t) :
    readString? false (writtenIn .longLiteral s ++ t) = some (.ok (String.ofList s, t)) := by
  have hform : writtenIn .longLiteral s ++ t = '\'' :: '\'' :: '\'' ::
      ((if s.contains '\n' then ['\n'] else []) ++ (s ++ '\'' :: '\'' :: '\'' :: t)) := by
    simp [writtenIn]
  rw [hform, ← readLongLiteral_plain hplain hrun ht.2]
  rfl

/-- A text without control characters has no such character but its breaks, which are counted
    apart. -/
theorem plain_of_traits (hcontrol : (TextTraits.of s).hasControl = false) :
    ∀ c ∈ s, isControl c = false ∨ c = '\n' := by
  intro c hc
  have h := List.any_eq_false.mp hcontrol c hc
  by_cases hfeed : c = '\n'
  · exact .inr hfeed
  · left
    simpa [hfeed] using h

/-- A line without control characters has no such character. -/
theorem plain_of_line (hcontrol : (TextTraits.of s).hasControl = false)
    (hbreak : (TextTraits.of s).hasBreak = false) : ∀ c ∈ s, isControl c = false := by
  intro c hc
  refine (plain_of_traits hcontrol c hc).resolve_right ?_
  rintro rfl
  have hnot : '\n' ∉ s := by simpa [TextTraits.of] using hbreak
  exact hnot hc

/-- **A string is read back** as a value, in whatever style it is written. -/
theorem readString_stringChars (s : List Char) (ht : EndsString t) :
    readString? false (stringChars s ++ t) = some (.ok (String.ofList s, t)) := by
  unfold stringChars valueStyle
  dsimp only
  split
  · exact readString_basic false s ht
  split
  · next hplain h =>
    simp only [Bool.and_eq_true, Bool.not_eq_true', beq_iff_eq] at h
    have hne : s ≠ [] := by
      rintro rfl
      exact hplain rfl
    exact readString_literal false hne (plain_of_line h.1.1 h.1.2) (not_mem_of_longestRun h.2) t
  split
  · exact readString_longBasic s ht
  split
  · next h =>
    simp only [Bool.and_eq_true, Bool.not_eq_true', decide_eq_true_eq] at h
    exact readString_longLiteral (plain_of_traits h.1) h.2 ht
  split
  · exact readString_longBasic s ht
  · exact readString_basic false s ht

end Styles

end SchemaEmbed.Toml
