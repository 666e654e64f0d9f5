import SchemaEmbed.Proofs.Yaml.Indicator
import SchemaEmbed.Proofs.Yaml.Number

namespace SchemaEmbed.Yaml

/-!
# Scalars in the token stream

A scalar that the printer writes is read as one token with its text and its style. As a value or an
item it is read up to the next line, and the scanner comes to rest there. As a key on one line it
is read up to its colon; only then does the scanner know that it was a key, and puts the tokens of
the key, and of a mapping that begins there, before the scalar.

* `WrittenAs` — the form in which a scalar of some style stands in a text;
* `writtenAs_string`, `writtenAs_number`, `writtenAs_word` — the printer chooses such a form;
* `Scanner.leads_scalar` — a scalar that is a value or an item is read up to the next line;
* `Scanner.leads_key` — a scalar on one line with a colon after it is read as a key.

The two main results have the same four cases, one for each style. What the reader of a style does
is shown in its own module; here it is put into the state of the scanner.
-/

/-! ### Written forms

A form is a relation between a text and what is written for it, which holds for each style on a
condition of its own: a text may not be written plain if it would be read as something else. That
the style which the printer chooses meets its condition is `writtenAs_string`.
-/

/-- The written form of a scalar in a style, in lines at `column`. A text in double quotes may be
    any text. -/
inductive WrittenAs (column : Nat) : (s : List Char) → Style → (written : List Char) → Prop where
  | plain {s : List Char} (h : PlainText s) : WrittenAs column s .plain s
  | singleQuoted {s : List Char} (h : SingleText s) :
    WrittenAs column s .singleQuoted (singleQuoted column s)
  | doubleQuoted (s : List Char) : WrittenAs column s .doubleQuoted (doubleQuoted s)
  | literal {s : List Char} (hne : s ≠ []) (h : ∀ a ∈ s, isPrintable a = true) :
    WrittenAs column s .literal (literal column s)

/-- A scalar has a written form of at least one character, even if the text is empty. -/
theorem WrittenAs.ne_nil {column : Nat} {s written : List Char} {style : Style}
    (h : WrittenAs column s style written) : written ≠ [] := by
  cases h with
  | plain h => exact h.ne_nil
  | singleQuoted => exact List.cons_ne_nil _ _
  | doubleQuoted => exact List.cons_ne_nil _ _
  | literal => exact List.cons_ne_nil _ _

/-- A text whose last character is no break has its line ended by one. -/
theorem endLine_of_last {s : List Char} (h : ∀ c ∈ s.getLast?, isBreak c = false) :
    endLine s = s ++ ['\n'] := by
  have hnot : (s.getLast?.any isBreak) = false := by
    cases hlast : s.getLast? with
    | none => rfl
    | some c => exact h c hlast
  rw [endLine, hnot]
  rfl

/-- A scalar that is not literal does not end with a break, so its line is ended by adding one. -/
theorem WrittenAs.endLine_eq {column : Nat} {s written : List Char} {style : Style}
    (h : WrittenAs column s style written) (hstyle : style ≠ .literal) :
    endLine written = written ++ ['\n'] := by
  refine endLine_of_last fun c hc => ?_
  cases h with
  | plain h => exact h.oneLine c (List.mem_of_getLast? hc)
  | singleQuoted =>
    rw [Yaml.singleQuoted, List.getLast?_concat] at hc
    cases hc
    rfl
  | doubleQuoted =>
    rw [Yaml.doubleQuoted, List.getLast?_concat] at hc
    cases hc
    rfl
  | literal => exact absurd rfl hstyle

/-- **A string** is written in the style that is chosen for it, and meets the condition of that
    style. -/
theorem writtenAs_string (key : Bool) (column : Nat) (s : List Char) :
    WrittenAs column s (styleOf key s) (stringChars key column s) := by
  unfold stringChars
  generalize hstyle : styleOf key s = style
  -- the cases are those of `styleOf`; each one that is not in double quotes gives its condition
  simp only [styleOf] at hstyle
  split at hstyle
  · subst hstyle
    exact .doubleQuoted s
  · split at hstyle
    · split at hstyle
      · next hliteral =>
        subst hstyle
        simp only [ScalarTraits.of, Bool.and_eq_true, Bool.not_eq_true', Bool.or_eq_false_iff,
          List.any_eq_false] at hliteral
        exact .literal (by simpa using hliteral.1.1.2) fun a ha => by
          simpa using hliteral.1.1.1.1 a ha
      · subst hstyle
        exact .doubleQuoted s
    · next hnewline =>
      have hnewline : '\n' ∉ s := by simpa using hnewline
      split at hstyle
      · next hplain =>
        subst hstyle
        obtain ⟨hreads, hallowed⟩ := Bool.and_eq_true_iff.mp hplain
        have hne : s ≠ [] := by
          rintro rfl
          cases hreads
        exact .plain (plainText_of_traits hne hallowed)
      · split at hstyle
        · next hsingle =>
          subst hstyle
          exact .singleQuoted (singleText_of_traits hsingle hnewline)
        · subst hstyle
          exact .doubleQuoted s

/-- A text without colons and number signs has no indicator after its first character. -/
theorem hasInnerIndicator_of_forall {s : List Char} (hs : ∀ c ∈ s, c ≠ ':' ∧ c ≠ '#') :
    hasInnerIndicator s = false := by
  induction s with
  | nil => rfl
  | cons p s ih =>
    cases s with
    | nil => rfl
    | cons c s =>
      obtain ⟨hcolon, hsign⟩ := hs c (by simp)
      rw [hasInnerIndicator, ih fun a ha => hs a (List.mem_cons_of_mem _ ha)]
      simp [hcolon, hsign]

/-- A character of a number can be written, and is neither a blank nor a break nor an indicator
    within a word. -/
theorem numberChar {c : Char} (h : c.isDigit = true ∨ c ∈ ['.', 'e', '-', '+']) :
    isPrintable c = true ∧ isSpaceOrBreak c = false ∧ c ≠ ':' ∧ c ≠ '#' := by
  rcases h with h | h
  · have hrange : 48 ≤ c.toNat ∧ c.toNat ≤ 57 := by
      simp only [Char.isDigit, Bool.and_eq_true, decide_eq_true_eq] at h
      exact h
    have hne (d : Char) (hd : d.isDigit = false) : c ≠ d := by
      rintro rfl
      rw [h] at hd
      cases hd
    refine ⟨?_, ?_, hne _ rfl, hne _ rfl⟩
    · unfold isPrintable
      simp only [Bool.or_eq_true, Bool.and_eq_true, decide_eq_true_eq]
      omega
    · simp [isSpaceOrBreak, isBlank, isBreak, hne]
  · have hall : ['.', 'e', '-', '+'].all (fun c =>
        isPrintable c && ! isSpaceOrBreak c && c != ':' && c != '#') = true := rfl
    simpa [and_assoc] using List.all_eq_true.mp hall c h

/-- A text of digits and the marks of a number, that begins like a number, can be written plain.
    A minus at its head is no dash, since a digit comes after it. -/
theorem BeginsNumber.plainText {s : List Char} (hbegins : BeginsNumber s)
    (hs : ∀ c ∈ s, c.isDigit = true ∨ c ∈ ['.', 'e', '-', '+']) : PlainText s := by
  have hspace : ' ' ∉ s := fun h => by
    have := (numberChar (hs _ h)).2.1
    cases this
  have hinner := hasInnerIndicator_of_forall fun c hc => (numberChar (hs c hc)).2.2
  obtain ⟨d, rest, hd, hhead⟩ := hbegins
  have hne (c : Char) (hc : c.isDigit = false) : d ≠ c := by
    rintro rfl
    rw [hd] at hc
    cases hc
  refine ⟨?_, fun c hc => (numberChar (hs c hc)).1, fun c hc => ?_, fun h => hspace ?_,
    fun h => hspace (List.mem_of_getLast? h), ?_, ?_, hinner⟩
  · rcases hhead with rfl | rfl <;> simp
  · exact (Bool.or_eq_false_iff.mp (numberChar (hs c hc)).2.1).2
  · exact List.mem_of_mem_head? h
  · rcases hhead with rfl | rfl
    · simp [startsWithDocumentMark, hne]
    · cases rest <;> simp [startsWithDocumentMark, hne]
  · rcases hhead with rfl | rfl
    · simp [startsWithIndicator, hne]
    · have hboundary : isBoundary d = false := by
        have := (numberChar (.inl hd)).2.1
        simp [isBoundary, this, hne]
      simp [startsWithIndicator, atBoundary, hboundary]

/-- The characters of a written number are digits, a point, an exponent mark and signs. -/
theorem mem_numberChars {n : Number} (hn : ∀ x, n = .float x → x.isFinite = true) {c : Char}
    (hc : c ∈ numberChars n) : c.isDigit = true ∨ c ∈ ['.', 'e', '-', '+'] := by
  cases n with
  | int i =>
    rw [numberChars, Json.toList_toString_int] at hc
    have hdigits {c : Char} (hc : c ∈ Nat.toDigits 10 i.natAbs) : c.isDigit = true :=
      Nat.isDigit_of_mem_toDigits (by decide) (by decide) hc
    split at hc
    · rcases List.mem_cons.mp hc with rfl | hc
      · exact .inr (by decide)
      · exact .inl (hdigits hc)
    · exact .inl (hdigits hc)
  | float x =>
    obtain ⟨n, hvalid, hchars, -⟩ := FloatLayout.yaml.renderChars_spec (hn x rfl)
    rw [numberChars, if_pos (hn x rfl), hchars] at hc
    rcases List.mem_append.mp hc with hc | hc
    · split at hc
      · exact .inr (by rw [List.mem_singleton.mp hc]; decide)
      · cases hc
    · exact hvalid.of_mem_chars hc

/-- The text of a finite number is a plain scalar, so it is written as it is. -/
theorem writtenAs_number (column : Nat) {n : Number} (hn : ∀ x, n = .float x → x.isFinite = true) :
    WrittenAs column (numberChars n) .plain (numberChars n) := by
  refine .plain (BeginsNumber.plainText ?_ fun c => mem_numberChars hn)
  cases n with
  | int i => exact beginsNumber_toString i
  | float x =>
    rw [numberChars, if_pos (hn x rfl)]
    exact beginsNumber_renderChars _ (hn x rfl)

/-- The words for null and the truth values are plain scalars too. -/
theorem writtenAs_word (column : Nat) {s : List Char}
    (hs : s ∈ ["null".toList, "true".toList, "false".toList]) : WrittenAs column s .plain s := by
  refine .plain ?_
  have hword : ∀ s ∈ ["null".toList, "true".toList, "false".toList],
      s ≠ [] ∧ (s.all fun c => isPrintable c && ! isBreak c) = true ∧ s.head? ≠ some ' '
        ∧ s.getLast? ≠ some ' ' ∧ startsWithDocumentMark s = false ∧ startsWithIndicator s = false
        ∧ hasInnerIndicator s = false := by
    decide
  obtain ⟨hne, hchars, hhead, hlast, hmark, hstart, hinner⟩ := hword s hs
  have hchar (c : Char) (hc : c ∈ s) : isPrintable c = true ∧ isBreak c = false := by
    simpa using List.all_eq_true.mp hchars c hc
  exact ⟨hne, fun c hc => (hchar c hc).1, fun c hc => (hchar c hc).2, hhead, hlast, hmark, hstart,
    hinner⟩

/-! ### The token that begins here

The first characters decide which kind of token begins. A quote or a bar is enough; for a plain
scalar it has to be excluded that there is an indicator.
-/

namespace Scanner

section

variable {s : Scanner} {tokens : Array Token} {indent : Int} {outer : List Int} {column : Nat}
  {keyAllowed : Bool} {text rest written : List Char}

/-- A plain text begins a plain scalar: there is no other token that begins like it, and no line
    between documents. -/
theorem At.token_plain (h : At s tokens indent outer column keyAllowed (text ++ rest))
    (htext : PlainText text) (hrest : StopsPlain rest) : s.token = s.plainScalar := by
  have hmark : s.cursor.atDocumentIndicator = false := by
    rw [Cursor.atDocumentIndicator, h.rest, htext.not_documentIndicator hrest, Bool.and_false]
  obtain ⟨c, text, rfl⟩ := List.exists_cons_of_ne_nil htext.ne_nil
  have hspace : isSpaceOrBreak c = false :=
    htext.isSpaceOrBreak List.mem_cons_self fun hc => htext.head (by rw [hc]; rfl)
  have hstart := htext.start
  simp only [startsWithIndicator, Bool.or_eq_false_iff, Bool.and_eq_false_iff] at hstart
  obtain ⟨hindicator, hword⟩ := hstart
  simp only [List.contains_eq_mem, decide_eq_false_iff_not, String.reduceToList, List.mem_cons,
    List.not_mem_nil, or_false, not_or] at hindicator
  -- a question mark, colon or dash at the head begins a word here, so it is no indicator
  have hends (hc : c = '?' ∨ c = ':' ∨ c = '-') : endsWord (text ++ rest) = false := by
    refine endsWord_append (hword.resolve_left fun h => ?_) rest
    rcases hc with rfl | rfl | rfl <;> simp at h
  have hrest' : s.cursor.rest = c :: (text ++ rest) := h.rest
  generalize text ++ rest = r at hends hrest'
  have hstarts : startsPlain false (c :: r) = true := by
    unfold startsPlain
    by_cases hword : c = '?' ∨ c = ':' ∨ c = '-'
    · have hends := hends hword
      have hblank : (r.head?.any isBlank) = false := by
        cases r with
        | nil => rfl
        | cons d r => exact (Bool.or_eq_false_iff.mp hends).1
      rcases hword with rfl | rfl | rfl <;> simp [hends, hblank]
    · simp only [not_or] at hword
      simp [hspace, hword, hindicator]
  have hnot (d : Char) (hd : d = '?' ∨ d = ':' ∨ d = '-') : (c == d && endsWord r) = false := by
    rw [Bool.and_eq_false_iff, beq_eq_false_iff_ne]
    rcases Decidable.em (c = d) with rfl | hne
    · exact .inr (hends hd)
    · exact .inl hne
  unfold token
  rw [hrest']
  simp [hmark, h.inFlow, hnot, hstarts, hindicator]

/-- A quote begins a quoted scalar. -/
theorem At.token_quoted (single : Bool)
    (h : At s tokens indent outer column keyAllowed (quote single :: rest)) :
    s.token = s.quotedScalar single := by
  have hmark := h.not_documentIndicator (by cases single <;> decide)
  unfold token
  rw [h.rest]
  cases single <;> simp [hmark, quote]

/-- A bar begins a literal scalar, in block context. -/
theorem At.token_literal (h : At s tokens indent outer column keyAllowed ('|' :: rest)) :
    s.token = s.blockScalar true := by
  have hmark := h.not_documentIndicator (by decide)
  unfold token
  rw [h.rest]
  simp [hmark, h.inFlow]

/-! ### Values and items

The scanner has passed the scalar and the break after it, and in most styles the indentation of the
next line too. For every style it comes to rest in the same place, before the next token.
-/

/-- After a token that begins right of the open block, the place where it began is one for a key,
    but not one where a key must be. -/
theorem At.ended (h : At s tokens indent outer column keyAllowed rest) (hlt : indent < column)
    {c : Cursor} (hc : s.cursor.line ≤ c.line) (allowed : Bool) (t : Token) :
    Ended ({ s with
        place := if keyAllowed then s.keyPlace else s.place
        cursor := c
        keyAllowed := allowed }.push t)
      (tokens.push t) indent outer := by
  refine ⟨by rw [← h.tokens]; rfl, h.indent, h.outer, h.places, fun hpossible => ?_⟩
  show (if keyAllowed then s.keyPlace else s.place).required = false
    ∧ (if keyAllowed then s.keyPlace else s.place).line ≤ c.line
  rw [h.of_savedPlace rfl hpossible]
  refine ⟨?_, hc⟩
  show (s.indent == (s.cursor.column : Int)) = false
  rw [h.indent, h.column, beq_eq_false_iff_ne]
  omega

/-- A plain text at the end of a line is read, and the scanner rests before the next token. The
    reader of plain scalars has passed the break already, to see whether the scalar goes on. -/
theorem leads_plain (htext : PlainText text) {n : Nat} {next : List Char}
    (h : Ready s tokens indent outer column keyAllowed (text ++ '\n' :: (spaces n ++ next)))
    (hnext : StartsToken next) (hlt : indent < column) (hout : next = [] ∨ (n : Int) ≤ indent) :
    ∃ s', Leads s s'
      ∧ Rests s' (tokens.push (.scalar (String.ofList text) .plain)) indent outer n next := by
  obtain ⟨s₁, hstep, hat, hlength⟩ := h.next
  have hscan : scanPlain false (s₁.indent + 1).toNat s₁.cursor
      = .ok (text, true, ⟨next, s₁.cursor.index + text.length + 1 + n, s₁.cursor.line + 1, n⟩) :=
    scanPlain_line htext hat.rest hnext (hout.imp id fun hn => by rw [hat.indent]; omega)
      (by rw [hat.indent, hat.column]; omega)
  have hended := hat.ended hlt
    (c := ⟨next, s₁.cursor.index + text.length + 1 + n, s₁.cursor.line + 1, n⟩) (Nat.le_succ _) true
    (.scalar (String.ofList text) .plain)
  refine ⟨_, Leads.of_next (hstep.trans ?_) ?_ ?_, hended.rests_here hnext rfl fun hpossible => ?_⟩
  · rw [hat.token_plain htext (.inl rfl), plainScalar, hat.savePlace, ok_bind]
    show (scanPlain s₁.inFlow (s₁.indent + 1).toNat s₁.cursor >>= _) = _
    rw [hat.inFlow, hscan]
    rfl
  · refine Nat.lt_of_lt_of_le ?_ hlength
    show next.length < _
    simp only [List.length_append, List.length_cons]
    omega
  · show (s₁.tokens.push _).back? ≠ _
    simp
  · rw [hat.of_savedPlace rfl hpossible]
    exact Nat.lt_succ_self _

/-- A quoted text at the end of a line is read, and the scanner rests in the next line. -/
theorem leads_quoted {single : Bool} (htext : Chunks single text written) {n : Nat}
    {next : List Char}
    (h : Ready s tokens indent outer column keyAllowed
      (quote single :: (written ++ quote single :: '\n' :: (spaces n ++ next))))
    (hnext : StartsToken next) (hlt : indent < column) :
    ∃ s', Leads s s' ∧ Rests s' (tokens.push (.scalar (String.ofList text)
      (if single then .singleQuoted else .doubleQuoted))) indent outer n next := by
  obtain ⟨s₁, hstep, hat, hlength⟩ := h.next
  obtain ⟨c, hscan, hrest, hline, -⟩ := scanQuoted_chunks htext (by simp) hat.rest
  have hended := hat.ended hlt hline false
    (.scalar (String.ofList text) (if single then .singleQuoted else .doubleQuoted))
  refine ⟨_, Leads.of_next (hstep.trans ?_) ?_ ?_, hended.rests_line hrest hnext⟩
  · rw [hat.token_quoted single, quotedScalar, hat.savePlace, ok_bind]
    show (scanQuoted single s₁.cursor >>= _) = _
    rw [hscan]
    rfl
  · refine Nat.lt_of_lt_of_le ?_ hlength
    show c.rest.length < _
    rw [hrest]
    simp only [List.length_append, List.length_cons]
    omega
  · show (s₁.tokens.push _).back? ≠ _
    simp

/-- A literal text is read up to the next token, with all of its lines. -/
theorem leads_literal {lines : Nat} (hne : text ≠ []) (hprint : ∀ a ∈ text, isPrintable a = true)
    {n : Nat} {next : List Char}
    (h : Ready s tokens indent outer column keyAllowed
      (endLine (literal lines text) ++ (spaces n ++ next)))
    (hnext : StartsToken next) (hlines : (lines : Int) = max indent 0 + 2)
    (hn : (n : Int) ≤ max indent 0) :
    ∃ s', Leads s s'
      ∧ Rests s' (tokens.push (.scalar (String.ofList text) .literal)) indent outer n next := by
  obtain ⟨s₁, hstep, hat, hlength⟩ := h.next
  obtain ⟨c, hscan, hrest, hcolumn⟩ : ∃ c, scanBlock true s₁.indent s₁.cursor = .ok (text, c)
      ∧ c.rest = next ∧ c.column = n :=
    scanBlock_literal (by rw [hat.indent]; exact hlines) (by omega) hnext hne hprint hat.rest
  -- a literal scalar cannot be a key, so the place is forgotten
  obtain ⟨place, hdrop, hplace⟩ := hat.dropPlace
  obtain ⟨s₂, hs₂⟩ : ∃ s₂ : Scanner, s₂ = { s₁ with place, cursor := c, keyAllowed := true }.push
      (.scalar (String.ofList text) .literal) := ⟨_, rfl⟩
  have hcursor : s₂.cursor = c := by rw [hs₂]; rfl
  have htokens : s₂.tokens = tokens.push (.scalar (String.ofList text) .literal) := by
    rw [hs₂, ← hat.tokens]
    rfl
  have hpossible : s₂.place.possible ≠ true := by
    rw [hs₂]
    exact ne_true_of_eq_false hplace
  have hended : Ended s₂ (tokens.push (.scalar (String.ofList text) .literal)) indent outer :=
    ⟨htokens, by rw [hs₂]; exact hat.indent, by rw [hs₂]; exact hat.outer,
      by rw [hs₂]; exact hat.places, fun h => absurd h hpossible⟩
  have hrests := hended.rests_here (by rw [hcursor, hrest]; exact hnext) (by rw [hs₂]; rfl)
    fun h => absurd h hpossible
  rw [hcursor, hrest, hcolumn] at hrests
  obtain ⟨t, ht, hshort⟩ : ∃ t, endLine (literal lines text) ++ (spaces n ++ next) = '|' :: t
      ∧ next.length ≤ t.length := by
    obtain ⟨r, hr⟩ : ∃ r, literal lines text = '|' :: r := ⟨_, rfl⟩
    rw [hr]
    unfold endLine
    split <;> exact ⟨_, rfl, by simp; omega⟩
  rw [ht] at hat hlength
  refine ⟨s₂, Leads.of_next (hstep.trans ?_) ?_ ?_, hrests⟩
  · rw [hat.token_literal, blockScalar, hdrop, ok_bind, hs₂]
    show (scanBlock true s₁.indent s₁.cursor >>= _) = _
    rw [hscan]
    rfl
  · rw [hcursor, hrest]
    exact Nat.lt_of_le_of_lt hshort hlength
  · rw [htokens]
    simp

/-- **A scalar** that is a value or an item is read up to the next line. -/
theorem leads_scalar {lines : Nat} {style : Style} (hwritten : WrittenAs lines text style written)
    {n : Nat} {next : List Char}
    (h : Ready s tokens indent outer column keyAllowed (endLine written ++ (spaces n ++ next)))
    (hnext : StartsToken next) (hlt : indent < column) (hlines : (lines : Int) = max indent 0 + 2)
    (hn : (n : Int) ≤ max indent 0) (hout : next = [] ∨ (n : Int) ≤ indent) :
    ∃ s', Leads s s'
      ∧ Rests s' (tokens.push (.scalar (String.ofList text) style)) indent outer n next := by
  by_cases hstyle : style = .literal
  · subst hstyle
    cases hwritten with
    | literal hne hprint => exact leads_literal hne hprint h hnext hlines hn
  · -- the line of any other scalar is ended by a break that is not its own
    rw [hwritten.endLine_eq hstyle, List.append_assoc] at h
    cases hwritten with
    | plain htext => exact leads_plain htext h hnext hlt hout
    | singleQuoted htext =>
      have hpos : 0 < lines := by omega
      exact leads_quoted (chunks_singleQuoted htext hpos)
        (by simpa [singleQuoted, quote] using h) hnext hlt
    | doubleQuoted =>
      exact leads_quoted (chunks_doubleQuoted text)
        (by simpa [doubleQuoted, quote] using h) hnext hlt
    | literal => exact absurd rfl hstyle

end

end Scanner

/-! ### Keys

A key has to end within 1024 characters of where it began. The printer asks for at most 128 octets
of the text instead, which is enough: an octet is written with four characters at most.
-/

/-- The octets of a text are those of its first character and those of the others. -/
theorem utf8ByteSize_ofList_cons (c : Char) (s : List Char) :
    (String.ofList (c :: s)).utf8ByteSize = c.utf8Size + (String.ofList s).utf8ByteSize := by
  rw [String.ofList_cons, String.utf8ByteSize_append, String.utf8ByteSize_singleton]
/-- A character takes at most four characters in double quotes for each of its octets, escaped or
    not. -/
theorem length_escape_le (c : Char) : (escape c).length ≤ 4 * c.utf8Size := by
  have hpos := c.utf8Size_pos
  have hsize : (0xFF < c.toNat → 2 ≤ c.utf8Size) ∧ (0xFFFF < c.toNat → 3 ≤ c.utf8Size) := by
    have hle (n : UInt32) : c.val ≤ n ↔ c.toNat ≤ n.toNat := UInt32.le_iff_toNat_le
    unfold Char.utf8Size
    simp only [hle]
    simp only [UInt32.toNat_ofNatLT]
    constructor <;> intro h <;> (repeat' split) <;> omega
  unfold escape
  split
  · simp; omega
  · split <;> try (simp; omega)
    split
    · simp [length_hexDigits]; omega
    · split
      · simp [length_hexDigits]; omega
      · simp [length_hexDigits]; omega

/-- A key on one line is never literal, since such a scalar has a line feed. -/
theorem styleOf_key_ne_literal (k : List Char) : styleOf true k ≠ .literal := by
  unfold styleOf
  simp only [Bool.true_and, Bool.not_true, Bool.and_false]
  repeat' split
  all_goals simp_all

/-- The written form of a key that fits on one line has at most four characters for each octet of
    the key, and two quotes. -/
theorem length_stringChars_key (lines : Nat) {k : List Char} (hbreak : ∀ c ∈ k, isBreak c = false) :
    (stringChars true lines k).length ≤ 4 * (String.ofList k).utf8ByteSize + 2 := by
  have hescape : (k.flatMap escape).length ≤ 4 * (String.ofList k).utf8ByteSize := by
    clear hbreak
    induction k with
    | nil => simp
    | cons c k ih =>
      have := length_escape_le c
      rw [utf8ByteSize_ofList_cons, List.flatMap_cons, List.length_append]
      omega
  have hplain : k.length ≤ (String.ofList k).utf8ByteSize := by
    clear hbreak hescape
    induction k with
    | nil => simp
    | cons c k ih =>
      have := c.utf8Size_pos
      rw [utf8ByteSize_ofList_cons, List.length_cons]
      omega
  have hsingle : (singleQuotedBody lines false k).length ≤ 2 * k.length := by
    clear hescape hplain
    induction k with
    | nil => simp [singleQuotedBody]
    | cons c k ih =>
      obtain ⟨hc, hk⟩ := List.forall_mem_cons.mp hbreak
      have := ih hk
      rw [singleQuotedBody, hc]
      simp only [Bool.false_eq_true, ↓reduceIte, List.nil_append, List.length_append,
        List.length_cons]
      split <;> simp <;> omega
  -- each style adds two quotes at most
  have hwritten := writtenAs_string true lines k
  have hstyle := styleOf_key_ne_literal k
  generalize styleOf true k = style, stringChars true lines k = written at hwritten hstyle
  cases hwritten with
  | plain => omega
  | singleQuoted =>
    simp only [singleQuoted, List.cons_append, List.length_cons, List.length_append,
      List.length_nil]
    omega
  | doubleQuoted =>
    simp only [doubleQuoted, List.cons_append, List.length_cons, List.length_append,
      List.length_nil]
    omega
  | literal => exact absurd rfl hstyle

namespace Scanner

section

variable {s : Scanner} {tokens : Array Token} {indent : Int} {outer : List Int} {column : Nat}
  {text rest written : List Char}

/-- A quoted key is read up to the colon, and its place is remembered. Since it is on one line,
    the cursor is known. -/
theorem At.token_quotedKey {single : Bool} (htext : Chunks single text written)
    (hline : ∀ c ∈ text, isBreak c = false)
    (h : At s tokens indent outer column true
      (quote single :: (written ++ quote single :: ':' :: rest))) :
    s.token = .ok ({ s with
        place := s.keyPlace
        cursor := s.cursor.advance (written.length + 2)
        keyAllowed := false }.push
      (.scalar (String.ofList text) (if single then .singleQuoted else .doubleQuoted))) := by
  obtain ⟨c, hscan, -, -, hc⟩ := scanQuoted_chunks htext (by simp) h.rest
  rw [h.token_quoted single, quotedScalar, h.savePlace, ok_bind]
  show (scanQuoted single s.cursor >>= _) = _
  rw [hscan, hc hline]
  rfl

/-- The scalar of a key is read up to the colon in every style that a key can have, and its place
    is remembered. -/
theorem At.token_key {lines : Nat} {style : Style} (hwritten : WrittenAs lines text style written)
    (hstyle : style ≠ .literal) (hline : ∀ c ∈ text, isBreak c = false) (hlines : 0 < lines)
    (h : At s tokens indent outer column true (written ++ ':' :: rest))
    (hrest : endsWord rest = true) (hcolumn : indent ≤ column) :
    s.token = .ok ({ s with
      place := s.keyPlace, cursor := s.cursor.advance written.length, keyAllowed := false }.push
        (.scalar (String.ofList text) style)) := by
  cases hwritten with
  | plain htext =>
    have hscan : scanPlain false (s.indent + 1).toNat s.cursor
        = .ok (text, false, s.cursor.advance text.length) :=
      scanPlain_key htext h.rest hrest (by rw [h.indent, h.column]; omega)
    rw [h.token_plain htext (.inr ⟨rfl, hrest⟩), plainScalar, h.savePlace, ok_bind]
    show (scanPlain s.inFlow (s.indent + 1).toNat s.cursor >>= _) = _
    rw [h.inFlow, hscan]
    rfl
  | singleQuoted htext =>
    have h' : At s tokens indent outer column true
        (quote true :: (singleQuotedBody lines false text ++ quote true :: ':' :: rest)) := by
      simpa [singleQuoted, quote] using h
    rw [h'.token_quotedKey (chunks_singleQuoted htext hlines) hline]
    simp [singleQuoted]
  | doubleQuoted =>
    have h' : At s tokens indent outer column true
        (quote false :: (text.flatMap escape ++ quote false :: ':' :: rest)) := by
      simpa [doubleQuoted, quote] using h
    rw [h'.token_quotedKey (chunks_doubleQuoted text) hline]
    simp [doubleQuoted]
  | literal => exact absurd rfl hstyle

/-- At the colon the key token, and before it the start of a mapping that is not open yet, are
    inserted at the remembered place, before all tokens that were read since. -/
theorem valueIndicator_key (since : List Token) (htokens : s.tokens = tokens ++ since)
    (hpossible : s.place.possible = true) (htoken : s.place.token = tokens.size)
    (hflow : s.inFlow = false) :
    s.valueIndicator = .ok { s with
      cursor := s.cursor.advance 1
      tokens := tokens ++ (opening s.indent s.place.column .blockMappingStart
        ++ .key :: (since ++ [.value]))
      indent := if s.indent < s.place.column then (s.place.column : Int) else s.indent
      outer := outerAt s.indent s.outer s.place.column
      place := { s.place with possible := false }
      keyAllowed := false } := by
  -- what was read since the key began comes after the token that is inserted
  have hinsert (t : Token) (since : List Token) :
      (tokens ++ since).insertIdxIfInBounds tokens.size t = tokens ++ (t :: since) :=
    insertIdx_append tokens t since
  have hpush (since : List Token) (t : Token) :
      (tokens ++ since).push t = tokens ++ (since ++ [t]) := (append_snoc tokens since t).symm
  have hflow' : (s.insert tokens.size .key).inFlow = false := hflow
  unfold valueIndicator opening outerAt
  rw [if_pos hpossible]
  simp only [htoken, openBlock, hflow', Bool.not_false, Bool.true_and]
  show Except.ok _ = Except.ok _
  congr 1
  by_cases hlt : s.indent < s.place.column
  · have hlt' : decide ((s.insert tokens.size .key).indent < (s.place.column : Int)) = true :=
      decide_eq_true hlt
    simp only [hlt', ↓reduceIte, hlt]
    simp only [insert, push, advance, htokens, hinsert, hpush]
    rfl
  · have hlt' : decide ((s.insert tokens.size .key).indent < (s.place.column : Int)) = false :=
      decide_eq_false hlt
    simp only [hlt', Bool.false_eq_true, ↓reduceIte, hlt]
    simp only [insert, push, advance, htokens, hinsert, hpush]
    rfl

/-- The scanner behind the text of a key, whose place it remembers. -/
def keyRead (s : Scanner) (length : Nat) (t : Token) : Scanner :=
  { s with
    place := s.keyPlace, cursor := s.cursor.advance length, keyAllowed := false }.push t

section Key

variable (h : At s tokens indent outer column true (written ++ ':' :: rest)) (t : Token)

include h

/-- A colon follows the text of a key. -/
theorem At.rest_keyRead : (s.keyRead written.length t).cursor.rest = ':' :: rest :=
  Cursor.rest_advance_append h.rest

/-- The colon stands directly behind the text, and the place of the key is not stale yet: the text
    is on one line and is short enough for a key. -/
theorem At.approach_keyRead (hshort : written.length ≤ 1024) :
    (s.keyRead written.length t).approach = .ok (s.keyRead written.length t) := by
  have hstarts : StartsToken (s.keyRead written.length t).cursor.rest := by
    rw [h.rest_keyRead]
    exact startsToken_cons (by decide) _
  have hskip : (s.keyRead written.length t).skipToToken
      ((s.keyRead written.length t).cursor.rest.length + 1) = s.keyRead written.length t :=
    skipToToken_spaces _ (n := 0) rfl hstarts
  have hplaces : (s.keyRead written.length t).places = [] := h.places
  rw [approach, hskip]
  refine dropStale_self fun p hp => ?_
  rw [hplaces, List.mem_singleton] at hp
  rw [hp]
  simp [isStale, keyPlace, keyRead, push]
  omega

/-- The colon is read where it stands. It closes no block, because it stands further to the right
    than the key. -/
theorem At.next_keyRead (hshort : written.length ≤ 1024) (hrest : endsWord rest = true)
    (hcolumn : indent ≤ column) :
    (s.keyRead written.length t).next = (s.keyRead written.length t).valueIndicator := by
  have hclose : (s.keyRead written.length t).closeBlocks (s.keyRead written.length t).cursor.column
      = s.keyRead written.length t := by
    have hplaces : (s.keyRead written.length t).places = [] := h.places
    rw [closeBlocks_of_places hplaces, closeBlocksFrom_self]
    show s.indent ≤ ((s.cursor.column + written.length : Nat) : Int)
    rw [h.indent, h.column]
    omega
  rw [Scanner.next, h.approach_keyRead t hshort, ok_bind, hclose,
    token_colon (h.rest_keyRead t) hrest]

/-- Once the colon is read the mapping is open, and the key stands in it before its value. -/
theorem At.value_keyRead (hcolumn : indent ≤ column) :
    ∃ s', (s.keyRead written.length t).valueIndicator = .ok s'
      ∧ s'.tokens.back? = some .value
      ∧ At s' (tokens ++ (opening indent column .blockMappingStart ++ [.key, t, .value]))
        column (outerAt indent outer column) (column + written.length + 1) false rest := by
  have hsince : (s.keyRead written.length t).tokens = tokens ++ [t] := by
    rw [← h.tokens]
    rfl
  have hread := valueIndicator_key [t] hsince rfl (congrArg Array.size h.tokens) h.inFlow
  have hindent : (s.keyRead written.length t).indent = indent := h.indent
  have houter : (s.keyRead written.length t).outer = outer := h.outer
  have hplace : (s.keyRead written.length t).place.column = column := h.column
  rw [hindent, houter, hplace] at hread
  refine ⟨_, hread, ?_, rfl, ?_, rfl, ?_, rfl, ?_, rfl, h.places⟩
  · rw [← Array.getLast?_toList]
    simp
  · show (if indent < (column : Int) then (column : Int) else indent) = column
    split <;> omega
  · show s.cursor.column + written.length + 1 = _
    rw [h.column]
  · show ((s.keyRead written.length t).cursor.advance 1).rest = rest
    rw [Cursor.rest_advance, h.rest_keyRead]
    rfl

end Key

/-- **A key on one line** is read with the colon after it; the first key opens the mapping. -/
theorem leads_key {lines : Nat} {k : String} (hline : ∀ c ∈ k.toList, isBreak c = false)
    (hsize : k.utf8ByteSize ≤ 128) (hlines : 0 < lines)
    (h : Ready s tokens indent outer column true (stringChars true lines k.toList ++ ':' :: rest))
    (hrest : endsWord rest = true) (hcolumn : indent ≤ column) :
    ∃ s', Leads s s' ∧ At s'
      (tokens ++ (opening indent column .blockMappingStart
        ++ [.key, .scalar k (styleOf true k.toList), .value]))
      column (outerAt indent outer column)
      (column + (stringChars true lines k.toList).length + 1) false rest := by
  obtain ⟨s₁, hstep, hat, hlength⟩ := h.next
  have hwritten := writtenAs_string true lines k.toList
  have hshort : (stringChars true lines k.toList).length ≤ 1024 := by
    have hlong := length_stringChars_key lines hline
    rw [String.ofList_toList] at hlong
    omega
  have hkey := At.token_key hwritten (styleOf_key_ne_literal _) hline hlines hat hrest hcolumn
  rw [String.ofList_toList] at hkey
  obtain ⟨s₃, hvalue, hlast, hat'⟩ :=
    hat.value_keyRead (.scalar k (styleOf true k.toList)) hcolumn
  have hrest₂ := hat.rest_keyRead (.scalar k (styleOf true k.toList))
  have hpos := List.length_pos_of_ne_nil hwritten.ne_nil
  refine ⟨s₃, (Leads.of_next (hstep.trans hkey) ?_ ?_).trans
    (Leads.of_next ((hat.next_keyRead _ hshort hrest hcolumn).trans hvalue) ?_ ?_), hat'⟩
  · show (s₁.keyRead _ _).cursor.rest.length < _
    rw [hrest₂]
    refine Nat.lt_of_lt_of_le ?_ hlength
    rw [List.length_append]
    omega
  · show (s₁.tokens.push _).back? ≠ _
    simp
  · rw [hat'.rest]
    show _ < (s₁.keyRead _ _).cursor.rest.length
    rw [hrest₂]
    exact Nat.lt_succ_self _
  · rw [hlast]
    simp

end

end Scanner

end SchemaEmbed.Yaml
