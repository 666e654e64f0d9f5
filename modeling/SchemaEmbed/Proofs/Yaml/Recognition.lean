import SchemaEmbed.Proofs.Json.Document
import SchemaEmbed.Proofs.Toml.FirstLine
import SchemaEmbed.Proofs.Yaml.Tokens
import SchemaEmbed.Toml.Reader

namespace SchemaEmbed.Yaml

/-!
# Recognising the text of a mapping

A text of YAML that is also one of JSON or TOML is not recognised as YAML, which comes last. For
the text of a mapping this is rare, and it can be told from the first entry: JSON is recognised by
its first character after white space, and a TOML document whose first line is not blank, a comment
or a header has an equals sign on that line.

* `white_of_sniff` — **what is recognised as JSON** begins with a key that begins with white space;
* `equals_of_sniff` — **what is recognised as TOML** has an equals sign in its first entry, in the
  key or in a string that is its value.

The white space is that of the recogniser, which has more of it than YAML: a no-break space at the
head of a key is written as it is, and trimmed before the bracket is looked for.
-/

open Toml (firstLine)

variable {column : Nat} {s written : List Char} {style : Style}

/-! ### Heads of scalars

No scalar begins with a bracket, whatever its style is, so a bracket at the head of a text would
have to come after white space.
-/

/-- A scalar begins with no bracket, and if it begins with white space it is plain, so that what
    it stands for begins with it too. -/
theorem WrittenAs.head (h : WrittenAs column s style written) :
    ∃ c rest, written = c :: rest ∧ c ≠ '[' ∧ c ≠ '{'
      ∧ (Text.isWhiteSpace c = true → s.head? = some c) := by
  cases h with
  | plain h =>
    obtain ⟨c, rest, rfl⟩ := List.exists_cons_of_ne_nil h.ne_nil
    refine ⟨c, rest, rfl, ?_, ?_, fun _ => rfl⟩
    · rintro rfl
      cases h.start
    · rintro rfl
      cases h.start
  | singleQuoted => exact ⟨'\'', _, rfl, by decide, by decide, fun h => absurd h (by decide)⟩
  | doubleQuoted => exact ⟨'"', _, rfl, by decide, by decide, fun h => absurd h (by decide)⟩
  | literal => exact ⟨'|', _, rfl, by decide, by decide, fun h => absurd h (by decide)⟩

/-! ### Equals signs of scalars

Neither escapes nor the marks of a style have an equals sign. So if one is written, the text has
it.
-/

/-- No hexadecimal digit is an equals sign. -/
theorem not_mem_hexDigits (width n : Nat) : '=' ∉ hexDigits width n := by
  induction width generalizing n with
  | zero => exact List.not_mem_nil
  | succ width ih =>
    have hall : ∀ n < 16, hexDigit n ≠ '=' := by decide
    simp only [hexDigits, List.mem_append, List.mem_singleton, not_or]
    exact ⟨ih _, (hall _ (Nat.mod_lt n (by decide))).symm⟩

/-- An equals sign in the form of a character in double quotes is the character: it is not
    escaped, and no escape has one. -/
theorem equals_of_escape {c : Char} (h : '=' ∈ escape c) : c = '=' := by
  have hcode (mark : Char) (width : Nat) (hmark : mark ≠ '=') :
      '=' ∉ mark :: hexDigits width c.toNat :=
    List.not_mem_cons_of_ne_of_not_mem hmark.symm (not_mem_hexDigits width c.toNat)
  unfold escape at h
  split at h
  · exact (List.mem_singleton.mp h).symm
  · exfalso
    rcases List.mem_cons.mp h with h | h
    · cases h
    · split at h
      case h_15 =>
        split at h
        · exact hcode 'x' 2 (by decide) h
        · split at h
          · exact hcode 'u' 4 (by decide) h
          · exact hcode 'U' 8 (by decide) h
      all_goals exact absurd h (by decide)

/-- Nothing but quotes and spaces is added between single quotes, so an equals sign there is one
    of the text. -/
theorem equals_of_singleQuotedBody {fresh : Bool} (h : '=' ∈ singleQuotedBody column fresh s) :
    '=' ∈ s := by
  have hspaces (fresh : Bool) : '=' ∉ (if fresh then spaces column else []) := by
    split
    · exact fun h => absurd (List.eq_of_mem_replicate h) (by decide)
    · exact List.not_mem_nil
  induction s generalizing fresh with
  | nil => exact absurd h (hspaces fresh)
  | cons c s ih =>
    rw [singleQuotedBody] at h
    split at h
    · rcases List.mem_cons.mp h with rfl | h
      · exact List.mem_cons_self
      · exact List.mem_cons_of_mem c (ih h)
    · rcases List.mem_append.mp h with h | h
      · rcases List.mem_append.mp h with h | h
        · exact absurd h (hspaces fresh)
        · split at h
          · exact absurd h (by decide)
          · rw [List.mem_singleton.mp h]
            exact List.mem_cons_self
      · exact List.mem_cons_of_mem c (ih h)

/-- **An equals sign** in a scalar that is not literal stands for itself. -/
theorem equals_of_written (h : WrittenAs column s style written) (hstyle : style ≠ .literal)
    (hmem : '=' ∈ written) : '=' ∈ s := by
  cases h with
  | plain => exact hmem
  | singleQuoted =>
    simp only [singleQuoted, List.cons_append, List.mem_cons, List.mem_append, List.not_mem_nil,
      or_false] at hmem
    rcases hmem with hmem | hmem | hmem
    · cases hmem
    · exact equals_of_singleQuotedBody hmem
    · cases hmem
  | doubleQuoted =>
    simp only [doubleQuoted, List.cons_append, List.mem_cons, List.mem_append, List.not_mem_nil,
      or_false, List.mem_flatMap] at hmem
    rcases hmem with hmem | ⟨c, hc, hmem⟩ | hmem
    · cases hmem
    · rwa [equals_of_escape hmem] at hc
    · cases hmem
  | literal => exact absurd rfl hstyle

/-! ### Equals signs of first lines

Only the first line counts. A scalar may go on in more lines, and a literal scalar has nothing but
its header on the first one; so the lemmas are about the first line of a scalar and what comes
after it.
-/

/-- What is on the first line of a text is before its first break. -/
theorem mem_of_firstLine {c : Char} {t : List Char} (h : c ∈ firstLine (s ++ '\n' :: t)) :
    c ∈ s := by
  rw [firstLine, List.takeWhile_append] at h
  split at h
  · simpa using h
  · exact (List.takeWhile_prefix _).subset h

/-- What is on the first line of two texts is in the first of them, or on the first line of the
    second. -/
theorem mem_firstLine_append {c : Char} {t : List Char} (h : c ∈ firstLine (s ++ t)) :
    c ∈ s ∨ c ∈ firstLine t := by
  rw [firstLine, List.takeWhile_append] at h
  split at h
  · exact List.mem_append.mp h
  · exact .inl ((List.takeWhile_prefix _).subset h)

/-- When the line of a text with a break is ended, only what follows the break may change. -/
theorem endLine_break (s t : List Char) : ∃ t', endLine (s ++ '\n' :: t) = s ++ '\n' :: t' := by
  unfold endLine
  split
  · exact ⟨t, rfl⟩
  · exact ⟨t ++ ['\n'], by simp⟩

/-- **An equals sign** on the first line of a scalar stands for itself, in every style. -/
theorem equals_of_line (h : WrittenAs column s style written) {next : List Char}
    (hmem : '=' ∈ firstLine (endLine written ++ next)) : '=' ∈ s := by
  by_cases hstyle : style = .literal
  · subst hstyle
    cases h with
    | literal =>
      -- the first line of a literal scalar has only its marks
      exfalso
      obtain ⟨marks, hmarks, body, hliteral⟩ : ∃ marks, '=' ∉ marks ∧ ∃ body,
          literal column s = marks ++ '\n' :: body := by
        refine ⟨_, fun h => ?_, literalBody column true s, rfl⟩
        rcases List.mem_append.mp h with h | h
        · split at h <;> exact absurd h (by decide)
        · unfold chompingMark at h
          repeat' split at h
          all_goals exact absurd h (by decide)
      obtain ⟨body', hline⟩ := endLine_break marks body
      rw [hliteral, hline, List.append_assoc] at hmem
      exact hmarks (mem_of_firstLine hmem)
  · rw [h.endLine_eq hstyle, List.append_assoc] at hmem
    exact equals_of_written h hstyle (mem_of_firstLine hmem)

/-- **An equals sign** on the first line of a value is in a string: neither another scalar nor
    the brackets of an empty collection have one, and any other collection begins on the next
    line. -/
theorem equals_of_value {v : Value} (hv : Value.IsFloatFinite v) {next : List Char}
    (hmem : '=' ∈ firstLine (endLine ((Tree.ofValue v).bodyAt (.value column)) ++ next)) :
    ∃ str, v = .string str ∧ '=' ∈ str.toList := by
  -- a scalar stands after a space
  have hscalar (text : List Char) {written : List Char} {style : Style}
      (h : WrittenAs (column + 2) text style written)
      (hbody : (Tree.ofValue v).bodyAt (.value column) = [' '] ++ written) : '=' ∈ text := by
    rw [hbody, endLine_append h.ne_nil, List.append_assoc] at hmem
    exact equals_of_line h ((mem_firstLine_append hmem).resolve_left (by decide))
  -- a collection with something in it begins on the next line
  have hnext {text : List Char} (hbody : (Tree.ofValue v).bodyAt (.value column) = '\n' :: text) :
      False := by
    obtain ⟨text', hline⟩ := endLine_break [] text
    rw [hbody, show '\n' :: text = [] ++ '\n' :: text from rfl, hline, List.append_assoc] at hmem
    exact List.not_mem_nil (mem_of_firstLine hmem)
  match v, hv with
  | .null, _ => exact absurd (hscalar "null".toList (writtenAs_word _ (by decide)) rfl) (by decide)
  | .bool true, _ =>
    exact absurd (hscalar "true".toList (writtenAs_word _ (by decide)) rfl) (by decide)
  | .bool false, _ =>
    exact absurd (hscalar "false".toList (writtenAs_word _ (by decide)) rfl) (by decide)
  | .number n, hv =>
    have hn : ∀ x, n = .float x → x.isFinite = true := fun x hx => by rw [hx] at hv; exact hv
    have hmem := hscalar (numberChars n) (writtenAs_number _ hn) rfl
    rcases mem_numberChars hn hmem with hdigit | hmark
    · cases hdigit
    · exact absurd hmark (by decide)
  | .string str, _ => exact ⟨str, rfl, hscalar str.toList (writtenAs_string false _ _) rfl⟩
  | .array [], _ =>
    have hmem : '=' ∈ firstLine ([' ', '[', ']'] ++ '\n' :: next) := hmem
    exact absurd (mem_of_firstLine hmem) (by decide)
  | .array (_ :: _), _ => exact (hnext rfl).elim
  | .object [], _ =>
    have hmem : '=' ∈ firstLine ([' ', '{', '}'] ++ '\n' :: next) := hmem
    exact absurd (mem_of_firstLine hmem) (by decide)
  | .object (_ :: _), _ => exact (hnext rfl).elim

/-! ### Texts of mappings

The first line of a mapping has its first key, or a question mark with the first line of the key,
and then the value if the key is on one line.
-/

variable {k : String} {v : Value} {rest : List (String × Value)}

/-- The text of a mapping with an entry consists of its entries, the last of which ends its line. -/
theorem toList_render_object (k : String) (v : Value) (rest : List (String × Value)) :
    (render (.object ((k, v) :: rest))).toList
      = Tree.entriesAt 0 [] ((.string k, Tree.ofValue v) :: Tree.ofEntries rest) := by
  rw [render, String.toList_ofList]
  exact endLine_of_endsLine (endsLine_entriesAt (List.cons_ne_nil _ _))

/-- The text of a mapping begins with its first key, or with the mark of a key of several lines;
    so it begins with no bracket, and with white space only if the key does. -/
theorem head_render_object (k : String) (v : Value) (rest : List (String × Value)) :
    ∃ c t, (render (.object ((k, v) :: rest))).toList = c :: t ∧ c ≠ '[' ∧ c ≠ '{'
      ∧ (Text.isWhiteSpace c = true → k.toList.head? = some c) := by
  rw [toList_render_object]
  cases hk : (Tree.string k).isSimpleKey with
  | false =>
    rw [entriesAt_complex hk]
    exact ⟨'?', _, rfl, by decide, by decide, fun h => absurd h (by decide)⟩
  | true =>
    obtain ⟨c, tail, hwritten, hhead⟩ := (writtenAs_string true 2 k.toList).head
    rw [entriesAt_simple hk, hwritten]
    exact ⟨c, _, rfl, hhead⟩

/-- **What is recognised as JSON** begins with a key that begins with white space. -/
theorem white_of_sniff (h : Json.sniff (render (.object ((k, v) :: rest))) = true) :
    ∃ c ∈ k.toList.head?, Text.isWhiteSpace c = true := by
  obtain ⟨c, t, htext, hbracket, hbrace, hwhite⟩ := head_render_object k v rest
  by_cases hc : Text.isWhiteSpace c = true
  · exact ⟨c, hwhite hc, hc⟩
  · -- otherwise nothing is trimmed, and the first character would be a bracket
    have htrim : Text.trimStart (c :: t) = c :: t := List.dropWhile_cons_of_neg hc
    simp only [Json.sniff, htext, htrim, List.head?_cons, Bool.and_eq_true, Bool.or_eq_true,
      beq_iff_eq, Option.some.injEq] at h
    exact (h.1.elim hbrace hbracket).elim

/-- **An equals sign** on the first line of a mapping is in its first entry, in the key or in a
    string that is its value. -/
theorem equals_of_object (hv : Value.IsFloatFinite v)
    (hmem : '=' ∈ firstLine (render (.object ((k, v) :: rest))).toList) :
    '=' ∈ k.toList ∨ ∃ str, v = .string str ∧ '=' ∈ str.toList := by
  rw [toList_render_object] at hmem
  cases hk : (Tree.string k).isSimpleKey with
  | true =>
    rw [entriesAt_simple hk] at hmem
    rcases mem_firstLine_append hmem with hmem | hmem
    · exact .inl (equals_of_written (writtenAs_string true _ _) (styleOf_key_ne_literal _) hmem)
    · have hmem := (mem_firstLine_append (s := [':']) hmem).resolve_left (by decide)
      exact .inr (equals_of_value hv hmem)
  | false =>
    -- the key stands after a question mark and a space
    have hbody : (Tree.string k).bodyAt (.part 0) = [' '] ++ stringChars false 2 k.toList := rfl
    have hwritten := writtenAs_string false 2 k.toList
    rw [entriesAt_complex hk, hbody, endLine_append hwritten.ne_nil, List.append_assoc] at hmem
    have hmem := (mem_firstLine_append (s := ['?', ' ']) hmem).resolve_left (by decide)
    exact .inl (equals_of_line hwritten hmem)

/-- **What is recognised as TOML** has an equals sign in its first entry, in the key or in a string
    that is its value. -/
theorem equals_of_sniff (hv : Value.IsFloatFinite v)
    (h : Toml.sniff (render (.object ((k, v) :: rest))) = true) :
    '=' ∈ k.toList ∨ ∃ str, v = .string str ∧ '=' ∈ str.toList := by
  obtain ⟨entries, htable⟩ : ∃ entries,
      Toml.readTable (render (.object ((k, v) :: rest))) = .ok entries := by
    simp only [Toml.sniff, Bool.and_eq_true] at h
    cases hread : Toml.readTable (render (.object ((k, v) :: rest))) with
    | error e => rw [hread] at h; cases h.2
    | ok entries => exact ⟨entries, rfl⟩
  obtain ⟨c, t, htext, hbracket, -⟩ := head_render_object k v rest
  have hstarts := startsToken_entriesAt 0 k (Tree.ofValue v) (Tree.ofEntries rest) []
  rw [List.append_nil, ← toList_render_object] at hstarts
  obtain ⟨hblank, hcomment, hmark⟩ := hstarts c (by rw [htext]; rfl)
  -- what begins a token of YAML is what begins an entry of TOML, but for a bracket
  have hsolid : Toml.IsSolid c := by
    simp only [isSpaceOrBreak, isBreak, Bool.or_eq_false_iff, beq_eq_false_iff_ne] at hblank
    obtain ⟨hblank, ⟨⟨⟨hreturn, hnewline⟩, -⟩, -⟩, -⟩ := hblank
    exact ⟨hblank, hcomment, hnewline, hreturn⟩
  have hmark : c ≠ '\ufeff' := by simpa [isByteOrderMark] using hmark
  exact equals_of_object hv (Toml.equals_of_readTable htable htext hsolid hbracket hmark)

end SchemaEmbed.Yaml
