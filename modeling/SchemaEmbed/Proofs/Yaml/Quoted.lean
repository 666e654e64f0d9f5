import Mathlib.Tactic.NormNum
import SchemaEmbed.Proofs.Yaml.Plain

namespace SchemaEmbed.Yaml

/-!
# Quoted scalars are read as they were written

In quotes a text is read word by word, with gaps between the words. A gap of spaces is kept; a gap
with a break is folded, which makes a line feed a space and drops the spaces around it. So a text
is read as it is only if it is written such that folding does nothing, and this is what the printer
takes care of: in double quotes every break is escaped, and in single quotes there is neither a
line feed nor a space next to a break.

* `Chunks` — a quoted text as words and the gaps between them, with what is written for each;
* `scanQuoted_chunks` — such a text is read up to its closing quote, by induction on it;
* `chunks_doubleQuoted` — every text in double quotes is of that kind;
* `chunks_singleQuoted` — so is every text in single quotes that can be written so.

Both styles have the same reader but for their words, so all that is said of gaps is said once, for
a reader of words that is given.
-/

/-! ### Words and gaps

What a word is depends on the style: in double quotes it may have escapes, in single quotes a quote
that is written twice. A word ends at the closing quote or at a gap.
-/

/-- The quote of a style, which stands on both sides of the text. -/
def quote (single : Bool) : Char := if single then '\'' else '"'

/-- Reads one word of a quoted scalar, in one style or the other. -/
def quotedWord (single : Bool) (s : List Char) : Except String (List Char × WordEnd × List Char) :=
  if single then .ok (singleQuotedWord [] s) else doubleQuotedWord (s.length + 1) [] s

/-- What ends a word of a quoted scalar: the closing quote or a gap. A closing quote is not
    followed by another one, since two quotes are one character of the text. -/
inductive StopsQuoted (single : Bool) : WordEnd → List Char → Prop where
  | quote {after : List Char} (h : after.head? ≠ some '\'') :
    StopsQuoted single .quote (quote single :: after)
  | gap {c : Char} {rest : List Char} (h : isSpaceOrBreak c = true) :
    StopsQuoted single .gap (c :: rest)

/-- Whether a written word is read as `w` wherever it ends. -/
def ReadsWord (single : Bool) (written w : List Char) : Prop :=
  ∀ stop t, StopsQuoted single stop t → quotedWord single (written ++ t) = .ok (w, stop, t)

/-- Whether no gap stands at the head of a text before the closing quote. What follows a gap is
    of that kind, so that the gap ends there. -/
def NoGap (single : Bool) (written : List Char) : Prop :=
  ∀ x ∈ (written ++ [quote single]).head?, isSpaceOrBreak x = false

/-- A quoted text and how it is written: words, and between them spaces, or breaks with the
    indentation of the next line. -/
inductive Chunks (single : Bool) : List Char → List Char → Prop where
  | word {w written : List Char} (hw : ReadsWord single written w) : Chunks single w written
  | spaces {w written s rest : List Char} {n : Nat} (hw : ReadsWord single written w)
    (hrest : NoGap single rest) (h : Chunks single s rest) :
    Chunks single (w ++ (spaces (n + 1) ++ s)) (written ++ (spaces (n + 1) ++ rest))
  | breaks {w written bs s rest : List Char} {n : Nat} (hw : ReadsWord single written w)
    (hbs : ∀ b ∈ bs, IsPlainBreak b ∧ b ≠ '\n') (hne : bs ≠ []) (hrest : NoGap single rest)
    (h : Chunks single s rest) :
    Chunks single (w ++ (bs ++ s)) (written ++ (bs ++ (Yaml.spaces (n + 1) ++ rest)))

/-- No gap stands at the head, whatever comes after the closing quote: at the latest the gap ends
    at the quote itself. -/
theorem NoGap.append {single : Bool} {written : List Char} (h : NoGap single written)
    (after : List Char) :
    ∀ x ∈ (written ++ quote single :: after).head?, isSpaceOrBreak x = false := by
  intro x hx
  apply h x
  cases written <;> exact hx

/-- A gap of breaks, of which none is a line feed, is folded to those breaks. -/
theorem folded_breaks {bs : List Char} (hbs : ∀ b ∈ bs, b ≠ '\n') (hne : bs ≠ []) :
    (bs.foldl (fun g b => g.addBreak [b]) Gap.none).folded = bs := by
  obtain ⟨b, bs, rfl⟩ := List.exists_cons_of_ne_nil hne
  have hb := hbs b List.mem_cons_self
  have hfirst : (Gap.none.addBreak [b]).first = some [b] := rfl
  rw [List.foldl_cons, foldl_addBreak hfirst]
  show Gap.folded ⟨[], some [b], [] ++ bs⟩ = b :: bs
  -- only a first break that is a line feed is folded
  unfold Gap.folded
  dsimp only
  split
  · next heq => cases heq
  · next heq =>
    cases heq
    exact absurd rfl hb
  · next heq =>
    cases heq
    rfl

section Reading

variable {single : Bool} {written w t : List Char} {c : Cursor}

/-- A word of a quoted scalar is read, and what ended it decides how the reader goes on: at the
    quote it is done, and at a gap it reads on after it. -/
theorem scanQuotedFrom_word {stop : WordEnd} (hw : ReadsWord single written w)
    (ht : StopsQuoted single stop t) (hrest : c.rest = written ++ t) (hcolumn : 0 < c.column)
    (fuel : Nat) (text : List Char) :
    (stop = .quote → scanQuotedFrom single (fuel + 1) text c
        = .ok (text ++ w, c.advance (written.length + 1)))
      ∧ (stop = .gap → ∀ g c',
        scanGap 0 (t.length + 1) Gap.none (c.advance written.length) = .ok (g, c') →
          scanQuotedFrom single (fuel + 1) text c
            = scanQuotedFrom single fuel (text ++ w ++ g.folded) c') := by
  have hmark : c.atDocumentIndicator = false := by
    simp [Cursor.atDocumentIndicator, Nat.ne_of_gt hcolumn]
  have htne : t ≠ [] := by cases ht <;> simp
  have hempty : c.rest.isEmpty = false := by simp [hrest, htne]
  have hword : (if single = true then Except.ok (singleQuotedWord [] c.rest)
      else doubleQuotedWord (c.rest.length + 1) [] c.rest) = .ok (w, stop, t) := by
    rw [hrest]
    exact hw stop t ht
  have hlength : c.rest.length - t.length = written.length := by simp [hrest]
  have hafter : (c.advance written.length).rest = t := Cursor.rest_advance_append hrest
  constructor
  · rintro rfl
    unfold scanQuotedFrom
    rw [hmark, hempty]
    simp only [Bool.false_eq_true, ↓reduceIte, hword, hlength, Cursor.advance_advance]
    rfl
  · rintro rfl g c' hgap
    rw [scanQuotedFrom, hmark, hempty]
    simp only [Bool.false_eq_true, ↓reduceIte, hword, hlength, hafter, hgap]
    rfl

/-- A word and the spaces after it are read up to the next word, and the spaces are kept. -/
theorem scanQuotedFrom_spaces (hw : ReadsWord single written w) {n : Nat} {next : List Char}
    (hnext : ∀ x ∈ next.head?, isSpaceOrBreak x = false)
    (hrest : c.rest = written ++ (spaces (n + 1) ++ next)) (hcolumn : 0 < c.column) (fuel : Nat)
    (text : List Char) :
    scanQuotedFrom single (fuel + 1) text c
        = scanQuotedFrom single fuel (text ++ w ++ spaces (n + 1))
          (c.advance (written.length + (n + 1)))
      ∧ (c.advance (written.length + (n + 1))).rest = next := by
  have hleft := Cursor.rest_advance_append hrest
  have hread : scanGap 0 ((spaces (n + 1) ++ next).length + 1) Gap.none (c.advance written.length)
      = .ok (Gap.none.addBlanks (spaces (n + 1)), c.advance (written.length + (n + 1))) := by
    rw [← Cursor.advance_advance]
    refine scanGap_spaces 0 ?_ hleft hnext
    simp only [List.length_append, length_spaces]
    omega
  have hfolded : (Gap.none.addBlanks (spaces (n + 1))).folded = spaces (n + 1) := rfl
  constructor
  · rw [(scanQuotedFrom_word hw (.gap rfl) hrest hcolumn fuel text).2 rfl _ _ hread, hfolded]
  · rw [← Cursor.advance_advance]
    exact Cursor.rest_advance_spaces hleft

/-- A word and the breaks after it are read up to the next word, which is indented. The breaks are
    kept, since none of them is a line feed. -/
theorem scanQuotedFrom_breaks (hw : ReadsWord single written w) {bs : List Char}
    (hbs : ∀ b ∈ bs, IsPlainBreak b ∧ b ≠ '\n') (hne : bs ≠ []) {n : Nat} {next : List Char}
    (hnext : ∀ x ∈ next.head?, isSpaceOrBreak x = false)
    (hrest : c.rest = written ++ (bs ++ (spaces (n + 1) ++ next))) (hcolumn : 0 < c.column)
    (fuel : Nat) (text : List Char) :
    scanQuotedFrom single (fuel + 1) text c
      = scanQuotedFrom single fuel (text ++ w ++ bs)
        ⟨next, c.index + written.length + bs.length + (n + 1), c.line + bs.length, n + 1⟩ := by
  have hleft := Cursor.rest_advance_append hrest
  have hstop : StopsQuoted single .gap (bs ++ (spaces (n + 1) ++ next)) := by
    obtain ⟨b, bs, rfl⟩ := List.exists_cons_of_ne_nil hne
    have hb := (hbs b List.mem_cons_self).1.isBreak
    exact .gap (by rw [isSpaceOrBreak, hb, Bool.or_true])
  have hread : scanGap 0 ((bs ++ (spaces (n + 1) ++ next)).length + 1) Gap.none
      (c.advance written.length)
      = .ok (bs.foldl (fun g b => g.addBreak [b]) Gap.none,
        ⟨next, c.index + written.length + bs.length + (n + 1), c.line + bs.length, n + 1⟩) := by
    refine scanGap_breaks 0 bs (fun b hb => (hbs b hb).1) hne ?_ hleft hnext
    simp only [List.length_append, length_spaces]
    omega
  rw [(scanQuotedFrom_word hw hstop hrest hcolumn fuel text).2 rfl _ _ hread,
    folded_breaks (fun b hb => (hbs b hb).2) hne]

/-- **A quoted text** is read up to its closing quote. Where it is on one line, the reader has
    passed as many characters as are written, so that the column is known; a quoted key needs
    this. -/
theorem scanQuotedFrom_chunks {s : List Char} (h : Chunks single s written) {after : List Char}
    (hafter : after.head? ≠ some '\'') {fuel : Nat} {text : List Char}
    (hrest : c.rest = written ++ quote single :: after) (hcolumn : 0 < c.column)
    (hfuel : written.length < fuel) :
    ∃ c', scanQuotedFrom single fuel text c = .ok (text ++ s, c') ∧ c'.rest = after
      ∧ c.line ≤ c'.line
      ∧ ((∀ a ∈ s, isBreak a = false) → c' = c.advance (written.length + 1)) := by
  obtain ⟨fuel, rfl⟩ : ∃ k, fuel = k + 1 := ⟨fuel - 1, by omega⟩
  induction h generalizing fuel text c with
  | word hw =>
    refine ⟨_, (scanQuotedFrom_word hw (.quote hafter) hrest hcolumn fuel text).1 rfl, ?_,
      Nat.le_refl _, fun _ => rfl⟩
    rw [Cursor.rest_advance, hrest, List.drop_append]
    simp
  | @spaces w written s rest n hw hgap h ih =>
    simp only [List.length_append, length_spaces] at hfuel ⊢
    obtain ⟨fuel, rfl⟩ : ∃ k, fuel = k + 1 := ⟨fuel - 1, by omega⟩
    obtain ⟨hgo, hnext⟩ := scanQuotedFrom_spaces hw (n := n) (hgap.append after)
      (by simpa using hrest) hcolumn (fuel + 1) text
    have hcolumn' : 0 < (c.advance (written.length + (n + 1))).column := by
      rw [Cursor.column_advance]
      omega
    obtain ⟨c', hscan, hafter', hline, hplace⟩ :=
      @ih _ (text ++ w ++ spaces (n + 1)) hnext hcolumn' fuel (by omega)
    refine ⟨c', ?_, hafter', hline, fun hs => ?_⟩
    · rw [hgo]
      simpa using hscan
    · rw [hplace fun a ha => hs a (by simp [ha]), Cursor.advance_advance]
      congr 1
      omega
  | @breaks w written bs s rest n hw hbs hne hgap h ih =>
    simp only [List.length_append, length_spaces] at hfuel ⊢
    obtain ⟨fuel, rfl⟩ : ∃ k, fuel = k + 1 := ⟨fuel - 1, by omega⟩
    have hgo := scanQuotedFrom_breaks hw hbs hne (n := n) (hgap.append after)
      (by simpa using hrest) hcolumn (fuel + 1) text
    obtain ⟨c', hscan, hafter', hline, -⟩ := @ih ⟨rest ++ quote single :: after,
      c.index + written.length + bs.length + (n + 1), c.line + bs.length, n + 1⟩
      (text ++ w ++ bs) rfl (Nat.succ_pos n) fuel (by omega)
    refine ⟨c', ?_, hafter', Nat.le_trans (Nat.le_add_right _ _) hline, fun hs => ?_⟩
    · rw [hgo]
      simpa using hscan
    · -- there is a break in the text
      obtain ⟨b, bs, rfl⟩ := List.exists_cons_of_ne_nil hne
      have hb := (hbs b List.mem_cons_self).1.isBreak
      rw [hs b (by simp)] at hb
      cases hb

/-- A quoted scalar is read at its opening quote, up to and with its closing one. -/
theorem scanQuoted_chunks {s : List Char} (h : Chunks single s written) {after : List Char}
    (hafter : after.head? ≠ some '\'')
    (hrest : c.rest = quote single :: (written ++ quote single :: after)) :
    ∃ c', scanQuoted single c = .ok (s, c') ∧ c'.rest = after ∧ c.line ≤ c'.line
      ∧ ((∀ a ∈ s, isBreak a = false) → c' = c.advance (written.length + 2)) := by
  have hrest' : (c.advance 1).rest = written ++ quote single :: after := by
    rw [Cursor.rest_advance, hrest]
    rfl
  have hfuel : written.length < c.rest.length + 1 := by
    rw [hrest]
    simp only [List.length_cons, List.length_append]
    omega
  obtain ⟨c', hscan, hafter', hline, hplace⟩ :=
    scanQuotedFrom_chunks h hafter hrest' (Nat.succ_pos _) hfuel
  refine ⟨c', hscan, hafter', hline, fun hs => ?_⟩
  rw [hplace hs, Cursor.advance_advance]
  congr 1
  omega

end Reading

/-! ### Double quotes

A character is written as it is or as an escape: by a letter, or by its code point with two, four
or eight digits. Every break is escaped, so a gap is of spaces only.
-/

/-- Hexadecimal digits are read as the number that they write, as far as it fits in that many
    digits. -/
theorem hexNumber_hexDigits (width n : Nat) :
    hexNumber? (hexDigits width n) = some (n % 16 ^ width) := by
  have hdigit : ∀ d < 16, hexValue? (hexDigit d) = some d := by decide
  -- the digits are read one after the other, so the number so far goes through the induction
  have hfold (init : Nat) : (hexDigits width n).foldlM
      (fun n c => (hexValue? c).map (n * 16 + ·)) init
        = some (init * 16 ^ width + n % 16 ^ width) := by
    induction width generalizing n init with
    | zero => simp [hexDigits, Nat.mod_one]
    | succ width ih =>
      rw [hexDigits, List.foldlM_append, ih]
      simp only [Option.bind_eq_bind, Option.bind_some, List.foldlM_cons,
        hdigit _ (Nat.mod_lt n (by decide)), Option.map_some, List.foldlM_nil]
      congr 1
      have hsplit : n % 16 ^ (width + 1) = n / 16 % 16 ^ width * 16 + n % 16 := by
        rw [Nat.pow_succ, Nat.mul_comm (16 ^ width), Nat.mod_mul, Nat.add_comm, Nat.mul_comm 16]
      rw [hsplit, Nat.pow_succ, Nat.add_mul, Nat.add_assoc, Nat.mul_assoc]
  have hzero := hfold 0
  rw [Nat.zero_mul, Nat.zero_add] at hzero
  exact hzero

/-- As many digits are written as were asked for. -/
theorem length_hexDigits (width n : Nat) : (hexDigits width n).length = width := by
  induction width generalizing n with
  | zero => rfl
  | succ width ih => simp [hexDigits, ih]

/-- The character of the code point of a character is that character. -/
theorem charOfCode_toNat (c : Char) : charOfCode? c.toNat = some c := by
  have hvalid : c.toNat.isValidChar := c.valid
  unfold charOfCode?
  rw [dif_pos hvalid]
  congr 1
  apply Char.ext
  exact UInt32.ofNat_toNat

/-- An escape by code point is read as its character, if its width is enough for the code point. -/
theorem doubleQuotedWord_code {fuel width : Nat} {word : List Char} {mark : Char}
    (hmark : codeWidth? mark = some width) (c : Char) (hc : c.toNat < 16 ^ width) (t : List Char) :
    doubleQuotedWord (fuel + 1) word ('\\' :: mark :: (hexDigits width c.toNat ++ t))
      = doubleQuotedWord fuel (c :: word) t := by
  have hletter : isBreak mark = false ∧ unescape? mark = none := by
    unfold codeWidth? at hmark
    split at hmark
    · exact ⟨rfl, rfl⟩
    · exact ⟨rfl, rfl⟩
    · exact ⟨rfl, rfl⟩
    · cases hmark
  have hlength := length_hexDigits width c.toNat
  have htake : (hexDigits width c.toNat ++ t).take width = hexDigits width c.toNat :=
    List.take_left' hlength
  have hdrop : (hexDigits width c.toNat ++ t).drop width = t := List.drop_left' hlength
  have hlong : ¬ (hexDigits width c.toNat ++ t).length < width := by
    rw [List.length_append, hlength]
    omega
  rw [doubleQuotedWord]
  simp only [hletter, hmark, hlong, htake, hdrop, hexNumber_hexDigits, Nat.mod_eq_of_lt hc,
    charOfCode_toNat, Bool.false_eq_true, ↓reduceIte]

/-- A printable character that is neither a break nor a space belongs to no gap; a tab is not
    printable. -/
theorem not_gap_of_printable {c : Char} (hprint : isPrintable c = true) (hbreak : isBreak c = false)
    (hc : c ≠ ' ') : isSpaceOrBreak c = false := by
  have htab : c ≠ '\t' := by
    rintro rfl
    cases hprint
  simp [isSpaceOrBreak, isBlank, hbreak, hc, htab]

/-- The written form of a character begins with no gap, unless it is a space: either it is the
    character, or it begins with a backslash. -/
theorem escape_head {c : Char} (hc : c ≠ ' ') :
    ∃ a rest, escape c = a :: rest ∧ isSpaceOrBreak a = false := by
  unfold escape
  split
  · next h =>
    simp only [Bool.and_eq_true, Bool.not_eq_true'] at h
    exact ⟨c, [], rfl, not_gap_of_printable h.1.1.1 h.1.1.2 hc⟩
  · exact ⟨'\\', _, rfl, rfl⟩

/-- **A character of a word** in double quotes is read as itself, escaped or not. -/
theorem doubleQuotedWord_escape {fuel : Nat} {word : List Char} {c : Char} (hc : c ≠ ' ')
    (t : List Char) :
    doubleQuotedWord (fuel + 1) word (escape c ++ t) = doubleQuotedWord fuel (c :: word) t := by
  unfold escape
  split
  · next h =>
    simp only [Bool.and_eq_true, Bool.not_eq_true', bne_iff_ne] at h
    obtain ⟨⟨⟨hprint, hbreak⟩, hquote⟩, hbackslash⟩ := h
    rw [List.singleton_append, doubleQuotedWord, not_gap_of_printable hprint hbreak hc]
    · rfl
    · exact hquote
    · exact hbackslash
  · rw [List.cons_append]
    split
    -- an escape by code point, whose width is the least that is enough
    case h_15 =>
      have hmax : c.toNat < 16 ^ 8 := Nat.lt_of_lt_of_le c.val.toNat_lt (by decide)
      split
      · exact doubleQuotedWord_code rfl c (by omega) t
      · split
        · exact doubleQuotedWord_code rfl c (by omega) t
        · exact doubleQuotedWord_code rfl c hmax t
    all_goals rfl

/-- A word in double quotes is read as it is. It may contain breaks, since they are escaped; only
    a space ends it. -/
theorem readsWord_escape {w : List Char} (hw : ∀ c ∈ w, c ≠ ' ') :
    ReadsWord false (w.flatMap escape) w := by
  intro stop t ht
  -- the word so far is kept in reverse
  have hread (fuel : Nat) (hfuel : w.length < fuel) (word : List Char) :
      doubleQuotedWord fuel word (w.flatMap escape ++ t) = .ok (word.reverse ++ w, stop, t) := by
    induction w generalizing fuel word with
    | nil =>
      obtain ⟨fuel, rfl⟩ : ∃ k, fuel = k + 1 := ⟨fuel - 1, by omega⟩
      rw [List.flatMap_nil, List.nil_append, List.append_nil]
      cases ht with
      | quote h => rfl
      | @gap c rest h =>
        have hne : c ≠ '"' ∧ c ≠ '\\' := by constructor <;> rintro rfl <;> cases h
        rw [doubleQuotedWord, if_pos h]
        · exact hne.1
        · exact hne.2
    | cons c w ih =>
      obtain ⟨fuel, rfl⟩ : ∃ k, fuel = k + 1 := ⟨fuel - 1, by omega⟩
      obtain ⟨hc, hw⟩ := List.forall_mem_cons.mp hw
      rw [List.flatMap_cons, List.append_assoc, doubleQuotedWord_escape hc,
        ih hw fuel (by simpa using hfuel)]
      simp
  have hlength : w.length ≤ (w.flatMap escape).length := by
    clear hread
    induction w with
    | nil => exact Nat.le_refl _
    | cons c w ih =>
      obtain ⟨hc, hw⟩ := List.forall_mem_cons.mp hw
      obtain ⟨a, rest, hescape, -⟩ := escape_head hc
      rw [List.flatMap_cons, hescape, List.length_append, List.length_cons, List.length_cons]
      have := ih hw
      omega
  show doubleQuotedWord ((w.flatMap escape ++ t).length + 1) [] (w.flatMap escape ++ t) = _
  rw [hread]
  · rfl
  · rw [List.length_append]
    omega

/-- **Every text in double quotes** is read as it is, by induction on its length: a word, spaces,
    and the rest. -/
theorem chunks_doubleQuoted (s : List Char) : Chunks false s (s.flatMap escape) := by
  induction hlength : s.length using Nat.strongRecOn generalizing s with
  | ind length ih =>
    subst hlength
    obtain ⟨w, n, rest, rfl, hw, hnext, hnil⟩ := exists_word s
    cases n with
    | zero =>
      rw [hnil rfl]
      simpa [spaces] using Chunks.word (readsWord_escape hw)
    | succ n =>
      have hspaces (k : Nat) : (spaces k).flatMap escape = spaces k := by
        induction k with
        | zero => rfl
        | succ k ih =>
          rw [spaces, List.replicate_succ, List.flatMap_cons]
          exact congrArg (' ' :: ·) ih
      rw [List.flatMap_append, List.flatMap_append, hspaces]
      refine .spaces (readsWord_escape hw) ?_ (ih rest.length ?_ rest rfl)
      · cases rest with
        | nil =>
          rintro x ⟨⟩
          rfl
        | cons c rest =>
          obtain ⟨a, tail, hescape, ha⟩ := escape_head (c := c) (by simpa using hnext)
          rw [List.flatMap_cons, hescape]
          rintro x ⟨⟩
          exact ha
      · simp only [List.length_append, length_spaces]
        omega

/-! ### Single quotes

Nothing can be escaped but the quote itself. Breaks are written as they are, with the indentation
of the next line after the last of them, and this indentation is what folding drops again.
-/

/-- A word in single quotes, in which a quote is written twice. -/
def quoteWord (w : List Char) : List Char :=
  w.flatMap fun c => if c == '\'' then ['\'', '\''] else [c]

/-- A word in single quotes is read as it is. It contains no gap, since nothing is escaped. -/
theorem readsWord_quoteWord {w : List Char} (hw : ∀ c ∈ w, isSpaceOrBreak c = false) :
    ReadsWord true (quoteWord w) w := by
  intro stop t ht
  have hread (word : List Char) :
      singleQuotedWord word (quoteWord w ++ t) = (word.reverse ++ w, stop, t) := by
    induction w generalizing word with
    | nil =>
      rw [List.append_nil]
      show singleQuotedWord word t = _
      cases ht with
      | @quote after h =>
        cases after with
        | nil => rfl
        | cons a after =>
          have ha : a ≠ '\'' := fun heq => h (by rw [heq]; rfl)
          show singleQuotedWord word ('\'' :: a :: after) = _
          rw [singleQuotedWord]
          · rfl
          · rintro rest - heq
            exact ha (List.cons.inj heq).1
      | @gap c rest h =>
        have hne : c ≠ '\'' := by rintro rfl; cases h
        rw [singleQuotedWord, if_neg hne, if_pos h]
        exact fun rest heq => absurd heq hne
    | cons c w ih =>
      obtain ⟨hc, hw⟩ := List.forall_mem_cons.mp hw
      have hnext := ih hw (c :: word)
      by_cases hquote : c = '\''
      · subst hquote
        show singleQuotedWord word ('\'' :: '\'' :: (quoteWord w ++ t)) = _
        rw [singleQuotedWord, hnext]
        simp
      · have hcons : quoteWord (c :: w) = c :: quoteWord w := by
          simp [quoteWord, hquote]
        rw [hcons, List.cons_append, singleQuotedWord, if_neg hquote, hc, if_neg (by decide), hnext]
        · simp
        · exact fun rest heq => absurd heq hquote
  show Except.ok (singleQuotedWord [] (quoteWord w ++ t)) = _
  rw [hread]
  rfl

/-- A text that begins with a word is written as that word, and then the rest of it. -/
theorem singleQuotedBody_word (indent : Nat) {w : List Char} (hw : ∀ c ∈ w, isBreak c = false)
    (t : List Char) :
    singleQuotedBody indent false (w ++ t) = quoteWord w ++ singleQuotedBody indent false t := by
  induction w with
  | nil => rfl
  | cons c w ih =>
    obtain ⟨hc, hw⟩ := List.forall_mem_cons.mp hw
    rw [List.cons_append, singleQuotedBody, hc, ih hw]
    simp [quoteWord]

/-- After breaks the next line is indented, and then the rest is written. -/
theorem singleQuotedBody_breaks (indent : Nat) {bs : List Char} (hbs : ∀ b ∈ bs, isBreak b = true)
    (hne : bs ≠ []) {t : List Char} (ht : ∀ c ∈ t.head?, isBreak c = false) (fresh : Bool) :
    singleQuotedBody indent fresh (bs ++ t)
      = bs ++ (spaces indent ++ singleQuotedBody indent false t) := by
  have hfresh : singleQuotedBody indent true t
      = spaces indent ++ singleQuotedBody indent false t := by
    cases t with
    | nil => simp [singleQuotedBody]
    | cons c t => simp [singleQuotedBody, ht c rfl]
  induction bs generalizing fresh with
  | nil => exact absurd rfl hne
  | cons b bs ih =>
    obtain ⟨hb, hbs⟩ := List.forall_mem_cons.mp hbs
    rw [List.cons_append, singleQuotedBody, if_pos hb]
    by_cases hnil : bs = []
    · rw [hnil, List.nil_append, hfresh]
      rfl
    · rw [ih hbs hnil]
      rfl

/-- A pair of neighbours that occurs nowhere does not occur at a given place. -/
theorem pair_at {p q : Char → Bool} {s pre rest : List Char} {a b : Char}
    (h : hasPair p q s = false) (hs : s = pre ++ a :: b :: rest) : (p a && q b) = false := by
  induction pre generalizing s with
  | nil =>
    subst hs
    simp only [List.nil_append, hasPair, Bool.or_eq_false_iff] at h
    exact h.1
  | cons c pre ih =>
    subst hs
    refine ih ?_ rfl
    cases pre <;>
      simp only [List.cons_append, List.nil_append, hasPair, Bool.or_eq_false_iff] at h ⊢ <;>
      exact h.2

/-- What a text is that can be written in single quotes: printable, without a line feed, and with
    no space next to a break. -/
structure SingleText (s : List Char) : Prop where
  printable : ∀ c ∈ s, isPrintable c = true
  no_newline : '\n' ∉ s
  /-- A space and a break are never next to each other. -/
  apart : ∀ pre a b rest, s = pre ++ a :: b :: rest →
    (a = ' ' → isBreak b = false) ∧ (b = ' ' → isBreak a = false)

/-- The traits of a text say whether it can be written in single quotes. -/
theorem singleText_of_traits {s : List Char} (h : (ScalarTraits.of s).singleQuotedAllowed = true)
    (hnewline : '\n' ∉ s) : SingleText s := by
  simp only [ScalarTraits.of, Bool.and_eq_true, Bool.not_eq_true', Bool.or_eq_false_iff,
    List.any_eq_false] at h
  obtain ⟨⟨hspecial, hspace⟩, hbreak⟩ := h
  refine ⟨fun c hc => by simpa using hspecial c hc, hnewline, fun pre a b rest hs => ⟨?_, ?_⟩⟩
  · rintro rfl
    simpa using pair_at hspace hs
  · rintro rfl
    simpa using pair_at hbreak hs

/-- What is left of such a text after its beginning is such a text. -/
theorem SingleText.of_append {s t : List Char} (h : SingleText (s ++ t)) : SingleText t where
  printable := fun c hc => h.printable c (List.mem_append_right _ hc)
  no_newline := fun hc => h.no_newline (List.mem_append_right _ hc)
  apart := fun pre a b rest ht => h.apart (s ++ pre) a b rest (by rw [ht]; simp)

/-- Every text begins with characters that satisfy `p`, as many as there are, and what follows
    does not begin with one. -/
theorem exists_span (p : Char → Bool) (s : List Char) :
    ∃ w t, s = w ++ t ∧ (∀ c ∈ w, p c = true) ∧ ∀ c ∈ t.head?, p c = false := by
  refine ⟨s.takeWhile p, s.dropWhile p, List.takeWhile_append_dropWhile.symm,
    fun c hc => List.all_eq_true.mp List.all_takeWhile c hc, fun c hc => ?_⟩
  have hnot := List.head?_dropWhile_not p s
  rw [Option.mem_def.mp hc] at hnot
  simpa using hnot

/-- What is written for a text that begins with no gap does not begin with one either. -/
theorem noGap_singleQuotedBody (indent : Nat) {s : List Char}
    (hs : ∀ c ∈ s.head?, isSpaceOrBreak c = false) :
    NoGap true (singleQuotedBody indent false s) := by
  cases s with
  | nil =>
    rintro x ⟨⟩
    rfl
  | cons c s =>
    have hc := hs c rfl
    have hbreak : isBreak c = false := (Bool.or_eq_false_iff.mp hc).2
    intro x hx
    rw [singleQuotedBody, hbreak] at hx
    by_cases hquote : c = '\''
    · subst hquote
      cases hx
      rfl
    · simp only [Bool.false_eq_true, ↓reduceIte, List.nil_append, beq_iff_eq, hquote,
        List.cons_append, List.head?_cons, Option.mem_def, Option.some.injEq] at hx
      exact hx ▸ hc

/-- A gap that begins with a break is of breaks only, and a word follows: a space would be next to
    the last of them. -/
theorem SingleText.exists_breaks {c : Char} {t : List Char} (h : SingleText (c :: t))
    (hc : isBreak c = true) :
    ∃ bs rest, c :: t = bs ++ rest ∧ bs ≠ [] ∧ (∀ b ∈ bs, IsPlainBreak b ∧ b ≠ '\n')
      ∧ ∀ x ∈ rest.head?, isSpaceOrBreak x = false := by
  obtain ⟨bs, rest, hbs, hall, hnext⟩ := exists_span isBreak (c :: t)
  have hne : bs ≠ [] := by
    rintro rfl
    have hfirst := hnext c (by rw [← show c :: t = rest from hbs]; rfl)
    rw [hc] at hfirst
    cases hfirst
  rw [hbs] at h
  refine ⟨bs, rest, hbs, hne, fun b hb => ?_, fun x hx => ?_⟩
  · have hmem : b ∈ bs ++ rest := List.mem_append_left _ hb
    refine ⟨isPlainBreak_of_isPrintable (hall b hb) (h.printable b hmem), ?_⟩
    rintro rfl
    exact h.no_newline hmem
  · obtain ⟨r, rfl⟩ := List.head?_eq_some_iff.mp hx
    refine not_gap_of_printable (h.printable x (by simp)) (hnext x rfl) ?_
    rintro rfl
    obtain ⟨init, last, rfl⟩ := (List.eq_nil_or_concat bs).resolve_left hne
    have hlast := (h.apart init last ' ' r (by simp)).2 rfl
    rw [hall last (by simp)] at hlast
    cases hlast

/-- A gap that begins with a space is of spaces only, and a word follows: a break would be next to
    the last of them. -/
theorem SingleText.exists_spaces {t : List Char} (h : SingleText (' ' :: t)) :
    ∃ n rest, ' ' :: t = spaces (n + 1) ++ rest
      ∧ ∀ x ∈ rest.head?, isSpaceOrBreak x = false := by
  obtain ⟨sp, rest, hsp, hall, hnext⟩ := exists_span (· == ' ') (' ' :: t)
  have hne : sp ≠ [] := by
    rintro rfl
    have hfirst := hnext ' ' (by rw [← show ' ' :: t = rest from hsp]; rfl)
    cases hfirst
  obtain ⟨n, rfl⟩ : ∃ n, sp = spaces (n + 1) := by
    refine ⟨sp.length - 1, ?_⟩
    have hpos := List.length_pos_iff.mpr hne
    rw [Nat.sub_add_cancel hpos]
    exact List.eq_replicate_iff.mpr ⟨rfl, fun a ha => by simpa using hall a ha⟩
  rw [hsp] at h
  refine ⟨n, rest, hsp, fun x hx => ?_⟩
  obtain ⟨r, rfl⟩ := List.head?_eq_some_iff.mp hx
  refine not_gap_of_printable (h.printable x (by simp)) ?_ (by simpa using hnext x rfl)
  refine (h.apart (spaces n) ' ' x r ?_).1 rfl
  simp [spaces, List.replicate_succ']

/-- Spaces in a line are written as they are. -/
theorem singleQuotedBody_spaces (indent n : Nat) (t : List Char) :
    singleQuotedBody indent false (spaces n ++ t)
      = spaces n ++ singleQuotedBody indent false t := by
  have hspaces : ∀ a ∈ spaces n, a = ' ' := fun a ha => List.eq_of_mem_replicate ha
  rw [singleQuotedBody_word indent fun a ha => by rw [hspaces a ha]; rfl]
  congr 1
  simp [quoteWord, spaces, List.flatMap_replicate]

/-- **Every text that can be written in single quotes** is read as it is, by induction on its
    length: a word, a gap of breaks or of spaces, and the rest. -/
theorem chunks_singleQuoted {s : List Char} (h : SingleText s) {indent : Nat}
    (hindent : 0 < indent) : Chunks true s (singleQuotedBody indent false s) := by
  induction hlength : s.length using Nat.strongRecOn generalizing s with
  | ind length ih =>
    subst hlength
    obtain ⟨w, t, rfl, hw, ht⟩ := exists_span (! isSpaceOrBreak ·) s
    have hword : ∀ c ∈ w, isSpaceOrBreak c = false := fun c hc => by simpa using hw c hc
    have hline : ∀ c ∈ w, isBreak c = false := fun c hc =>
      (Bool.or_eq_false_iff.mp (hword c hc)).2
    have hread := readsWord_quoteWord hword
    rw [singleQuotedBody_word indent hline]
    have htext := h.of_append
    cases t with
    | nil => simpa [singleQuotedBody] using Chunks.word hread
    | cons c t =>
      have hgap : isSpaceOrBreak c = true := by simpa using ht c rfl
      by_cases hbreak : isBreak c = true
      · obtain ⟨bs, rest, hbs, hne, hkept, hnext⟩ := htext.exists_breaks hbreak
        rw [hbs] at htext ih ⊢
        -- the indentation is not empty, so the next line begins with at least one space
        obtain ⟨k, rfl⟩ : ∃ k, indent = k + 1 := ⟨indent - 1, by omega⟩
        rw [singleQuotedBody_breaks (k + 1) (fun b hb => (hkept b hb).1.isBreak) hne
          fun x hx => (Bool.or_eq_false_iff.mp (hnext x hx)).2]
        refine .breaks hread hkept hne (noGap_singleQuotedBody (k + 1) hnext)
          (ih rest.length ?_ htext.of_append rfl)
        have hpos := List.length_pos_iff.mpr hne
        simp only [List.length_append]
        omega
      · have hspace : c = ' ' := by
          refine Decidable.byContradiction fun hne => ?_
          rw [not_gap_of_printable (htext.printable c List.mem_cons_self)
            (by simpa using hbreak) hne] at hgap
          cases hgap
        subst hspace
        obtain ⟨n, rest, hsp, hnext⟩ := htext.exists_spaces
        rw [hsp] at htext ih ⊢
        rw [singleQuotedBody_spaces]
        refine .spaces hread (noGap_singleQuotedBody indent hnext)
          (ih rest.length ?_ htext.of_append rfl)
        simp only [List.length_append, length_spaces]
        omega

end SchemaEmbed.Yaml
