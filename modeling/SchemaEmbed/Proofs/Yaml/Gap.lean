import SchemaEmbed.Yaml.Token.Scalar
import SchemaEmbed.Yaml.Written

namespace SchemaEmbed.Yaml

/-!
# Between words and between tokens

The scanner moves a cursor over the text, which counts lines and columns on the way. What stands
between two words of a scalar is read with the same functions in every style, since a line of text
can be folded in most of them.

* `Cursor.advance_advance` — passing characters one after the other;
* `StartsToken` — what stands at the beginning of a token: no blank, break, comment or byte order
  mark;
* `scanGap_spaces` / `scanGap_breaks` — spaces between two words, and the end of a line with the
  indentation of the next.

A break is a single character here: a carriage return cannot be written as it is, and so no break is
made of two.
-/

/-! ### Passing characters

A break is passed with `readBreak`, anything else with `advance`. The first starts a new line, the
second adds to the column, and so no lemma below has to look at what a character is: the field
lemmas say what either does, and a proof about the scanner counts with them.
-/

/-- The breaks that can be written as they are. -/
def IsPlainBreak (b : Char) : Prop := b = '\n' ∨ b = '\u2028' ∨ b = '\u2029'

/-- A break that is printable can be written as it is. -/
theorem isPlainBreak_of_isPrintable {b : Char} (hbreak : isBreak b = true)
    (hprint : isPrintable b = true) : IsPlainBreak b := by
  simp only [isBreak, Bool.or_eq_true, beq_iff_eq] at hbreak
  rcases hbreak with (((rfl | h) | rfl) | h) | h
  · cases hprint
  · exact .inl h
  · cases hprint
  · exact .inr (.inl h)
  · exact .inr (.inr h)

/-- A break that can be written is one. -/
theorem IsPlainBreak.isBreak {b : Char} (h : IsPlainBreak b) : isBreak b = true := by
  rcases h with rfl | rfl | rfl <;> rfl

/-- A break that can be written is no blank. -/
theorem IsPlainBreak.isBlank {b : Char} (h : IsPlainBreak b) : isBlank b = false := by
  rcases h with rfl | rfl | rfl <;> rfl

/-- An indentation is as long as its number of columns. -/
@[simp] theorem length_spaces (n : Nat) : (spaces n).length = n := List.length_replicate

namespace Cursor

variable {c : Cursor}

/-- Characters that are passed are taken off the rest of the text. -/
@[simp] theorem rest_advance (c : Cursor) (n : Nat) : (c.advance n).rest = c.rest.drop n := rfl

/-- Each of them counts in the text. -/
@[simp] theorem index_advance (c : Cursor) (n : Nat) : (c.advance n).index = c.index + n := rfl

/-- Passing characters stays on the line. -/
@[simp] theorem line_advance (c : Cursor) (n : Nat) : (c.advance n).line = c.line := rfl

/-- Each of them counts on the line. -/
@[simp] theorem column_advance (c : Cursor) (n : Nat) : (c.advance n).column = c.column + n := rfl

/-- A break that is passed is taken off the rest of the text. -/
@[simp] theorem rest_nextLine (c : Cursor) (n : Nat) : (c.nextLine n).rest = c.rest.drop n := rfl

/-- The characters of a break count in the text. -/
@[simp] theorem index_nextLine (c : Cursor) (n : Nat) : (c.nextLine n).index = c.index + n := rfl

/-- After a break comes the next line. -/
@[simp] theorem line_nextLine (c : Cursor) (n : Nat) : (c.nextLine n).line = c.line + 1 := rfl

/-- A line begins at column 0. -/
@[simp] theorem column_nextLine (c : Cursor) (n : Nat) : (c.nextLine n).column = 0 := rfl

/-- Passing no character leaves the cursor where it is. -/
@[simp] theorem advance_zero (c : Cursor) : c.advance 0 = c := rfl

/-- Characters are passed one after the other. -/
@[simp] theorem advance_advance (c : Cursor) (m n : Nat) :
    (c.advance m).advance n = c.advance (m + n) := by
  simp [advance, Nat.add_assoc]

/-- A text that has been passed is off the rest. -/
theorem rest_advance_append {s t : List Char} (h : c.rest = s ++ t) :
    (c.advance s.length).rest = t := by
  rw [rest_advance, h, List.drop_left]

/-- Spaces that have been passed are off the rest. -/
theorem rest_advance_spaces {n : Nat} {t : List Char} (h : c.rest = spaces n ++ t) :
    (c.advance n).rest = t := by
  rw [rest_advance, h, List.drop_left' (length_spaces n)]

/-- **A break that can be written** is passed and stands for itself. -/
theorem readBreak_cons {b : Char} {t : List Char} (h : c.rest = b :: t) (hb : IsPlainBreak b) :
    c.readBreak = ([b], c.nextLine 1) := by
  unfold readBreak
  rw [h]
  rcases hb with rfl | rfl | rfl <;> rfl

end Cursor

/-! ### The beginning of a token

What a scalar leaves behind is the indentation of the next line and then a token or the end of the
text. That the token can be told from the indentation is the condition of every lemma on gaps.
-/

/-- Whether a token, or the end of the text, stands at the beginning of a text. -/
def StartsToken (next : List Char) : Prop :=
  ∀ c ∈ next.head?, isSpaceOrBreak c = false ∧ c ≠ '#' ∧ isByteOrderMark c = false

/-- The end of the text stands at the beginning of a token. -/
theorem startsToken_nil : StartsToken [] := fun _ h => by cases h

/-- A character that is neither blank, break, comment nor byte order mark starts a token. -/
theorem startsToken_cons {c : Char}
    (h : isSpaceOrBreak c = false ∧ c ≠ '#' ∧ isByteOrderMark c = false) (s : List Char) :
    StartsToken (c :: s) := by
  intro d hd
  cases hd
  exact h

/-! ### Gaps

A gap is what the scanner has read since the last character of a scalar: the blanks on that line,
its break, and the breaks after it. Folding turns a gap with one break into a space and drops one
break of any longer gap, so blanks count only as long as no break was read.
-/

namespace Gap

/-- A gap with more blanks, which count only before the first break. -/
def addBlanks (g : Gap) (s : List Char) : Gap :=
  if g.breaksLine then g else { g with blanks := g.blanks ++ s }

/-- Blanks are added one after the other. -/
theorem addBlanks_cons (g : Gap) (c : Char) (s : List Char) :
    (g.addBlank c).addBlanks s = g.addBlanks (c :: s) := by
  unfold addBlank addBlanks breaksLine
  cases hg : g.first <;> simp [hg]

/-- No blanks add nothing. -/
theorem addBlanks_nil (g : Gap) : g.addBlanks [] = g := by
  unfold addBlanks
  split <;> simp

end Gap

variable {c : Cursor} {g : Gap} {fuel : Nat}

/-- **Spaces** are passed over, one after the other, up to what is neither a blank nor a break.
    The fuel need only be more than their number: each of them costs one, and one more finds the
    end. -/
theorem scanGap_spaces (indent : Nat) {n : Nat} (hfuel : n < fuel) {next : List Char}
    (hrest : c.rest = spaces n ++ next) (hnext : ∀ x ∈ next.head?, isSpaceOrBreak x = false) :
    scanGap indent fuel g c = .ok (g.addBlanks (spaces n), c.advance n) := by
  induction n generalizing fuel g c with
  | zero =>
    obtain ⟨fuel, rfl⟩ : ∃ k, fuel = k + 1 := ⟨fuel - 1, by omega⟩
    have hend : scanGap indent (fuel + 1) g c = .ok (g, c) := by
      unfold scanGap
      rw [show c.rest = next from hrest]
      cases next with
      | nil => rfl
      | cons x next =>
        have hx := hnext x rfl
        simp only [isSpaceOrBreak, Bool.or_eq_false_iff] at hx
        simp only [hx.1, hx.2, Bool.false_eq_true, ↓reduceIte]
    rw [hend, spaces, List.replicate_zero, Gap.addBlanks_nil, Cursor.advance_zero]
  | succ n ih =>
    obtain ⟨fuel, rfl⟩ : ∃ k, fuel = k + 1 := ⟨fuel - 1, by omega⟩
    have hcons : c.rest = ' ' :: (spaces n ++ next) := hrest
    have hstep : scanGap indent (fuel + 1) g c
        = scanGap indent fuel (g.addBlank ' ') (c.advance 1) := by
      rw [scanGap, hcons]
      -- only a tab could be refused here
      have htab : (g.breaksLine && ' ' == '\t' && decide (c.column < indent)) = false := by simp
      simp only [htab]
      rfl
    have hrest' : (c.advance 1).rest = spaces n ++ next := by
      rw [Cursor.rest_advance, hcons]
      rfl
    rw [hstep, ih (by omega) hrest', Gap.addBlanks_cons, Cursor.advance_advance, Nat.add_comm 1 n]
    rfl

/-- After the first break of a gap, further ones are kept in order. They are what is left of the
    empty lines when the gap is folded. -/
theorem foldl_addBreak {first : List Char} (hfirst : g.first = some first) (bs : List Char) :
    bs.foldl (fun g b => g.addBreak [b]) g = { g with others := g.others ++ bs } := by
  induction bs generalizing g with
  | nil => simp
  | cons b bs ih =>
    have hadd : g.addBreak [b] = { g with others := g.others ++ [b] } := by
      unfold Gap.addBreak
      rw [hfirst]
    rw [List.foldl_cons, hadd, ih (g := { g with others := g.others ++ [b] }) hfirst]
    simp

/-- **Breaks and the spaces after them** are passed over: the gap has the breaks in order, and
    the cursor stands behind the indentation of the last line. The spaces add nothing to the gap,
    as they come after a break. -/
theorem scanGap_breaks (indent : Nat) (bs : List Char) (hbs : ∀ b ∈ bs, IsPlainBreak b)
    (hne : bs ≠ []) {n : Nat} (hfuel : bs.length + n < fuel) {next : List Char}
    (hrest : c.rest = bs ++ (spaces n ++ next))
    (hnext : ∀ x ∈ next.head?, isSpaceOrBreak x = false) :
    scanGap indent fuel g c
      = .ok (bs.foldl (fun g b => g.addBreak [b]) g,
        ⟨next, c.index + bs.length + n, c.line + bs.length, n⟩) := by
  induction bs generalizing fuel g c with
  | nil => exact absurd rfl hne
  | cons b bs ih =>
    obtain ⟨hb, hbs⟩ := List.forall_mem_cons.mp hbs
    obtain ⟨fuel, rfl⟩ : ∃ k, fuel = k + 1 := ⟨fuel - 1, by omega⟩
    have hcons : c.rest = b :: (bs ++ (spaces n ++ next)) := hrest
    have hstep : scanGap indent (fuel + 1) g c
        = scanGap indent fuel (g.addBreak [b]) (c.nextLine 1) := by
      rw [scanGap, hcons]
      simp only [hb.isBlank, hb.isBreak, Cursor.readBreak_cons hcons hb, Bool.false_eq_true,
        ↓reduceIte]
    have hrest' : (c.nextLine 1).rest = bs ++ (spaces n ++ next) := by
      rw [Cursor.rest_nextLine, hcons]
      rfl
    have hlength : (b :: bs).length = bs.length + 1 := rfl
    rw [hlength] at hfuel
    rw [hstep, List.foldl_cons]
    -- after the last break come the spaces, after any other one the next break
    by_cases hnil : bs = []
    · subst hnil
      -- a break was read, so these spaces do not count
      have hkept : (g.addBreak [b]).addBlanks (spaces n) = g.addBreak [b] := by
        unfold Gap.addBlanks Gap.addBreak Gap.breaksLine
        cases g.first <;> rfl
      rw [scanGap_spaces indent (by omega) hrest' hnext, hkept]
      simp [Cursor.advance, Cursor.nextLine, hcons, spaces]
    · rw [ih hbs hnil (by omega) hrest']
      have hindex : (c.nextLine 1).index + bs.length + n = c.index + (bs.length + 1) + n := by
        rw [Cursor.index_nextLine]
        omega
      have hline : (c.nextLine 1).line + bs.length = c.line + (bs.length + 1) := by
        rw [Cursor.line_nextLine]
        omega
      rw [hlength, hindex, hline]

end SchemaEmbed.Yaml
