import SchemaEmbed.Proofs.Outcome
import SchemaEmbed.Proofs.Yaml.Gap

namespace SchemaEmbed.Yaml

/-!
# Plain scalars are read as they were written

A plain scalar has no mark at its ends: it is over where something comes that cannot belong to it.
What belongs to it depends on what is next to it. A colon belongs to it unless it ends a word, and
a number sign unless it begins one. So that a text is read back is a property of every place in it,
and not only of its characters.

* `PlainText` — what a text is that can be written plain, by its traits;
* `PlainWords` — what is left of such a text before one of its words;
* `plainWord_append` — a word is read up to where it stops;
* `scanPlainFrom_text` — the words of such a text are read up to its end;
* `scanPlain_key`, `scanPlain_line` — a plain scalar before a colon, and one at the end of a line.
-/

/-! ### Traits of a plain text

The traits say of the whole text what the reader asks at each of its characters.
-/

/-- What a text is that can be written plain: not empty, of printable characters on one line,
    without a space at either end, and with no indicator where the reader would take it for one. -/
structure PlainText (s : List Char) : Prop where
  ne_nil : s ≠ []
  printable : ∀ c ∈ s, isPrintable c = true
  oneLine : ∀ c ∈ s, isBreak c = false
  head : s.head? ≠ some ' '
  last : s.getLast? ≠ some ' '
  documentMark : startsWithDocumentMark s = false
  start : startsWithIndicator s = false
  inner : hasInnerIndicator s = false

/-- The traits of a text say whether it can be written plain. -/
theorem plainText_of_traits {s : List Char} (hne : s ≠ [])
    (h : (ScalarTraits.of s).plainAllowed = true) : PlainText s := by
  simp only [ScalarTraits.of, Bool.and_eq_true, Bool.not_eq_true', Bool.or_eq_false_iff,
    List.any_eq_false, Bool.not_eq_true] at h
  obtain ⟨⟨⟨⟨⟨⟨hspecial, -⟩, hline⟩, hhead, hlast⟩, hmark⟩, hstart⟩, hinner⟩ := h
  refine ⟨hne, fun c hc => ?_, hline, ?_, ?_, hmark, hstart, hinner⟩
  · have hc' := hspecial c hc
    simpa using hc'
  · rintro heq
    rw [heq] at hhead
    cases hhead
  · rintro heq
    rw [heq] at hlast
    cases hlast

/-- A text with no inner indicator has no colon at the end of a word and no number sign at the
    start of one, but for its first character. -/
theorem inner_at {s pre rest : List Char} {p c : Char} (h : hasInnerIndicator s = false)
    (hs : s = pre ++ p :: c :: rest) :
    (c = ':' → atBoundary rest = false) ∧ (c = '#' → isBoundary p = false) := by
  induction pre generalizing s with
  | nil =>
    subst hs
    simp only [List.nil_append, hasInnerIndicator, Bool.or_eq_false_iff, Bool.and_eq_false_iff,
      beq_eq_false_iff_ne] at h
    exact ⟨fun hc => h.1.1.resolve_left fun hne => hne hc,
      fun hc => h.1.2.resolve_left fun hne => hne hc⟩
  | cons a pre ih =>
    subst hs
    refine ih ?_ rfl
    cases pre with
    | nil =>
      simp only [List.cons_append, List.nil_append, hasInnerIndicator, Bool.or_eq_false_iff] at h ⊢
      exact h.2
    | cons b pre =>
      simp only [List.cons_append, hasInnerIndicator, Bool.or_eq_false_iff] at h
      exact h.2

/-- What begins with something other than a blank or a break does not end the word before it,
    whatever follows. -/
theorem endsWord_append {s : List Char} (h : atBoundary s = false) (t : List Char) :
    endsWord (s ++ t) = false := by
  cases s with
  | nil => cases h
  | cons c s =>
    simp only [atBoundary, isBoundary, Bool.or_eq_false_iff] at h
    exact h.1

/-- A colon in a plain text never ends a word: neither the first character nor a later one. -/
theorem PlainText.colon {s : List Char} (h : PlainText s) {pre rest : List Char}
    (hs : s = pre ++ ':' :: rest) : atBoundary rest = false := by
  rcases List.eq_nil_or_concat pre with rfl | ⟨pre, p, rfl⟩
  · have hstart := h.start
    rw [hs] at hstart
    simp only [List.nil_append, startsWithIndicator, Bool.or_eq_false_iff,
      Bool.and_eq_false_iff] at hstart
    exact hstart.2.resolve_left (by decide)
  · rw [List.concat_eq_append, List.append_assoc] at hs
    exact (inner_at h.inner hs).1 rfl

/-- After a space a plain text does not go on with a number sign, which would begin a comment. -/
theorem PlainText.numberSign {s : List Char} (h : PlainText s) {pre rest : List Char}
    (hs : s = pre ++ ' ' :: rest) : rest.head? ≠ some '#' := by
  intro hhead
  obtain ⟨rest, rfl⟩ := List.head?_eq_some_iff.mp hhead
  have hboundary := (inner_at h.inner hs).2 rfl
  cases hboundary

/-- The only blank or break in a plain text is the space, since a tab is not printable. -/
theorem PlainText.isSpaceOrBreak {s : List Char} (h : PlainText s) {c : Char} (hc : c ∈ s)
    (hne : c ≠ ' ') : isSpaceOrBreak c = false := by
  have hprint := h.printable c hc
  have htab : c ≠ '\t' := by
    rintro rfl
    cases hprint
  simp [Yaml.isSpaceOrBreak, isBlank, h.oneLine c hc, hne, htab]

/-! ### Words

A text is a word, spaces, and more words. It is cut so here for plain scalars, and for those in
double quotes, whose gaps are of spaces too.
-/

/-- Every text begins with a word, the spaces after it, and the rest, which is there only if the
    spaces are. The word may be empty, and then the text begins with a space. -/
theorem exists_word (s : List Char) : ∃ w n rest, s = w ++ (spaces n ++ rest)
    ∧ (∀ c ∈ w, c ≠ ' ') ∧ rest.head? ≠ some ' ' ∧ (n = 0 → rest = []) := by
  refine ⟨s.takeWhile (· != ' '), ((s.dropWhile (· != ' ')).takeWhile (· == ' ')).length,
    (s.dropWhile (· != ' ')).dropWhile (· == ' '), ?_, ?_, ?_, ?_⟩
  · have hspaces : spaces ((s.dropWhile (· != ' ')).takeWhile (· == ' ')).length
        = (s.dropWhile (· != ' ')).takeWhile (· == ' ') := by
      refine (List.eq_replicate_iff.mpr ⟨rfl, fun c hc => ?_⟩).symm
      have hspace := List.all_eq_true.mp List.all_takeWhile c hc
      simpa using hspace
    rw [hspaces, List.takeWhile_append_dropWhile, List.takeWhile_append_dropWhile]
  · intro c hc
    have hne := List.all_eq_true.mp List.all_takeWhile c hc
    simpa using hne
  · intro hhead
    have hnot := List.head?_dropWhile_not (· == ' ') (s.dropWhile (· != ' '))
    rw [hhead] at hnot
    cases hnot
  · -- without a space there is nothing after the word
    intro hlength
    cases hrest : s.dropWhile (· != ' ') with
    | nil => rfl
    | cons c rest =>
      have hnot := List.head?_dropWhile_not (· != ' ') s
      rw [hrest] at hnot hlength
      have hc : c = ' ' := by simpa using hnot
      rw [hc, List.takeWhile_cons] at hlength
      cases hlength

/-! ### Words of a plain text

The reader looks at no more than the next word and what stands right after it, so what it has to
know of a plain text is stated for the rest of the text before any of its words.
-/

/-- What is left of a plain text before one of its words: it neither begins nor ends with a
    space, and at each of its places the reader sees what it should. -/
structure PlainWords (s : List Char) : Prop where
  ne_nil : s ≠ []
  head : s.head? ≠ some ' ' ∧ s.head? ≠ some '#'
  last : s.getLast? ≠ some ' '
  space : ∀ c ∈ s, c ≠ ' ' → isSpaceOrBreak c = false
  colon : ∀ pre rest, s = pre ++ ':' :: rest → atBoundary rest = false
  sign : ∀ pre rest, s = pre ++ ' ' :: rest → rest.head? ≠ some '#'

/-- A plain text stands before its first word. -/
theorem PlainText.words {s : List Char} (h : PlainText s) : PlainWords s where
  ne_nil := h.ne_nil
  head := by
    refine ⟨h.head, fun heq => ?_⟩
    obtain ⟨rest, rfl⟩ := List.head?_eq_some_iff.mp heq
    cases h.start
  last := h.last
  space := fun c hc hne => h.isSpaceOrBreak hc hne
  colon := fun _ _ hs => h.colon hs
  sign := fun _ _ hs => h.numberSign hs

namespace PlainWords

variable {w rest : List Char} {n : Nat}

/-- The word before which it stands is there. -/
theorem word_ne_nil (h : PlainWords (w ++ (spaces n ++ rest))) (hnil : n = 0 → rest = []) :
    w ≠ [] := by
  rintro rfl
  cases n with
  | zero => exact h.ne_nil (by simp [hnil rfl, spaces])
  | succ n => exact h.head.1 rfl

/-- After the spaces something is left, since a plain text does not end with a space. -/
theorem rest_ne_nil (h : PlainWords (w ++ (spaces (n + 1) ++ rest))) : rest ≠ [] := by
  rintro rfl
  apply h.last
  have hsnoc : w ++ (spaces (n + 1) ++ []) = (w ++ spaces n) ++ [' '] := by
    simp [spaces, List.replicate_succ']
  rw [hsnoc, List.getLast?_concat]

/-- What is left after a word and the spaces stands before a word again. -/
theorem next (h : PlainWords (w ++ (spaces (n + 1) ++ rest))) (hhead : rest.head? ≠ some ' ') :
    PlainWords rest := by
  have hspaced {pre r : List Char} (heq : rest = pre ++ r) :
      w ++ (spaces (n + 1) ++ rest) = (w ++ spaces (n + 1) ++ pre) ++ r := by
    rw [heq]
    simp
  refine ⟨h.rest_ne_nil, ⟨hhead, ?_⟩, fun heq => h.last ?_, fun c hc => h.space c (by simp [hc]),
    fun pre r heq => h.colon _ r (hspaced heq), fun pre r heq => h.sign _ r (hspaced heq)⟩
  · refine h.sign (w ++ spaces n) rest ?_
    simp [spaces, List.replicate_succ']
  · obtain ⟨init, rfl⟩ := List.getLast?_eq_some_iff.mp heq
    rw [hspaced rfl, List.getLast?_concat]

end PlainWords

/-- What ends a plain scalar or one of its words: nothing more, a blank or break, or a colon at
    the end of a word. -/
def StopsPlain : List Char → Prop
  | [] => True
  | c :: rest => isSpaceOrBreak c = true ∨ (c = ':' ∧ endsWord rest = true)

/-- **A word of a plain scalar** is read up to where it stops. Its own colons do not stop it, as
    none of them ends a word. -/
theorem plainWord_append {w t : List Char} (hw : ∀ c ∈ w, isSpaceOrBreak c = false)
    (hcolon : ∀ pre rest, w = pre ++ ':' :: rest → endsWord (rest ++ t) = false)
    (ht : StopsPlain t) : plainWord false (w ++ t) = some w.length := by
  induction w with
  | nil =>
    cases t with
    | nil => rfl
    | cons c t =>
      unfold plainWord
      rcases ht with ht | ⟨hc, ht⟩
      · simp [ht]
      · simp [hc, ht]
  | cons c w ih =>
    obtain ⟨hc, hw⟩ := List.forall_mem_cons.mp hw
    have hword := ih hw fun pre rest heq => hcolon (c :: pre) rest (by rw [heq]; rfl)
    have hends : (c == ':' && endsWord (w ++ t)) = false := by
      by_cases heq : c = ':'
      · rw [hcolon [] w (by rw [heq]; rfl), Bool.and_false]
      · simp [heq]
    rw [List.cons_append, plainWord, hc, hends, hword]
    rfl

/-! ### Scalars

The reader of a plain scalar goes on as long as a word follows a gap in the same line. Where the
gap has a break, the column of the next line decides whether the scalar goes on there; what follows
a written scalar is always outside of it.
-/

/-- What is done after a word of a plain scalar: the gap is passed, and the next word is read
    unless it is not as deep as the scalar. -/
def afterWord (indent fuel : Nat) (text : List Char) (c : Cursor) :
    Except SyntaxError (List Char × Bool × Cursor) := do
  let (g, c) ← scanGap indent (c.rest.length + 1) Gap.none c
  if c.column < indent then return (text, g.breaksLine, c)
  else scanPlainFrom false indent fuel text g c

/-- One word of a plain scalar is read, and the gap before it is folded into the text. -/
theorem scanPlainFrom_word {indent fuel : Nat} {text : List Char} {g : Gap} {c : Cursor}
    {w t : List Char} (hrest : c.rest = w ++ t) (hmark : c.atDocumentIndicator = false)
    (hhead : w.head? ≠ some '#') (hne : w ≠ []) (hword : plainWord false (w ++ t) = some w.length) :
    scanPlainFrom false indent (fuel + 1) text g c
      = afterWord indent fuel (text ++ g.folded ++ w) (c.advance w.length) := by
  obtain ⟨a, w, rfl⟩ := List.exists_cons_of_ne_nil hne
  have hsees : c.sees '#' = false := by
    rw [Cursor.sees, hrest]
    simpa using hhead
  have htake : c.rest.take (a :: w).length = a :: w := by rw [hrest, List.take_left]
  rw [← hrest] at hword
  unfold scanPlainFrom
  rw [hmark, hsees, hword]
  simp only [List.length_cons, Bool.or_self, Bool.false_eq_true, ↓reduceIte, not_false_eq_true,
    true_and]
  rw [List.length_cons] at htake
  rw [htake]
  rfl

/-- After spaces within the line the next word is read, with the spaces as its gap. -/
theorem afterWord_spaces {indent n : Nat} (fuel : Nat) (text : List Char) {c : Cursor}
    {next : List Char} (hrest : c.rest = spaces (n + 1) ++ next)
    (hnext : ∀ x ∈ next.head?, isSpaceOrBreak x = false) (hcolumn : indent ≤ c.column + 1) :
    afterWord indent fuel text c = scanPlainFrom false indent fuel text
      (Gap.none.addBlanks (spaces (n + 1))) (c.advance (n + 1)) := by
  have hgap : scanGap indent (c.rest.length + 1) Gap.none c
      = .ok (Gap.none.addBlanks (spaces (n + 1)), c.advance (n + 1)) := by
    refine scanGap_spaces indent ?_ hrest hnext
    rw [hrest, List.length_append, length_spaces]
    omega
  have hleft : ¬ (c.advance (n + 1)).column < indent := by
    rw [Cursor.column_advance]
    omega
  unfold afterWord
  rw [hgap]
  exact if_neg hleft

/-- **The words of a plain text** are read up to its end, by induction on the length of what is
    left. After the last word the reader looks for another one. -/
theorem scanPlainFrom_text {indent fuel : Nat} {text : List Char} {g : Gap} {c : Cursor}
    {s t : List Char} (hs : PlainWords s) (hfuel : s.length ≤ fuel) (hrest : c.rest = s ++ t)
    (hmark : c.atDocumentIndicator = false) (hcolumn : indent ≤ c.column + 1)
    (ht : StopsPlain t) :
    ∃ left, scanPlainFrom false indent fuel text g c
      = afterWord indent left (text ++ g.folded ++ s) (c.advance s.length) := by
  induction hlength : s.length using Nat.strongRecOn generalizing s fuel text g c with
  | ind length ih =>
    subst hlength
    obtain ⟨w, n, rest, rfl, hw, hnext, hnil⟩ := exists_word s
    have hwne := hs.word_ne_nil hnil
    have hwhead : w.head? ≠ some '#' := by
      obtain ⟨a, w, rfl⟩ := List.exists_cons_of_ne_nil hwne
      exact hs.head.2
    have hwspace (a : Char) (ha : a ∈ w) : isSpaceOrBreak a = false :=
      hs.space a (List.mem_append_left _ ha) (hw a ha)
    have hpos := List.length_pos_iff.mpr hwne
    have hsum : (w ++ (spaces n ++ rest)).length = w.length + (n + rest.length) := by simp [spaces]
    rw [hsum] at hfuel ⊢
    obtain ⟨fuel, rfl⟩ : ∃ k, fuel = k + 1 := ⟨fuel - 1, by omega⟩
    have hrest' : c.rest = w ++ (spaces n ++ rest ++ t) := by rw [hrest, List.append_assoc]
    -- a colon of the word does not end it, in the text and so in front of more text
    have hwcolon (pre r : List Char) (heq : w = pre ++ ':' :: r) :
        endsWord (r ++ (spaces n ++ rest ++ t)) = false := by
      rw [← List.append_assoc]
      exact endsWord_append (hs.colon pre (r ++ (spaces n ++ rest)) (by simp [heq])) t
    cases n with
    | zero =>
      have hrestnil := hnil rfl
      subst hrestnil
      rw [scanPlainFrom_word hrest' hmark hwhead hwne
        (plainWord_append hwspace hwcolon (by simpa [spaces] using ht))]
      exact ⟨fuel, by simp [spaces]⟩
    | succ n =>
      have hstop : StopsPlain (spaces (n + 1) ++ rest ++ t) := .inl rfl
      have hafter : (c.advance w.length).rest = spaces (n + 1) ++ (rest ++ t) := by
        rw [Cursor.rest_advance_append hrest', List.append_assoc]
      have hword : ∀ x ∈ (rest ++ t).head?, isSpaceOrBreak x = false := by
        obtain ⟨a, rest, rfl⟩ := List.exists_cons_of_ne_nil hs.rest_ne_nil
        rintro x ⟨⟩
        exact hs.space a (by simp) (by simpa using hnext)
      rw [scanPlainFrom_word hrest' hmark hwhead hwne (plainWord_append hwspace hwcolon hstop),
        afterWord_spaces fuel _ hafter hword (by rw [Cursor.column_advance]; omega)]
      -- the words after the spaces are read in turn
      have hmark' : ((c.advance w.length).advance (n + 1)).atDocumentIndicator = false := by
        simp [Cursor.atDocumentIndicator]
      have hcolumn' : indent ≤ ((c.advance w.length).advance (n + 1)).column + 1 := by
        rw [Cursor.column_advance, Cursor.column_advance]
        omega
      have hfuel' : rest.length ≤ fuel := by omega
      obtain ⟨left, hleft⟩ := ih rest.length (by omega) (hs.next hnext) hfuel'
        (Cursor.rest_advance_spaces hafter) hmark' hcolumn' rfl
      refine ⟨left, ?_⟩
      have hfolded : (Gap.none.addBlanks (spaces (n + 1))).folded = spaces (n + 1) := rfl
      rw [hleft, Cursor.advance_advance, Cursor.advance_advance, hfolded]
      congr 1
      simp

/-- A plain text never begins like a line between documents, whatever follows it. So it can be
    written in the first column. -/
theorem PlainText.not_documentIndicator {s t : List Char} (h : PlainText s) (ht : StopsPlain t) :
    isDocumentIndicator (s ++ t) = false := by
  have hmark := h.documentMark
  -- neither mark begins with what stops a plain text
  have hnot (m : Char) (hm : m = '-' ∨ m = '.') (rest : List Char) :
      s ++ t ≠ m :: m :: m :: rest := by
    have hhead (r : List Char) : t ≠ m :: r := by
      rintro rfl
      rcases hm with rfl | rfl
      · exact ht.elim (fun hm => by cases hm) fun hm => by cases hm.1
      · exact ht.elim (fun hm => by cases hm) fun hm => by cases hm.1
    intro heq
    -- the text may be shorter than the mark, and the rest of the mark would begin what follows
    rcases s with _ | ⟨a, _ | ⟨b, _ | ⟨d, s⟩⟩⟩
    · exact h.ne_nil rfl
    · exact hhead _ (List.cons.inj heq).2
    · exact hhead _ (List.cons.inj (List.cons.inj heq).2).2
    · obtain ⟨rfl, heq⟩ := List.cons.inj heq
      obtain ⟨rfl, heq⟩ := List.cons.inj heq
      obtain ⟨rfl, -⟩ := List.cons.inj heq
      rcases hm with rfl | rfl <;> cases hmark
  unfold isDocumentIndicator
  split
  · next rest heq => exact absurd heq (hnot '-' (.inl rfl) rest)
  · next rest heq => exact absurd heq (hnot '.' (.inr rfl) rest)
  · rfl

/-- Nothing more is read where a plain scalar stops. -/
theorem scanPlainFrom_stop {indent : Nat} (fuel : Nat) {text : List Char} {g : Gap} {c : Cursor}
    (hstop : StopsPlain c.rest) :
    scanPlainFrom false indent fuel text g c = .ok (text, g.breaksLine, c) := by
  cases fuel with
  | zero => rfl
  | succ fuel =>
    have hword : plainWord false ([] ++ c.rest) = some 0 :=
      plainWord_append (by simp) (by simp) hstop
    rw [List.nil_append] at hword
    unfold scanPlainFrom
    split
    · rfl
    · rw [hword]
      rfl

/-- **A plain scalar before a colon** that ends a word is read up to the colon. -/
theorem scanPlain_key {indent : Nat} {c : Cursor} {s t : List Char} (hs : PlainText s)
    (hrest : c.rest = s ++ ':' :: t) (ht : endsWord t = true) (hcolumn : indent ≤ c.column + 1) :
    scanPlain false indent c = .ok (s, false, c.advance s.length) := by
  have hstop : StopsPlain (':' :: t) := .inr ⟨rfl, ht⟩
  have hmark : c.atDocumentIndicator = false := by
    rw [Cursor.atDocumentIndicator, hrest, hs.not_documentIndicator hstop, Bool.and_false]
  have hafter := Cursor.rest_advance_append hrest
  obtain ⟨left, hleft⟩ : ∃ left, scanPlainFrom false indent (c.rest.length + 1) [] Gap.none c
      = afterWord indent left s (c.advance s.length) :=
    scanPlainFrom_text hs.words (by rw [hrest]; simp; omega) hrest hmark hcolumn hstop
  have hgap : scanGap indent ((c.advance s.length).rest.length + 1) Gap.none (c.advance s.length)
      = .ok (Gap.none, c.advance s.length) :=
    scanGap_spaces (n := 0) indent (Nat.succ_pos _) hafter (by rintro x ⟨⟩; rfl)
  unfold scanPlain
  rw [hleft]
  unfold afterWord
  rw [hgap, ok_bind]
  dsimp only
  split
  · rfl
  · exact scanPlainFrom_stop left (by rw [hafter]; exact hstop)

/-- **A plain scalar at the end of a line** is read up to the next token, if that is outside
    of what the scalar belongs to. -/
theorem scanPlain_line {indent : Nat} {c : Cursor} {s next : List Char} {n : Nat}
    (hs : PlainText s) (hrest : c.rest = s ++ '\n' :: (spaces n ++ next)) (hnext : StartsToken next)
    (hindent : next = [] ∨ n < indent) (hcolumn : indent ≤ c.column + 1) :
    scanPlain false indent c
      = .ok (s, true, ⟨next, c.index + s.length + 1 + n, c.line + 1, n⟩) := by
  have hstop : StopsPlain ('\n' :: (spaces n ++ next)) := .inl rfl
  have hmark : c.atDocumentIndicator = false := by
    rw [Cursor.atDocumentIndicator, hrest, hs.not_documentIndicator hstop, Bool.and_false]
  have hafter := Cursor.rest_advance_append hrest
  obtain ⟨left, hleft⟩ : ∃ left, scanPlainFrom false indent (c.rest.length + 1) [] Gap.none c
      = afterWord indent left s (c.advance s.length) :=
    scanPlainFrom_text hs.words (by rw [hrest]; simp; omega) hrest hmark hcolumn hstop
  have hgap : scanGap indent ((c.advance s.length).rest.length + 1) Gap.none (c.advance s.length)
      = .ok (Gap.none.addBreak ['\n'], ⟨next, c.index + s.length + 1 + n, c.line + 1, n⟩) :=
    scanGap_breaks indent ['\n'] (by simp [IsPlainBreak]) (by simp)
      (by rw [hafter]; simp [spaces]; omega) hafter fun x hx => (hnext x hx).1
  unfold scanPlain
  rw [hleft]
  unfold afterWord
  rw [hgap, ok_bind]
  dsimp only
  split
  · rfl
  · next hleft =>
    -- only the end of the text is not outside
    have hnil : next = [] := hindent.resolve_right hleft
    subst hnil
    exact scanPlainFrom_stop left trivial

end SchemaEmbed.Yaml
