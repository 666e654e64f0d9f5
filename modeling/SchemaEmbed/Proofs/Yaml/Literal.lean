import SchemaEmbed.Proofs.Yaml.Quoted
import SchemaEmbed.Yaml.Printer

namespace SchemaEmbed.Yaml

/-!
# Literal scalars are read as they were written

A text with a line feed is written in literal style: a header, and then the lines of the text,
indented where they have something in them. The scanner reads these lines back, but it has to find
three things that are not written as such:

* the **indentation**, which is that of the first line with something in it, unless the header
  gives its width;
* the **end** of the scalar, which is where a line is not indented by as much;
* the **breaks** at the end, of which the mark in the header tells how many belong to the text.

The text is cut into `Rows`, each of them a line, its break and the empty lines after it, as the
scanner reads it:

* `blockBreaks_rows` — empty lines are read up to a line with something in it, or to the end;
* `blockLines_rows` — all rows are read, by induction on the cut;
* `chomped_eq` — what is given back of the breaks at the end is what the text has;
* `scanBlock_literal` — a text in literal style is read as it is, up to the next token.
-/

/-! ### Lines

What `literalBody` writes for the parts of a text: empty lines are written as they are, and the
indentation of a line comes before its first character.
-/

/-- Empty lines are written as they are, without indentation. -/
theorem literalBody_breaks (indent : Nat) {bs : List Char} (hbs : ∀ b ∈ bs, isBreak b = true)
    (t : List Char) : literalBody indent true (bs ++ t) = bs ++ literalBody indent true t := by
  induction bs with
  | nil => rfl
  | cons b bs ih =>
    obtain ⟨hb, hbs⟩ := List.forall_mem_cons.mp hbs
    rw [List.cons_append, literalBody, if_pos hb, ih hbs]
    rfl

/-- The rest of a line and the break after it are written as they are. -/
theorem literalBody_line (indent : Nat) {line : List Char} (hline : ∀ c ∈ line, isBreak c = false)
    {b : Char} (hb : isBreak b = true) (t : List Char) :
    literalBody indent false (line ++ b :: t) = line ++ b :: literalBody indent true t := by
  induction line with
  | nil => rw [List.nil_append, literalBody, if_pos hb]; rfl
  | cons c line ih =>
    obtain ⟨hc, hline⟩ := List.forall_mem_cons.mp hline
    rw [List.cons_append, literalBody, hc, ih hline]
    rfl

/-- A line with something in it is indented, so the spaces at its head are those of the
    indentation and then its own. -/
theorem literalBody_indented (indent : Nat) {c : Char} (hc : isBreak c = false) (t : List Char) :
    literalBody indent true (c :: t) = spaces indent ++ literalBody indent false (c :: t) := by
  rw [literalBody, literalBody, hc]
  simp

section Reading

variable {indent k : Nat} {next : List Char}

/-! ### Empty lines

Below, `next` is the token that comes after the scalar, in column `k`, and the lines of the scalar
are indented by more. Empty lines may be followed by either of the two, and the scanner passes the
spaces of whichever it is.
-/

/-- What stands where the empty lines before `rest` have been passed: the next line with
    something in it, or what comes after the scalar. -/
def afterBreaks (indent k : Nat) (next : List Char) (rest : List Char) : List Char :=
  if rest.isEmpty then next else literalBody indent false rest ++ (spaces k ++ next)

/-- The column in which the empty lines before `rest` have been passed: that of the lines, or
    that of what comes after the scalar. -/
def columnAfterBreaks (indent k : Nat) (rest : List Char) : Nat :=
  if rest.isEmpty then k else indent

/-- As many spaces are counted at the head of a text as were put there, if no other space
    follows. -/
theorem takeWhile_spaces (n : Nat) {t : List Char} (ht : t.head? ≠ some ' ') :
    ((spaces n ++ t).takeWhile (· == ' ')).length = n := by
  have hspaces : ∀ a ∈ spaces n, (a == ' ') = true := fun a ha => by
    rw [List.eq_of_mem_replicate ha]
    rfl
  have hstop : t.takeWhile (· == ' ') = [] := by
    cases t with
    | nil => rfl
    | cons a t =>
      have ha : (a == ' ') = false := by simpa using ht
      rw [List.takeWhile_cons, ha]
      rfl
  rw [List.takeWhile_append_of_pos hspaces, hstop, List.append_nil, length_spaces]

/-- Reading empty lines ends where something else stands behind the indentation: neither a break
    nor, where indentation is still missing, a tab. -/
theorem blockBreaks_stop {c : Cursor} {n : Nat} (hpositive : 0 < indent)
    (hspaces : min (c.rest.takeWhile (· == ' ')).length (indent - c.column) = n)
    (htab : c.column + n < indent → (c.advance n).rest.head? ≠ some '\t')
    (hbreak : ∀ a ∈ (c.advance n).rest.head?, isBreak a = false) (fuel widest : Nat)
    (breaks : List Char) :
    blockBreaks indent (fuel + 1) widest breaks c
      = .ok (max widest (c.column + n), breaks, c.advance n) := by
  have hne : indent ≠ 0 := by omega
  have htab' : ¬ ((indent = 0 ∨ (c.advance n).column < indent)
      ∧ (c.advance n).sees '\t' = true) := by
    rintro ⟨hlt, hsees⟩
    exact htab (hlt.resolve_left hne) (by simpa [Cursor.sees] using hsees)
  have hbreak' : ((c.advance n).rest.head?.any isBreak) = false := by
    cases hhead : (c.advance n).rest.head? with
    | none => rfl
    | some a => exact hbreak a hhead
  rw [blockBreaks]
  simp only [hne, ↓reduceIte, hspaces]
  rw [if_neg (by simpa [hne] using htab'), hbreak']
  rfl

/-- At the end of the scalar the spaces of the next line are passed, which are fewer than those
    of a line of the scalar. -/
theorem blockBreaks_end (hindent : k < indent) (hnext : StartsToken next) (fuel widest : Nat)
    (breaks : List Char) {c : Cursor} (hc : c.rest = spaces k ++ next) (hcolumn : c.column = 0) :
    blockBreaks indent (fuel + 1) widest breaks c
      = .ok (max widest (c.column + k), breaks, c.advance k) := by
  have hhead : next.head? ≠ some ' ' := by
    intro hhead
    have hspace := (hnext ' ' hhead).1
    cases hspace
  have hafter : (c.advance k).rest = next := Cursor.rest_advance_spaces hc
  refine blockBreaks_stop (by omega) (n := k) ?_ ?_ ?_ fuel widest breaks
  · rw [hc, takeWhile_spaces k hhead, hcolumn]
    omega
  · rw [hafter]
    intro _ htab
    have hblank := (hnext '\t' htab).1
    cases hblank
  · rw [hafter]
    exact fun a ha => (Bool.or_eq_false_iff.mp (hnext a ha).1).2

/-- Before a line with something in it the spaces of its indentation are passed, and no more,
    since others belong to the text. -/
theorem blockBreaks_line (hindent : 0 < indent) (fuel widest : Nat) (breaks : List Char)
    {c : Cursor} {t : List Char} (hc : c.rest = spaces indent ++ t) (hcolumn : c.column = 0)
    (ht : ∀ a ∈ t.head?, isBreak a = false) :
    blockBreaks indent (fuel + 1) widest breaks c
      = .ok (max widest (c.column + indent), breaks, c.advance indent) := by
  have hspaces : ∀ x ∈ spaces indent, (x == ' ') = true := fun x hx => by
    rw [List.eq_of_mem_replicate hx]
    rfl
  refine blockBreaks_stop hindent (n := indent) ?_ ?_ ?_ fuel widest breaks
  · rw [hc, List.takeWhile_append_of_pos hspaces, List.length_append, length_spaces, hcolumn]
    omega
  · rw [hcolumn]
    omega
  · rw [Cursor.rest_advance_spaces hc]
    exact ht

/-- One empty line is read, and its break is added to the others. -/
theorem blockBreaks_empty {b : Char} (hb : IsPlainBreak b) (fuel widest : Nat)
    (breaks : List Char) {c : Cursor} {t : List Char} (hc : c.rest = b :: t) :
    blockBreaks indent (fuel + 1) widest breaks c
      = blockBreaks indent fuel (max widest c.column) (breaks ++ [b]) (c.nextLine 1) := by
  have hb' : b ≠ ' ' ∧ b ≠ '\t' := by
    constructor <;> rintro rfl <;> cases hb.isBreak
  have hspaces : c.rest.takeWhile (· == ' ') = [] := by
    rw [hc, List.takeWhile_cons, beq_eq_false_iff_ne.mpr hb'.1]
    rfl
  have hsees : c.sees '\t' = false := by
    rw [Cursor.sees, hc]
    simpa using hb'.2
  have hbreak : (c.rest.head?.any isBreak) = true := by
    rw [hc]
    exact hb.isBreak
  rw [blockBreaks]
  simp only [hspaces, List.length_nil, Nat.zero_min, ite_self, Cursor.advance_zero, hsees, hbreak,
    Cursor.readBreak_cons hc hb, Bool.false_eq_true, and_false, ↓reduceIte]

/-- **Empty lines** are read up to a line with something in it or the end of the scalar. The
    scanner comes to the first column that is not indentation. -/
theorem blockBreaks_rows (hindent : k < indent) (hnext : StartsToken next) {bs rest : List Char}
    (hbs : ∀ b ∈ bs, IsPlainBreak b) (hrest : ∀ c ∈ rest.head?, isBreak c = false)
    {fuel widest : Nat} {breaks : List Char} {c : Cursor} (hfuel : bs.length < fuel)
    (hc : c.rest = literalBody indent true (bs ++ rest) ++ (spaces k ++ next))
    (hcolumn : c.column = 0) :
    ∃ widest' c', blockBreaks indent fuel widest breaks c = .ok (widest', breaks ++ bs, c')
      ∧ c'.rest = afterBreaks indent k next rest
      ∧ c'.column = columnAfterBreaks indent k rest := by
  obtain ⟨fuel, rfl⟩ : ∃ k, fuel = k + 1 := ⟨fuel - 1, by omega⟩
  induction bs generalizing fuel widest breaks c with
  | nil =>
    rw [List.nil_append] at hc
    rw [List.append_nil]
    cases rest with
    | nil =>
      have hc' : c.rest = spaces k ++ next := hc
      refine ⟨_, _, blockBreaks_end hindent hnext fuel widest breaks hc' hcolumn,
        Cursor.rest_advance_spaces hc', ?_⟩
      rw [Cursor.column_advance, hcolumn, Nat.zero_add]
      rfl
    | cons a rest =>
      have ha := hrest a rfl
      have hc' : c.rest = spaces indent
          ++ (literalBody indent false (a :: rest) ++ (spaces k ++ next)) := by
        rw [hc, literalBody_indented indent ha, List.append_assoc]
      have hhead : ∀ x ∈ (literalBody indent false (a :: rest) ++ (spaces k ++ next)).head?,
          isBreak x = false := by
        rw [literalBody, ha]
        rintro x ⟨⟩
        exact ha
      refine ⟨_, _, blockBreaks_line (by omega) fuel widest breaks hc' hcolumn hhead,
        Cursor.rest_advance_spaces hc', ?_⟩
      rw [Cursor.column_advance, hcolumn, Nat.zero_add]
      rfl
  | cons b bs ih =>
    obtain ⟨hb, hbs⟩ := List.forall_mem_cons.mp hbs
    obtain ⟨fuel, rfl⟩ : ∃ k, fuel = k + 1 := ⟨fuel - 1, by simp at hfuel; omega⟩
    have hcons : c.rest = b :: (literalBody indent true (bs ++ rest) ++ (spaces k ++ next)) := by
      rw [hc, List.cons_append, literalBody, if_pos hb.isBreak]
      rfl
    have hline : (c.nextLine 1).rest
        = literalBody indent true (bs ++ rest) ++ (spaces k ++ next) := by
      rw [Cursor.rest_nextLine, hcons]
      rfl
    obtain ⟨widest', c', hread, hafter⟩ := @ih hbs (max widest c.column) (breaks ++ [b])
      (c.nextLine 1) hline rfl fuel (by simpa using hfuel)
    refine ⟨widest', c', ?_, hafter⟩
    rw [blockBreaks_empty hb _ widest breaks hcons, hread]
    simp

/-- Whether a block scalar has been read up to the breaks after a line with something in it. Then
    the break after that line and those of the empty lines are kept apart. -/
structure BlockText.AfterLine (b : BlockText) : Prop where
  text : ∃ init a, b.text = init ++ [a] ∧ isBreak a = false
  last : ∃ x, b.last = [x] ∧ isBreak x = true
  empty : ∀ x ∈ b.empty, isBreak x = true

/-- All that has been read of a block scalar, with every break. -/
def BlockText.all (b : BlockText) : List Char := b.text ++ b.last ++ b.empty

/-- One line of a literal scalar and the empty lines after it are read. What was read before is
    followed by the line as it is, since a literal scalar joins no lines. -/
theorem blockLines_line (hindent : k < indent) (hnext : StartsToken next) {line bs rest : List Char}
    {x : Char} (hline : ∀ a ∈ line, isBreak a = false) (hx : IsPlainBreak x)
    (hbs : ∀ b ∈ bs, IsPlainBreak b) (hrest : ∀ a ∈ rest.head?, isBreak a = false) (fuel : Nat)
    (b : BlockText) {c : Cursor}
    (hc : c.rest = literalBody indent false (line ++ x :: (bs ++ rest)) ++ (spaces k ++ next))
    (hcolumn : c.column = indent) :
    ∃ blank c', blockLines true indent (fuel + 1) b c
        = blockLines true indent fuel ⟨b.all ++ line, [x], bs, blank⟩ c'
      ∧ c'.rest = afterBreaks indent k next rest ∧ c'.column = columnAfterBreaks indent k rest := by
  have hc' : c.rest
      = line ++ x :: (literalBody indent true (bs ++ rest) ++ (spaces k ++ next)) := by
    rw [hc, literalBody_line indent hline hx.isBreak]
    simp
  have hafter := Cursor.rest_advance_append hc'
  have htake : c.rest.takeWhile (! isBreak ·) = line := by
    have hall : ∀ a ∈ line, (! isBreak a) = true := fun a ha => by rw [hline a ha]; rfl
    rw [hc', List.takeWhile_append_of_pos hall, List.takeWhile_cons, hx.isBreak]
    simp
  have hempty : c.rest.isEmpty = false := by
    rw [hc']
    simp
  have hread : ((c.advance line.length).nextLine 1).rest
      = literalBody indent true (bs ++ rest) ++ (spaces k ++ next) := by
    rw [Cursor.rest_nextLine, hafter]
    rfl
  have hfuel : bs.length < ((c.advance line.length).nextLine 1).rest.length + 1 := by
    rw [hread, literalBody_breaks indent fun a ha => (hbs a ha).isBreak]
    simp only [List.length_append]
    omega
  obtain ⟨widest, c', hbreaks, hrest', hcolumn'⟩ : ∃ widest c',
      blockBreaks indent (((c.advance line.length).nextLine 1).rest.length + 1) 0 []
        ((c.advance line.length).nextLine 1) = .ok (widest, bs, c')
      ∧ c'.rest = afterBreaks indent k next rest ∧ c'.column = columnAfterBreaks indent k rest :=
    blockBreaks_rows hindent hnext hbs hrest hfuel hread rfl
  refine ⟨c.rest.head?.any isBlank, c', ?_, hrest', hcolumn'⟩
  rw [blockLines, if_pos ⟨hcolumn, by rw [hempty]; decide⟩]
  simp only [htake, Cursor.readBreak_cons hafter hx, hbreaks]
  -- in a literal scalar nothing is folded
  have hjoined (blank : Bool) : b.joined true blank = b.all := by
    simp [BlockText.joined, BlockText.all]
  rw [hjoined]
  rfl

/-- A text cut into rows: a line with something in it, the break after it, and the empty lines
    that follow. This is how the scanner goes through it. -/
inductive Rows : List Char → Prop where
  | nil : Rows []
  | row {line bs rest : List Char} {x : Char} (hne : line ≠ [])
    (hline : ∀ a ∈ line, isBreak a = false) (hx : IsPlainBreak x) (hbs : ∀ b ∈ bs, IsPlainBreak b)
    (hrest : ∀ a ∈ rest.head?, isBreak a = false) (h : Rows rest) :
    Rows (line ++ x :: (bs ++ rest))

/-- A text that does not begin with an empty line and ends with a break can be cut into rows. -/
theorem rows_of_ends {s : List Char} (hplain : ∀ a ∈ s, isBreak a = true → IsPlainBreak a)
    (hhead : ∀ a ∈ s.head?, isBreak a = false) (hlast : ∀ a ∈ s.getLast?, isBreak a = true) :
    Rows s := by
  induction hlength : s.length using Nat.strongRecOn generalizing s with
  | ind length ih =>
    subst hlength
    by_cases hnil : s = []
    · subst hnil
      exact .nil
    · -- the first line goes up to the first break, and the empty lines up to something else
      obtain ⟨line, t, rfl, hline, ht⟩ := exists_span (! isBreak ·) s
      have hline' : ∀ a ∈ line, isBreak a = false := fun a ha => by simpa using hline a ha
      have hne : line ≠ [] := by
        rintro rfl
        obtain ⟨a, t, rfl⟩ := List.exists_cons_of_ne_nil hnil
        have hbreak := ht a rfl
        rw [hhead a rfl] at hbreak
        cases hbreak
      cases t with
      | nil =>
        -- the text ends with a break, so the first line does not reach up to its end
        obtain ⟨init, z, rfl⟩ := (List.eq_nil_or_concat line).resolve_left hne
        have hbreak := hlast z (by simp)
        rw [hline' z (by simp)] at hbreak
        cases hbreak
      | cons x t =>
        have hx : IsPlainBreak x := hplain x (by simp) (by simpa using ht x rfl)
        obtain ⟨bs, rest, rfl, hbs, hrest⟩ := exists_span isBreak t
        have hlt : rest.length < (line ++ x :: (bs ++ rest)).length := by
          simp only [List.length_append, List.length_cons]
          omega
        refine .row hne hline' hx (fun a ha => hplain a (by simp [ha]) (hbs a ha)) hrest
          (ih rest.length hlt (fun a ha => hplain a (by simp [ha])) hrest (fun a ha => ?_) rfl)
        obtain ⟨start, rfl⟩ := List.getLast?_eq_some_iff.mp ha
        refine hlast a ?_
        have hsnoc : line ++ x :: (bs ++ (start ++ [a]))
            = (line ++ x :: (bs ++ start)) ++ [a] := by
          simp
        rw [hsnoc, List.getLast?_concat]
        rfl

/-- A block scalar of which a row was read last has been read up to the breaks after a line with
    something in it. -/
theorem BlockText.afterLine_of_line (read : List Char) {line bs : List Char} {x : Char}
    (hne : line ≠ []) (hline : ∀ a ∈ line, isBreak a = false) (hx : isBreak x = true)
    (hbs : ∀ b ∈ bs, isBreak b = true) (blank : Bool) :
    BlockText.AfterLine ⟨read ++ line, [x], bs, blank⟩ := by
  obtain ⟨init, z, rfl⟩ := (List.eq_nil_or_concat line).resolve_left hne
  rw [List.concat_eq_append] at hline ⊢
  exact ⟨⟨read ++ init, z, (List.append_assoc ..).symm, hline z (by simp)⟩, ⟨x, rfl, hx⟩, hbs⟩

/-- **The lines of a literal scalar** are read up to its end, row by row. Where there was any
    row, or one was read before, the breaks at the end are kept apart. -/
theorem blockLines_rows (hindent : k < indent) (hnext : StartsToken next) {rest : List Char}
    (hrows : Rows rest) {fuel : Nat} (hfuel : rest.length < fuel) {b : BlockText} {c : Cursor}
    (hc : c.rest = afterBreaks indent k next rest)
    (hcolumn : c.column = columnAfterBreaks indent k rest) :
    ∃ b' c', blockLines true indent fuel b c = .ok (b', c') ∧ c'.rest = next ∧ c'.column = k
      ∧ b'.all = b.all ++ rest ∧ (rest ≠ [] ∨ b.AfterLine → b'.AfterLine) := by
  induction hrows generalizing fuel b c with
  | nil =>
    -- the scalar ends where a line is not indented by as much
    obtain ⟨fuel, rfl⟩ : ∃ k, fuel = k + 1 := ⟨fuel - 1, by omega⟩
    have hcolumn' : c.column = k := hcolumn
    have hstop : blockLines true indent (fuel + 1) b c = .ok (b, c) := by
      rw [blockLines, if_neg]
      rintro ⟨heq, -⟩
      omega
    exact ⟨b, c, hstop, hc, hcolumn', by simp, fun h => h.resolve_left fun hne => hne rfl⟩
  | @row line bs rest x hne hline hx hbs hrest _ ih =>
    obtain ⟨fuel, rfl⟩ : ∃ k, fuel = k + 1 := ⟨fuel - 1, by omega⟩
    have hcons : (line ++ x :: (bs ++ rest)).isEmpty = false := by simp
    have hcolumn' : c.column = indent := by
      rw [hcolumn, columnAfterBreaks, hcons]
      rfl
    have hc' : c.rest = literalBody indent false (line ++ x :: (bs ++ rest))
        ++ (spaces k ++ next) := by
      rw [hc, afterBreaks, hcons]
      rfl
    obtain ⟨blank, c₁, hstep, hc₁, hcolumn₁⟩ :=
      blockLines_line hindent hnext hline hx hbs hrest fuel b hc' hcolumn'
    have hfuel' : rest.length < fuel := by
      simp only [List.length_append, List.length_cons] at hfuel
      omega
    obtain ⟨b', c', hread, hrest', hcolumn'', hall, hafter⟩ := ih hfuel' hc₁ hcolumn₁
    have hline' := BlockText.afterLine_of_line b.all hne hline hx.isBreak
      (fun a ha => (hbs a ha).isBreak) blank
    refine ⟨b', c', by rw [hstep, hread], hrest', hcolumn'', ?_, fun _ => hafter (.inr hline')⟩
    rw [hall]
    simp [BlockText.all]

/-! ### The written form

The written form ends with the break that ends its last line, whether or not the text has one. The
mark in the header says which it is.
-/

/-- A line feed at the end of a text is written as it is. -/
theorem literalBody_newline (indent : Nat) (fresh : Bool) (s : List Char) :
    literalBody indent fresh (s ++ ['\n']) = literalBody indent fresh s ++ ['\n'] := by
  induction s generalizing fresh with
  | nil => cases fresh <;> rfl
  | cons c s ih =>
    rw [List.cons_append, literalBody, literalBody]
    split
    · rw [ih]
      rfl
    · rw [ih]
      simp

/-- The last character of a text is written last, so the written form ends with a break exactly
    if the text does. -/
theorem getLast_literalBody (indent : Nat) (fresh : Bool) (s : List Char) :
    (literalBody indent fresh s).getLast? = s.getLast? := by
  induction s generalizing fresh with
  | nil => cases fresh <;> rfl
  | cons c s ih =>
    have hstep (t : List Char) (u : List Char) (hu : u.getLast? = s.getLast?) :
        (t ++ c :: u).getLast? = (c :: s).getLast? := by
      rw [List.getLast?_append, List.getLast?_cons, List.getLast?_cons, hu]
      rfl
    rw [literalBody]
    split
    · exact hstep [] _ (ih true)
    · exact hstep _ _ (ih false)

/-- What is written for a text is not shorter than it. So fuel for what is written is enough for
    the text. -/
theorem length_le_literalBody (indent : Nat) (fresh : Bool) (s : List Char) :
    s.length ≤ (literalBody indent fresh s).length := by
  induction s generalizing fresh with
  | nil => exact Nat.zero_le _
  | cons c s ih =>
    rw [literalBody]
    split
    · exact Nat.succ_le_succ (ih true)
    · have hrest := ih false
      rw [List.length_append, List.length_cons, List.length_cons]
      omega

/-- What stands between the bar and the first line of a literal scalar: the width of the
    indentation, if the first line does not show it, and the mark for the end. -/
def literalHeader (s : List Char) : List Char :=
  (if s.head?.any fun c => c == ' ' || isBreak c then ['2'] else []) ++ chompingMark s

/-- A literal scalar whose last line was ended consists of the bar, the header, and the lines of
    the text whose last line was ended. -/
theorem endLine_literal (indent : Nat) {s : List Char} (hne : s ≠ []) :
    endLine (literal indent s)
      = '|' :: (literalHeader s ++ '\n' :: literalBody indent true (endLine s)) := by
  have hform : literal indent s
      = '|' :: (literalHeader s ++ '\n' :: literalBody indent true s) := by
    simp [literal, literalHeader]
  have hlast : (literal indent s).getLast? = s.getLast? := by
    have hsplit : literal indent s
        = ('|' :: (literalHeader s ++ ['\n'])) ++ literalBody indent true s := by
      rw [hform]
      simp
    obtain ⟨init, a, rfl⟩ := (List.eq_nil_or_concat s).resolve_left hne
    rw [hsplit, List.getLast?_append, getLast_literalBody]
    simp
  unfold endLine
  rw [hlast, hform]
  split
  · rfl
  · rw [literalBody_newline]
    simp

/-! ### Breaks at the end

A text may end without a break, with a single one, or with several; each case has its mark, and
each mark tells the reader what to do with the breaks it has kept apart.
-/

/-- The mark in the header for a way of chomping. -/
def markOf : Chomping → List Char
  | .strip => ['-']
  | .clip => []
  | .keep => ['+']

/-- The header of a block scalar is read: the way of chomping and the width, which is zero where
    none is written. -/
theorem blockHeader_mark (wide : Bool) (chomping : Chomping) {t : List Char} {c : Cursor}
    (hc : c.rest = (if wide then ['2'] else []) ++ markOf chomping ++ '\n' :: t) :
    ∃ c', blockHeader c = .ok (chomping, if wide then 2 else 0, c') ∧ c'.rest = '\n' :: t := by
  obtain ⟨rest, index, line, column⟩ := c
  obtain rfl : rest = _ := hc
  cases wide <;> cases chomping <;> exact ⟨_, rfl, rfl⟩

/-- How a text of which `a` is the last character ends: in no break, in one after something else,
    or in any number. -/
def EndsFor (init : List Char) (a : Char) : Chomping → Prop
  | .strip => isBreak a = false
  | .clip => isBreak a = true ∧ ∃ start b, init = start ++ [b] ∧ isBreak b = false
  | .keep => isBreak a = true

/-- Whether the end of a text is kept by a way of chomping: what the way drops or gives back is
    what the text lacks or has. -/
def Keeps (chomping : Chomping) (s : List Char) : Prop :=
  ∃ init a, s = init ++ [a] ∧ EndsFor init a chomping

/-- The mark that the printer chooses for a text keeps its end. -/
theorem chompingMark_spec {s : List Char} (hne : s ≠ []) :
    ∃ chomping, chompingMark s = markOf chomping ∧ Keeps chomping s := by
  obtain ⟨init, a, rfl⟩ := (List.eq_nil_or_concat s).resolve_left hne
  rw [List.concat_eq_append]
  have hreverse : (init ++ [a]).reverse = a :: init.reverse := by simp
  unfold chompingMark
  rw [hreverse]
  -- the last two characters decide: a break after a break, a break after something else, or no
  -- break
  rcases List.eq_nil_or_concat init with rfl | ⟨start, b, rfl⟩
  · cases ha : isBreak a with
    | true => exact ⟨.keep, by simp [ha, markOf], [], a, rfl, ha⟩
    | false => exact ⟨.strip, by simp [ha, markOf], [], a, rfl, ha⟩
  · rw [List.concat_eq_append]
    have hreverse' : (start ++ [b]).reverse = b :: start.reverse := by simp
    rw [hreverse']
    cases ha : isBreak a with
    | false => exact ⟨.strip, by simp [markOf, ha], _, a, rfl, ha⟩
    | true =>
      cases hb : isBreak b with
      | true => exact ⟨.keep, by simp [markOf, ha, hb], _, a, rfl, ha⟩
      | false => exact ⟨.clip, by simp [markOf, ha, hb], _, a, rfl, ha, start, b, rfl, hb⟩

/-- What is given back of a block scalar: without the breaks at the end, with one of them, or
    with all. -/
def BlockText.chomped (b : BlockText) : Chomping → List Char
  | .strip => b.text
  | .clip => b.text ++ b.last
  | .keep => b.text ++ b.last ++ b.empty

/-- After a line with something in it there is only one break if what is before the last
    character does not end with a break. -/
theorem BlockText.AfterLine.empty_eq_nil {b : BlockText} (hb : b.AfterLine)
    {init : List Char} {a z : Char}
    (hall : b.all = init ++ [a] ++ [z]) (ha : isBreak a = false) : b.empty = [] := by
  obtain ⟨x, hlast, hx⟩ := hb.last
  rcases List.eq_nil_or_concat b.empty with hempty | ⟨others, y, hempty⟩
  · exact hempty
  · have hbefore : b.text ++ [x] ++ others = init ++ [a] := by
      rw [BlockText.all, hlast, hempty, List.concat_eq_append, ← List.append_assoc] at hall
      exact (List.append_inj' hall rfl).1
    -- the last character before would be a break
    have hbreak : isBreak a = true := by
      rcases List.eq_nil_or_concat others with rfl | ⟨start, w, rfl⟩
      · rw [List.append_nil] at hbefore
        have heq := (List.append_inj' hbefore rfl).2
        rw [← (List.cons.inj heq).1]
        exact hx
      · rw [List.concat_eq_append, ← List.append_assoc] at hbefore
        have heq := (List.append_inj' hbefore rfl).2
        rw [← (List.cons.inj heq).1]
        exact hb.empty w (by simp [hempty])
    rw [ha] at hbreak
    cases hbreak

/-- **What is given back** of a block scalar is the text, if its end was kept and all of its
    lines were read. That a line with something in it was read is needed only if there is one. -/
theorem chomped_eq {b : BlockText} {chomping : Chomping} {s : List Char} (hs : Keeps chomping s)
    (hall : b.all = endLine s) (hb : (∃ a ∈ endLine s, isBreak a = false) → b.AfterLine) :
    b.chomped chomping = s := by
  obtain ⟨init, a, rfl, ha⟩ := hs
  have hend : endLine (init ++ [a]) = if isBreak a then init ++ [a] else init ++ [a] ++ ['\n'] := by
    simp [endLine]
  rw [hend] at hall hb
  cases chomping with
  | strip =>
    -- the break was added to end the line, and is dropped again
    have hline : isBreak a = false := ha
    rw [hline] at hall hb
    have hafter := hb ⟨a, by simp, hline⟩
    have hempty := hafter.empty_eq_nil hall hline
    obtain ⟨x, hlast, -⟩ := hafter.last
    rw [BlockText.all, hempty, hlast, List.append_nil] at hall
    exact (List.append_inj' hall rfl).1
  | clip =>
    -- one break after a line with something in it: there is no empty line
    obtain ⟨hbreak, start, d, rfl, hd⟩ := ha
    rw [hbreak, if_pos rfl] at hall hb
    have hafter := hb ⟨d, by simp, hd⟩
    have hempty := hafter.empty_eq_nil hall hd
    rw [BlockText.all, hempty, List.append_nil] at hall
    exact hall
  | keep =>
    -- every break that was read is given back
    have hbreak : isBreak a = true := ha
    rw [hbreak, if_pos rfl] at hall
    exact hall

/-! ### The header and the indentation

Without a width in the header the reader takes the indentation of the first line with something in
it. With one, it takes the width and does not look at the lines.
-/

/-- A first line with something in it shows the indentation: the reader that does not know it yet
    counts the spaces before the line. -/
theorem blockBreaks_first {a : Char} (ha : isPrintable a = true ∧ isBreak a = false ∧ a ≠ ' ')
    (n : Nat) {t : List Char} {c : Cursor} (hc : c.rest = spaces n ++ a :: t)
    (hcolumn : c.column = 0)
    (fuel : Nat) (breaks : List Char) :
    blockBreaks 0 (fuel + 1) 0 breaks c = .ok (n, breaks, c.advance n) := by
  have htake : (c.rest.takeWhile (· == ' ')).length = n := by
    rw [hc, takeWhile_spaces n (by simpa using ha.2.2)]
  have hafter : (c.advance n).rest = a :: t := Cursor.rest_advance_spaces hc
  have htab : (c.advance n).sees '\t' = false := by
    have hne : a ≠ '\t' := by
      rintro rfl
      cases ha.1
    rw [Cursor.sees, hafter]
    simpa using hne
  rw [blockBreaks]
  simp only [htake, ↓reduceIte, htab, hafter, List.head?_cons, Option.any_some, ha.2.1,
    Bool.false_eq_true, and_false, Cursor.column_advance, hcolumn]
  simp

/-- The lines of a printable text end with breaks that can be written as they are, the last one
    too once it was ended. -/
theorem endLine_breaks {s : List Char} (hprint : ∀ a ∈ s, isPrintable a = true) :
    (∀ a ∈ endLine s, isBreak a = true → IsPlainBreak a)
      ∧ ∀ a ∈ (endLine s).getLast?, isBreak a = true := by
  unfold endLine
  split
  · next hlast =>
    refine ⟨fun a ha hbreak => isPlainBreak_of_isPrintable hbreak (hprint a ha), fun a ha => ?_⟩
    rw [Option.mem_def.mp ha] at hlast
    exact hlast
  · constructor
    · intro a ha hbreak
      rcases List.mem_append.mp ha with ha | ha
      · exact isPlainBreak_of_isPrintable hbreak (hprint a ha)
      · rw [List.mem_singleton] at ha
        exact .inl ha
    · intro a ha
      rw [List.getLast?_concat] at ha
      cases ha
      rfl

/-- The empty lines at the head of a literal scalar are read, and the indentation of its first
    line is found if it is not written in the header. It is written exactly where the text begins
    with a space or a break and so would not show it. -/
theorem blockBreaks_head (hk : k < indent) (hnext : StartsToken next) {s bs rest : List Char}
    (hne : s ≠ []) (hprint : ∀ a ∈ s, isPrintable a = true) (hsplit : endLine s = bs ++ rest)
    (hbs : ∀ b ∈ bs, isBreak b = true) (hrest : ∀ a ∈ rest.head?, isBreak a = false) {c : Cursor}
    (hc : c.rest = literalBody indent true (endLine s) ++ (spaces k ++ next))
    (hcolumn : c.column = 0)
    {wide : Bool} (hwide : (s.head?.any fun c => c == ' ' || isBreak c) = wide) :
    ∃ widest c', blockBreaks (if wide then indent else 0) (c.rest.length + 1) 0 [] c
        = .ok (widest, bs, c')
      ∧ c'.rest = afterBreaks indent k next rest ∧ c'.column = columnAfterBreaks indent k rest
      ∧ (wide = false → widest = indent) := by
  cases wide with
  | true =>
    -- the header has the width, so the empty lines are read with it
    have hplain : ∀ b ∈ bs, IsPlainBreak b := fun b hb =>
      (endLine_breaks hprint).1 b (by rw [hsplit]; exact List.mem_append_left _ hb) (hbs b hb)
    have hfuel : bs.length < c.rest.length + 1 := by
      rw [hc, hsplit, literalBody_breaks indent hbs]
      simp only [List.length_append]
      omega
    rw [hsplit] at hc
    obtain ⟨widest, c', hread, hrest', hcolumn'⟩ :=
      @blockBreaks_rows indent k next hk hnext bs rest hplain hrest (c.rest.length + 1) 0 [] c hfuel
        hc hcolumn
    exact ⟨widest, c', hread, hrest', hcolumn', fun h => by cases h⟩
  | false =>
    obtain ⟨a, s, rfl⟩ := List.exists_cons_of_ne_nil hne
    have ha : a ≠ ' ' ∧ isBreak a = false := by simpa using hwide
    obtain ⟨t, ht⟩ : ∃ t, endLine (a :: s) = a :: t := by
      unfold endLine
      split
      · exact ⟨s, rfl⟩
      · exact ⟨s ++ ['\n'], rfl⟩
    -- the text begins with a line that has something in it
    have hnil : bs = [] := by
      cases bs with
      | nil => rfl
      | cons b bs =>
        rw [ht] at hsplit
        have hb := hbs b List.mem_cons_self
        rw [← (List.cons.inj hsplit).1, ha.2] at hb
        cases hb
    subst hnil
    have hrest' : rest = a :: t := by rw [← ht, hsplit]; rfl
    subst hrest'
    have hbody : literalBody indent false (a :: t) = a :: literalBody indent false t := by
      rw [literalBody, ha.2]
      rfl
    have hc' : c.rest
        = spaces indent ++ a :: (literalBody indent false t ++ (spaces k ++ next)) := by
      rw [hc, ht, literalBody_indented indent ha.2, hbody]
      simp
    refine ⟨indent, c.advance indent, blockBreaks_first ⟨hprint a (by simp), ha.2, ha.1⟩ indent hc'
      hcolumn _ [], ?_, ?_, fun _ => rfl⟩
    · rw [Cursor.rest_advance_spaces hc', afterBreaks, hbody]
      rfl
    · rw [Cursor.column_advance, hcolumn, Nat.zero_add]
      rfl

/-! ### Whole scalars

The header, the empty lines at the head and the rows are read one after the other, and the breaks
at the end are given back as the header says.
-/

/-- The header of a literal scalar is read up to the first line: no comment follows it, and its
    mark keeps the end of the text. -/
theorem blockHeader_literal {s : List Char} (hne : s ≠ []) {wide : Bool}
    (hwide : (s.head?.any fun c => c == ' ' || isBreak c) = wide) {c : Cursor} {t : List Char}
    (hc : c.rest = endLine (literal indent s) ++ t) :
    ∃ chomping c', blockHeader (c.advance 1) = .ok (chomping, if wide then 2 else 0, c')
      ∧ Keeps chomping s ∧ c'.skipComment = c'
      ∧ c'.rest = '\n' :: (literalBody indent true (endLine s) ++ t) := by
  obtain ⟨chomping, hmark, hkeeps⟩ := chompingMark_spec hne
  rw [endLine_literal indent hne, literalHeader, hmark, hwide] at hc
  have hbar : (c.advance 1).rest = (if wide then ['2'] else []) ++ markOf chomping
      ++ '\n' :: (literalBody indent true (endLine s) ++ t) := by
    rw [Cursor.rest_advance, hc]
    simp
  obtain ⟨c', hheader, hc'⟩ := blockHeader_mark wide chomping hbar
  have hblank : c'.skipWhile isBlank = c' := by
    rw [Cursor.skipWhile, hc']
    rfl
  have hcomment : c'.skipComment = c' := by
    rw [Cursor.skipComment, hblank, Cursor.sees, hc']
    rfl
  exact ⟨chomping, c', hheader, hkeeps, hcomment, hc'⟩

/-- The lines of a literal scalar are read from the first one on: the empty lines at the head,
    which show the indentation if it is not written in the header, and then all rows. -/
theorem blockText_literal (hk : k < indent) (hnext : StartsToken next) {s : List Char}
    (hne : s ≠ []) (hprint : ∀ a ∈ s, isPrintable a = true) {wide : Bool}
    (hwide : (s.head?.any fun c => c == ' ' || isBreak c) = wide) {chomping : Chomping}
    (hkeeps : Keeps chomping s) {c : Cursor}
    (hc : c.rest = literalBody indent true (endLine s) ++ (spaces k ++ next))
    (hcolumn : c.column = 0) :
    ∃ widest bs c₁ b c₂,
      blockBreaks (if wide then indent else 0) (c.rest.length + 1) 0 [] c = .ok (widest, bs, c₁)
      ∧ (wide = false → widest = indent)
      ∧ blockLines true indent (c₁.rest.length + 1) ⟨[], [], bs, false⟩ c₁ = .ok (b, c₂)
      ∧ c₂.rest = next ∧ c₂.column = k ∧ b.chomped chomping = s := by
  obtain ⟨bs, rest, hsplit, hbs, hrest⟩ := exists_span isBreak (endLine s)
  obtain ⟨widest, c₁, hbreaks, hrest₁, hcolumn₁, hwidest⟩ :=
    blockBreaks_head hk hnext hne hprint hsplit hbs hrest hc hcolumn hwide
  obtain ⟨hplain, hlast⟩ := endLine_breaks hprint
  have hrows : Rows rest := by
    refine rows_of_ends (fun a ha => hplain a ?_) hrest fun a ha => hlast a ?_
    · rw [hsplit]
      exact List.mem_append_right _ ha
    · rw [hsplit, List.getLast?_append, Option.mem_def.mp ha]
      rfl
  have hfuel : rest.length < c₁.rest.length + 1 := by
    rw [hrest₁, afterBreaks]
    split
    · next hempty =>
      rw [List.isEmpty_iff.mp hempty]
      exact Nat.succ_pos _
    · have hle := length_le_literalBody indent false rest
      rw [List.length_append]
      omega
  obtain ⟨b, c₂, hlines, hrest₂, hcolumn₂, hall, hafter⟩ :=
    blockLines_rows hk hnext hrows hfuel (b := ⟨[], [], bs, false⟩) hrest₁ hcolumn₁
  have hall' : b.all = endLine s := by
    rw [hall, hsplit]
    rfl
  refine ⟨widest, bs, c₁, b, c₂, hbreaks, hwidest, hlines, hrest₂, hcolumn₂, ?_⟩
  refine chomped_eq hkeeps hall' fun hline => hafter (.inl ?_)
  -- a text of nothing but breaks has no line with something in it
  rintro rfl
  obtain ⟨a, ha, hline⟩ := hline
  rw [hsplit, List.append_nil] at ha
  rw [hbs a ha] at hline
  cases hline

/-- **A text in literal style** is read as it is, up to the next token. It stands in a block of
    the column `parent`, two columns inside of which its lines are. -/
theorem scanBlock_literal {parent : Int}
    (hindent : (indent : Int) = max parent 0 + 2) (hk : k < indent) (hnext : StartsToken next)
    {s : List Char} (hne : s ≠ []) (hprint : ∀ a ∈ s, isPrintable a = true) {c : Cursor}
    (hc : c.rest = endLine (literal indent s) ++ (spaces k ++ next)) :
    ∃ c', scanBlock true parent c = .ok (s, c') ∧ c'.rest = next ∧ c'.column = k := by
  generalize hwide : (s.head?.any fun c => c == ' ' || isBreak c) = wide
  obtain ⟨chomping, c₁, hheader, hkeeps, hcomment, hc₁⟩ := blockHeader_literal hne hwide hc
  have hends : endsLine c₁.rest = true := by
    rw [hc₁]
    rfl
  have hc₂ : (c₁.nextLine 1).rest
      = literalBody indent true (endLine s) ++ (spaces k ++ next) := by
    rw [Cursor.rest_nextLine, hc₁]
    rfl
  obtain ⟨widest, bs, c₂, b, c₃, hbreaks, hwidest, hlines, hrest₃, hcolumn₃, hchomped⟩ :=
    blockText_literal hk hnext hne hprint hwide hkeeps hc₂ rfl
  refine ⟨c₃, ?_, hrest₃, hcolumn₃⟩
  -- the indentation is the one of the header, or that of the first line
  have hindents : (if (if wide then 2 else 0) = 0 then 0
      else (max parent 0).toNat + (if wide then 2 else 0)) = if wide then indent else 0 := by
    cases wide
    · rfl
    · show (max parent 0).toNat + 2 = indent
      omega
  have hwidth : (if (if wide then indent else 0) = 0 then max (max widest (parent + 1).toNat) 1
      else if wide then indent else 0) = indent := by
    cases wide
    · have hw := hwidest rfl
      show max (max widest (parent + 1).toNat) 1 = indent
      omega
    · show (if indent = 0 then _ else indent) = indent
      exact if_neg (by omega)
  unfold scanBlock
  rw [hheader, ok_bind]
  simp only [hcomment, hends, not_true_eq_false, ↓reduceIte, Cursor.readBreak_cons hc₁ (.inl rfl),
    hindents]
  rw [hbreaks, ok_bind]
  simp only [hwidth]
  rw [hlines, ok_bind, ← hchomped]
  cases chomping <;> rfl

end Reading

end SchemaEmbed.Yaml
