import SchemaEmbed.Proofs.Toml.Inline

namespace SchemaEmbed.Toml

/-!
# Lines and headers are read as they were written

The text of a document is lines: entries, headers and empty ones. Reading it gives a list of lines,
which is here that of the lines that were written. What tables they make is another matter.

* `Section` — a header and the entries of its table;
* `sectionsIn` — the sections of a table, in the order in which they are written;
* `ReadsLines` — the lines that a text has, on a condition;
* `readsLines_tableChars` — the text of a table has its lines and those of its sections, if each
  value fits on its line and each path in its header.
-/

open Value (Every EveryItem EveryEntry)

/-! ### Sections

The writer goes through a table twice: for the entries that have lines, and then for those that
have headers. The text of the latter is built from the texts of sections, and `sectionsIn` is the
same recursion with the sections themselves in their place.
-/

/-- The entries of a table that need no header, in order. -/
def linesOf (es : List (String × Value)) : List (String × Value) :=
  es.filter fun e => ! hasHeader e.2

/-- The entries of a table that need one, in order. -/
def tablesIn (es : List (String × Value)) : List (String × Value) :=
  es.filter fun e => hasHeader e.2

/-- A header and the entries of its table. -/
structure Section where
  /-- Whether the table is one of an array. -/
  row : Bool
  /-- The keys of the header. -/
  path : List String
  entries : List (String × Value)

namespace Section

/-- The key that a header opens: the keys on the way, and the last one. -/
def key (s : Section) : Key := ⟨s.path.dropLast, s.path.getLastD ""⟩

/-- The header of a section, of a table or of one more table of an array. -/
def header (s : Section) : Header := if s.row then .tables s.key else .table s.key

/-- The text of a section: its header and its lines. -/
def chars (s : Section) : List Char :=
  if s.row then rowSection s.path s.entries
  else '[' :: pathChars s.path ++ ']' :: '\n' :: Toml.lines s.entries

end Section

/-- The section of a table, unless it is left out because the table has tables in it and no
    lines. An empty table has its header, since nothing else would say that it is there. -/
def ownSection (path : List String) (es : List (String × Value)) : List Section :=
  if (lines es).isEmpty && ! es.isEmpty then [] else [⟨false, path, es⟩]

mutual

/-- The sections of a value under a path: those of a table with its own first, those of an array
    of tables, and none of any other value. -/
def sectionsFor (path : List String) : Value → List Section
  | .object es => ownSection path es ++ sectionsIn path es
  | .array items => if ! items.isEmpty && items.all isTable then rowsFor path items else []
  | _ => []

/-- The sections below a table, in the order of its entries. -/
def sectionsIn (path : List String) : List (String × Value) → List Section
  | [] => []
  | (k, v) :: rest => sectionsFor (path ++ [k]) v ++ sectionsIn path rest

/-- The sections of the tables of an array, each with those below it. -/
def rowsFor (path : List String) : List Value → List Section
  | [] => []
  | .object es :: rest => (⟨true, path, es⟩ :: sectionsIn path es) ++ rowsFor path rest
  | _ :: rest => rowsFor path rest

end

/-- The text of a table by itself is that of its section, if it has one. -/
theorem tableSection_eq (path : List String) (es : List (String × Value)) :
    tableSection path es = (ownSection path es).map Section.chars := by
  unfold tableSection ownSection
  split <;> rfl

mutual

/-- **The texts of tables** are those of their sections. -/
theorem sectionsOf_eq (path : List String) : ∀ v : Value,
    sectionsOf path v = (sectionsFor path v).map Section.chars
  | .null => rfl
  | .bool _ => rfl
  | .number _ => rfl
  | .string _ => rfl
  | .array items => by
    rw [sectionsOf, sectionsFor]
    split
    · exact sectionsOfRows_eq path items
    · rfl
  | .object es => by
    rw [sectionsOf, sectionsFor, List.map_append, tableSection_eq, sectionsBelow_eq path es]

/-- The texts of the tables below a table are those of their sections. -/
theorem sectionsBelow_eq (path : List String) : ∀ es : List (String × Value),
    sectionsBelow path es = (sectionsIn path es).map Section.chars
  | [] => rfl
  | (k, v) :: rest => by
    rw [sectionsBelow, sectionsIn, List.map_append, sectionsOf_eq (path ++ [k]) v,
      sectionsBelow_eq path rest]

/-- The texts of the tables of an array are those of their sections. -/
theorem sectionsOfRows_eq (path : List String) : ∀ items : List Value,
    sectionsOfRows path items = (rowsFor path items).map Section.chars
  | [] => rfl
  | .object es :: rest => by
    rw [sectionsOfRows, rowsFor, List.map_append, List.map_cons, sectionsBelow_eq path es,
      sectionsOfRows_eq path rest]
    rfl
  | .null :: rest => sectionsOfRows_eq path rest
  | .bool _ :: rest => sectionsOfRows_eq path rest
  | .number _ :: rest => sectionsOfRows_eq path rest
  | .string _ :: rest => sectionsOfRows_eq path rest
  | .array _ :: rest => sectionsOfRows_eq path rest

end

/-! ### What the sections are made of

What is asked of every value in a document, such as that it has no null, is asked of the entries of
each section. No header has an empty path, since the root has no header.
-/

mutual

/-- What holds everywhere in a value holds everywhere in the entries of its sections, and none of
    them is the root. -/
theorem sectionsFor_spec {P : Value → Prop} {path : List String} (hpath : path ≠ []) :
    ∀ {v : Value}, Every P v → ∀ s ∈ sectionsFor path v, s.path ≠ [] ∧ EveryEntry P s.entries
  | .null, _ => by simp [sectionsFor]
  | .bool _, _ => by simp [sectionsFor]
  | .number _, _ => by simp [sectionsFor]
  | .string _, _ => by simp [sectionsFor]
  | .array items, hv => by
    rw [sectionsFor]
    split
    · exact rowsFor_spec hpath hv.2
    · simp
  | .object es, hv => by
    rw [sectionsFor]
    intro s hs
    rcases List.mem_append.mp hs with hs | hs
    · unfold ownSection at hs
      split at hs
      · cases hs
      · rw [List.mem_singleton.mp hs]
        exact ⟨hpath, hv.2⟩
    · exact sectionsIn_spec path hv.2 s hs

/-- What holds everywhere in the entries of a table holds everywhere in the entries of the
    sections below it, and none of them is the root. -/
theorem sectionsIn_spec {P : Value → Prop} (path : List String) :
    ∀ {es : List (String × Value)}, EveryEntry P es →
      ∀ s ∈ sectionsIn path es, s.path ≠ [] ∧ EveryEntry P s.entries
  | [], _ => by simp [sectionsIn]
  | (k, v) :: rest, hes => by
    rw [sectionsIn]
    intro s hs
    rcases List.mem_append.mp hs with hs | hs
    · exact sectionsFor_spec (by simp) hes.1 s hs
    · exact sectionsIn_spec path hes.2 s hs

/-- What holds everywhere in the tables of an array holds everywhere in the entries of their
    sections, and none of them is the root. -/
theorem rowsFor_spec {P : Value → Prop} {path : List String} (hpath : path ≠ []) :
    ∀ {items : List Value}, EveryItem P items →
      ∀ s ∈ rowsFor path items, s.path ≠ [] ∧ EveryEntry P s.entries
  | [], _ => by simp [rowsFor]
  | .object es :: rest, hv => by
    rw [rowsFor]
    intro s hs
    rcases List.mem_append.mp hs with hs | hs
    · rcases List.mem_cons.mp hs with rfl | hs
      · exact ⟨hpath, hv.1.2⟩
      · exact sectionsIn_spec path hv.1.2 s hs
    · exact rowsFor_spec hpath hv.2 s hs
  | .null :: _, hv => fun s hs => rowsFor_spec hpath hv.2 s hs
  | .bool _ :: _, hv => fun s hs => rowsFor_spec hpath hv.2 s hs
  | .number _ :: _, hv => fun s hs => rowsFor_spec hpath hv.2 s hs
  | .string _ :: _, hv => fun s hs => rowsFor_spec hpath hv.2 s hs
  | .array _ :: _, hv => fun s hs => rowsFor_spec hpath hv.2 s hs

end

/-! ### Lines

How many lines a text has is bounded by its length, and this is the fuel of the reader. The lemmas
go from the end of a text to its head, one line at a time, and say under which condition all lines
from there on are read.
-/

/-- Whether a text has these lines if `fits` holds, and cannot be read otherwise. Any fuel above
    the length of the text will do. -/
def ReadsLines (fits : Prop) (s : List Char) (ls : List Line) : Prop :=
  ∀ fuel, s.length < fuel → Yields fits (readLines fuel s) ls

/-- Whether a value fits on the line of its key: its integers have 64 bits with their sign, and
    it nests at most eighty levels, which is as deep as the reader goes. -/
def FitsLine (v : Value) : Prop := v.Every IsSigned ∧ v.depth ≤ maxLevels

instance : DecidablePred FitsLine := fun v =>
  inferInstanceAs (Decidable (v.Every IsSigned ∧ v.depth ≤ maxLevels))

/-- The lines of the entries of a table that need no header. -/
def entryLines (es : List (String × Value)) : List Line :=
  (linesOf es).map fun e => .entry ⟨[], e.1⟩ (Item.ofValue e.2)

variable {fits : Prop} {s : List Char} {ls : List Line}

/-- An empty text has no lines. -/
theorem readsLines_nil : ReadsLines True [] [] := by
  intro fuel hfuel
  obtain ⟨fuel, rfl⟩ : ∃ f, fuel = f + 1 := ⟨fuel - 1, by omega⟩
  exact .of_ok rfl trivial

/-- An empty line is skipped. -/
theorem ReadsLines.break (h : ReadsLines fits s ls) : ReadsLines fits ('\n' :: s) ls := by
  intro fuel hfuel
  obtain ⟨fuel, rfl⟩ : ∃ f, fuel = f + 1 := ⟨fuel - 1, by omega⟩
  rw [List.length_cons] at hfuel
  have hread := h (fuel + 1) (by omega)
  rw [readLines] at hread ⊢
  exact hread

/-- A text that begins with a line has it, and then the lines of what follows, if both can be
    read. -/
theorem readsLines_cons {line : Line} {text : List Char} {fits' : Prop}
    (htext : s.length < text.length) (hline : Yields fits (readLine text) (some (line, s)))
    (hrest : ReadsLines fits' s ls) :
    ReadsLines (fits ∧ fits') text (line :: ls) := by
  intro fuel hfuel
  obtain ⟨fuel, rfl⟩ : ∃ f, fuel = f + 1 := ⟨fuel - 1, by omega⟩
  rw [readLines]
  refine hline.bind ?_
  exact (hrest fuel (by omega)).bind_ok rfl

/-- **An entry** on its line is read back, if its value fits on the line. -/
theorem readsLines_entry (k : String) {v : Value} (hv : Every IsWritable v)
    (hrest : ReadsLines fits s ls) :
    ReadsLines (FitsLine v ∧ fits)
      (keyChars k.toList ++ ' ' :: '=' :: ' ' :: (inline v ++ '\n' :: s))
      (.entry ⟨[], k⟩ (Item.ofValue v) :: ls) := by
  refine readsLines_cons (by simp only [List.length_append, List.length_cons]; omega) ?_ hrest
  have hskip := skipSpace_keyChars 0 k.toList (' ' :: '=' :: ' ' :: (inline v ++ '\n' :: s))
  rw [List.replicate_zero, List.nil_append] at hskip
  -- a key is no bracket, so the line is no header
  have hne (rest : List Char) :
      keyChars k.toList ++ ' ' :: '=' :: ' ' :: (inline v ++ '\n' :: s) ≠ '[' :: rest := by
    obtain ⟨c, others, hkey, hc⟩ := keyChars_head k.toList
    rw [hkey, List.cons_append]
    intro heq
    exact hc.ne (by decide) (List.cons.inj heq).1
  -- the reader of lines gives the value twice the fuel of what is left
  have hfuel : 2 * (inline v).length ≤ 2 * (inline v ++ '\n' :: s).length + 2 := by
    rw [List.length_append]
    omega
  have hvalue := readValue_inline hv (t := '\n' :: s) (.inl ⟨_, _, rfl, .inl rfl⟩) hfuel maxLevels
  rw [readLine, hskip, ok_bind]
  split
  · next heq => exact absurd heq (by simp)
  · next heq => exact absurd heq (hne _)
  · next heq => exact absurd heq (hne _)
  · rw [readKeyAndSign_inline k hv.head, ok_bind]
    exact hvalue.bind_ok rfl

/-- A path begins with a character that begins a key, and so not with another bracket. -/
theorem pathChars_head {path : List String} (hne : path ≠ []) (t : List Char) :
    ∃ c rest, pathChars path ++ t = c :: rest ∧ StartsKey c := by
  obtain ⟨k, path, rfl⟩ := List.exists_cons_of_ne_nil hne
  obtain ⟨c, others, hkey, hc⟩ := keyChars_head k.toList
  by_cases hpath : path = []
  · subst hpath
    exact ⟨c, others ++ t, by simp [pathChars, hkey], hc⟩
  · exact ⟨c, _, by rw [pathChars_cons k hpath, hkey]; rfl, hc⟩

/-- The header of a table is read back, if its path has no more keys than are read. One bracket
    is not taken for two, as the path begins with a key. -/
theorem readLine_table {path : List String} (hne : path ≠ []) (s : List Char) :
    Yields (path.length ≤ maxLevels) (readLine ('[' :: (pathChars path ++ ']' :: '\n' :: s)))
      (some (.header (.table ⟨path.dropLast, path.getLastD ""⟩), s)) := by
  have hskip (t : List Char) : skipSpace ('[' :: t) = .ok ('[' :: t) :=
    skipSpace_solid 0 (by unfold IsSolid; decide) t
  obtain ⟨c, rest, hhead, hc⟩ := pathChars_head hne (']' :: '\n' :: s)
  rw [readLine, hskip, ok_bind]
  split
  · next heq => cases heq
  · next heq =>
    rw [hhead] at heq
    exact absurd (List.cons.inj (List.cons.inj heq).2).1 (hc.ne (by decide))
  · next heq =>
    rw [← (List.cons.inj heq).2]
    exact (readKey_pathChars hne ('\n' :: s)).bind_ok rfl
  · next h => exact absurd rfl (h _)

/-- The header of a table of an array is read back, if its path has no more keys than are read. -/
theorem readLine_row {path : List String} (hne : path ≠ []) (s : List Char) :
    Yields (path.length ≤ maxLevels)
      (readLine ('[' :: '[' :: (pathChars path ++ ']' :: ']' :: '\n' :: s)))
      (some (.header (.tables ⟨path.dropLast, path.getLastD ""⟩), s)) := by
  have hskip (t : List Char) : skipSpace ('[' :: t) = .ok ('[' :: t) :=
    skipSpace_solid 0 (by unfold IsSolid; decide) t
  rw [readLine, hskip, ok_bind]
  exact (readKey_pathChars hne (']' :: '\n' :: s)).bind_ok rfl

/-! ### Texts

From lines to sections and from sections to the whole text: between two sections there is an empty
line, and one between the lines of the root and the first section.
-/

/-- Whether all values that stand on lines of a table fit on them. -/
def FitsLines (es : List (String × Value)) : Prop := ∀ e ∈ linesOf es, FitsLine e.2

instance : DecidablePred FitsLines := fun es =>
  inferInstanceAs (Decidable (∀ e ∈ linesOf es, FitsLine e.2))

/-- The lines of a section: its header and those of its entries. -/
def Section.lines (x : Section) : List Line := .header x.header :: entryLines x.entries

/-- Whether the path of a section fits in its header, and the values on its lines. -/
def Section.Fits (x : Section) : Prop := x.path.length ≤ maxLevels ∧ FitsLines x.entries

instance : DecidablePred Section.Fits := fun x =>
  inferInstanceAs (Decidable (x.path.length ≤ maxLevels ∧ FitsLines x.entries))

/-- The lines of entries begin with that of the first one, unless it has a header. Then it is
    left for later. -/
theorem lines_cons_append (k : String) (v : Value) (es : List (String × Value)) (t : List Char) :
    lines ((k, v) :: es) ++ t = if hasHeader v then lines es ++ t
      else keyChars k.toList ++ ' ' :: '=' :: ' ' :: (inline v ++ '\n' :: (lines es ++ t)) := by
  by_cases hv : hasHeader v = true
  · simp [lines, hv]
  · simp [lines, hv]

/-- **The lines of entries** are read back one by one. -/
theorem readsLines_entries {es : List (String × Value)} (hes : EveryEntry IsWritable es)
    (hrest : ReadsLines fits s ls) :
    ReadsLines (FitsLines es ∧ fits) (lines es ++ s) (entryLines es ++ ls) := by
  induction es with
  | nil =>
    have hnone : FitsLines [] := by simp [FitsLines, linesOf]
    intro fuel hfuel
    exact (hrest fuel hfuel).congr ⟨fun h => ⟨hnone, h⟩, fun h => h.2⟩
  | cons e es ih =>
    obtain ⟨k, v⟩ := e
    have hlater := ih hes.2
    rw [lines_cons_append]
    -- an entry with a header has no line here
    by_cases hv : hasHeader v = true
    · have hlines : linesOf ((k, v) :: es) = linesOf es := by simp [linesOf, hv]
      rw [if_pos hv, FitsLines, entryLines, hlines]
      exact hlater
    · have hlines : linesOf ((k, v) :: es) = (k, v) :: linesOf es := by simp [linesOf, hv]
      have hiff : FitsLine v ∧ FitsLines es ∧ fits ↔ FitsLines ((k, v) :: es) ∧ fits := by
        unfold FitsLines
        rw [hlines, List.forall_mem_cons, and_assoc]
      rw [if_neg hv, entryLines, hlines]
      intro fuel hfuel
      exact (readsLines_entry k hes.1 hlater fuel hfuel).congr hiff

/-- **A section** is read back, its header and then its lines, if both fit. -/
theorem readsLines_section {x : Section} (hpath : x.path ≠ [])
    (hes : EveryEntry IsWritable x.entries) (hrest : ReadsLines fits s ls) :
    ReadsLines (x.Fits ∧ fits) (x.chars ++ s) (x.lines ++ ls) := by
  have hentries := readsLines_entries hes hrest
  have hcons : ReadsLines (x.path.length ≤ maxLevels ∧ FitsLines x.entries ∧ fits) (x.chars ++ s)
      (x.lines ++ ls) := by
    unfold Section.chars Section.lines Section.header
    -- a table of an array has two brackets, any other table one
    cases x.row with
    | true =>
      simp only [↓reduceIte, rowSection, List.cons_append, List.append_assoc]
      exact readsLines_cons (by simp only [List.length_append, List.length_cons]; omega)
        (readLine_row hpath _) hentries
    | false =>
      simp only [Bool.false_eq_true, ↓reduceIte, List.cons_append, List.append_assoc]
      exact readsLines_cons (by simp only [List.length_append, List.length_cons]; omega)
        (readLine_table hpath _) hentries
  intro fuel hfuel
  exact (hcons fuel hfuel).congr (by rw [Section.Fits, and_assoc])

/-- Of texts with an empty line between them, the first one comes before an empty line if there
    are more. -/
theorem intersperse_cons (t : List Char) (ts : List (List Char)) :
    ((t :: ts).intersperse ['\n']).flatten
      = t ++ if ts.isEmpty then [] else '\n' :: (ts.intersperse ['\n']).flatten := by
  cases ts with
  | nil => simp
  | cons u ts => simp

/-- The texts of sections, with empty lines between them, have their lines. -/
theorem readsLines_sections : ∀ {xs : List Section},
    (∀ x ∈ xs, x.path ≠ [] ∧ EveryEntry IsWritable x.entries) →
      ReadsLines (∀ x ∈ xs, x.Fits) ((xs.map Section.chars).intersperse ['\n']).flatten
        (xs.flatMap Section.lines)
  | [], _ => fun fuel hfuel => (readsLines_nil fuel hfuel).congr (by simp)
  | x :: xs, hxs => by
    obtain ⟨hx, hrest⟩ := List.forall_mem_cons.mp hxs
    have hlater : ReadsLines (∀ x ∈ xs, x.Fits)
        (if (xs.map Section.chars).isEmpty then []
          else '\n' :: ((xs.map Section.chars).intersperse ['\n']).flatten)
        (xs.flatMap Section.lines) := by
      have hread := readsLines_sections hrest
      cases xs with
      | nil => exact hread
      | cons y ys => exact hread.break
    have hread := readsLines_section hx.1 hx.2 hlater
    rw [List.map_cons, intersperse_cons, List.flatMap_cons]
    intro fuel hfuel
    exact (hread fuel hfuel).congr List.forall_mem_cons.symm

/-- Whether every value fits on its line and every path in its header. This is the condition on
    which a table is read back. -/
def Fits (es : List (String × Value)) : Prop := FitsLines es ∧ ∀ x ∈ sectionsIn [] es, x.Fits

instance : DecidablePred Fits := fun es =>
  inferInstanceAs (Decidable (FitsLines es ∧ ∀ x ∈ sectionsIn [] es, x.Fits))

/-- **The text of a table** has its lines and those of its sections, if all of them fit, and
    cannot be read otherwise. -/
theorem readsLines_tableChars {es : List (String × Value)} (hes : EveryEntry IsWritable es) :
    ReadsLines (Fits es) (tableChars es)
      (entryLines es ++ (sectionsIn [] es).flatMap Section.lines) := by
  have hsections := readsLines_sections (sectionsIn_spec [] hes)
  unfold tableChars
  dsimp only
  rw [sectionsBelow_eq]
  split
  · -- there is no line before the first header
    next hempty =>
    have hread := readsLines_entries hes hsections
    rw [List.isEmpty_iff.mp hempty] at hread
    exact hread
  · rw [intersperse_cons]
    apply readsLines_entries hes
    generalize sectionsIn [] es = xs at hsections ⊢
    cases xs with
    | nil => exact hsections
    | cons y ys => exact hsections.break

/-! ### The head of a text

How a text begins is needed twice: no byte order mark is taken from it, and it is not taken for the
text of another format.
-/

/-- The lines of a table, if there are any, begin with a key. -/
theorem lines_head (es : List (String × Value)) :
    lines es = [] ∨ ∃ c rest, lines es = c :: rest ∧ StartsKey c := by
  induction es with
  | nil => exact .inl rfl
  | cons e es ih =>
    obtain ⟨k, v⟩ := e
    have happend := lines_cons_append k v es []
    rw [List.append_nil, List.append_nil] at happend
    by_cases hv : hasHeader v = true
    · rw [happend, if_pos hv]
      exact ih
    · obtain ⟨c, rest, hkey, hc⟩ := keyChars_head k.toList
      rw [happend, if_neg hv, hkey]
      exact .inr ⟨c, _, rfl, hc⟩

/-- The text of a section begins with a bracket. -/
theorem Section.chars_head (x : Section) : ∃ rest, x.chars = '[' :: rest := by
  unfold Section.chars
  split
  · exact ⟨_, rfl⟩
  · exact ⟨_, rfl⟩

/-- **The text of a table** begins with a key or with a bracket. -/
theorem tableChars_head (es : List (String × Value)) :
    ∀ c ∈ (tableChars es).head?, c = '[' ∨ StartsKey c := by
  unfold tableChars
  dsimp only
  rw [sectionsBelow_eq]
  rcases lines_head es with hlines | ⟨c, rest, hlines, hc⟩
  · -- without lines the first section is the head
    rw [hlines]
    cases sectionsIn [] es with
    | nil => simp
    | cons x xs =>
      obtain ⟨rest, hx⟩ := x.chars_head
      rw [List.map_cons, List.isEmpty_nil, if_pos rfl, intersperse_cons, hx]
      rintro c ⟨⟩
      exact .inl rfl
  · rw [hlines, List.isEmpty_cons, if_neg Bool.false_ne_true, intersperse_cons]
    rintro d ⟨⟩
    exact .inr hc

end SchemaEmbed.Toml
