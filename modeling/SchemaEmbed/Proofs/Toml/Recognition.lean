import SchemaEmbed.Proofs.Json.Recognition
import SchemaEmbed.Proofs.Json.Shape
import SchemaEmbed.Proofs.Toml.RoundTrip

namespace SchemaEmbed.Toml

/-!
# Recognising the text of a table

The text of a table is recognised as TOML if it is legible. But a header stands between brackets,
as a JSON list does, so a text that is nothing but a header can be recognised as JSON before:

* `spellsItems_path` — the list that a header spells ends with the brackets of the header;
* `lone` — tables one in another, down to one without entries;
* `lone_of_sniff` — **what is recognised as JSON** is the text of such tables;
* `sniff_tableChars` — **what is recognised as TOML**.

A key between double quotes has escapes that JSON reads alike, so that a header with such a key is
a list of one string. After a list JSON wants nothing but blanks, so that neither lines nor other
headers can follow.
-/

open Json (Spells SpellsItems)
open Value (EveryEntry)

/-! ### Keys between quotes -/

/-- The digits with which a code point is written are read by JSON. -/
theorem jsonValue_hexDigit {n : Nat} (h : n < 16) : Json.hexValue? (hexDigit n) = some n := by
  have hall : ∀ n < 16, Json.hexValue? (hexDigit n) = some n := by decide
  exact hall n h

/-- **One character** in its escaped form stands for itself in a JSON string too. -/
theorem decodeFrom_escape (read : List Char) (c : Char) (rest : List Char) :
    Json.decodeFrom read (escape c ++ rest) = Json.decodeFrom (c :: read) rest := by
  by_cases hletter : c ∈ ['\x08', '\t', '\n', '\x0c', '\r', '"', '\\']
  · -- the characters that have a letter of their own are written as the other format does
    have hsame : escape c = Json.escape c := by
      simp only [List.mem_cons, List.not_mem_nil, or_false] at hletter
      rcases hletter with rfl | rfl | rfl | rfl | rfl | rfl | rfl <;> simp [escape, Json.escape]
    rw [hsame, Json.decodeFrom_escape]
  simp only [List.mem_cons, List.not_mem_nil, or_false, not_or] at hletter
  obtain ⟨hb, ht, hn, hf, hr, hquote, hslash⟩ := hletter
  simp only [escape, if_neg hb, if_neg ht, if_neg hn, if_neg hf, if_neg hr, if_neg hquote,
    if_neg hslash]
  by_cases hcontrol : isControl c = true
  · have hlt : c.toNat < 256 := by
      simp only [isControl, Bool.or_eq_true, Bool.and_eq_true, decide_eq_true_eq,
        beq_iff_eq] at hcontrol
      omega
    rw [if_pos hcontrol]
    have hread := Json.decodeFrom_octet hlt (jsonValue_hexDigit (by omega))
      (jsonValue_hexDigit (by omega)) read rest
    rwa [Char.ofNat_toNat] at hread
  · have hplain : ¬ c.toNat < 0x20 := by
      intro hlt
      simp [isControl, hlt, ht] at hcontrol
    rw [if_neg hcontrol, List.singleton_append, Json.decodeFrom_plain hquote hslash hplain]

/-- **A key** is bare, or a text between quotes of either kind. -/
theorem keyChars_cases (s : List Char) :
    (∀ c ∈ keyChars s, isBare c = true) ∨ (∃ t, keyChars s = '\'' :: t)
      ∨ keyChars s = '"' :: (s.flatMap escape ++ ['"']) := by
  unfold keyChars
  dsimp only
  split
  · next h =>
    simp only [Bool.and_eq_true, List.all_eq_true] at h
    exact .inl h.2
  split
  · exact .inr (.inl ⟨_, rfl⟩)
  · exact .inr (.inr rfl)

/-! ### The path of a header -/

/-- A path is its first key and nothing else, or a dot and more keys. -/
theorem pathChars_eq {path : List String} (hne : path ≠ []) :
    ∃ k tail, pathChars path = keyChars k ++ tail ∧ ∀ c ∈ tail.head?, c = '.' := by
  obtain ⟨k, path, rfl⟩ := List.exists_cons_of_ne_nil hne
  by_cases hpath : path = []
  · subst hpath
    exact ⟨k.toList, [], by simp [pathChars], by simp⟩
  · exact ⟨k.toList, _, pathChars_cons k hpath, by simp⟩

/-- Whether a character is no quote. -/
def isUnquoted (c : Char) : Bool := c != '"' && c != '\''

/-- Up to its first quote, a path is made of bare keys and dots. -/
theorem unquoted_pathChars (path : List String) :
    ∀ c ∈ (pathChars path).takeWhile isUnquoted, isBare c = true ∨ c = '.' := by
  -- the same for a key with something of the kind after it
  have hkey (k : List Char) {t : List Char}
      (ht : ∀ c ∈ t.takeWhile isUnquoted, isBare c = true ∨ c = '.') :
      ∀ c ∈ (keyChars k ++ t).takeWhile isUnquoted, isBare c = true ∨ c = '.' := by
    rcases keyChars_cases k with hbare | ⟨rest, hquote⟩ | hquote
    · have hunquoted : ∀ c ∈ keyChars k, isUnquoted c = true := fun c hc => by
        have hc := hbare c hc
        simp only [isUnquoted, Bool.and_eq_true, bne_iff_ne]
        refine ⟨?_, ?_⟩ <;> (rintro rfl; exact absurd hc (by decide))
      rw [List.takeWhile_append_of_pos hunquoted]
      exact List.forall_mem_append.mpr ⟨fun c hc => .inl (hbare c hc), ht⟩
    · rw [hquote]
      exact List.forall_mem_nil _
    · rw [hquote]
      exact List.forall_mem_nil _
  induction path with
  | nil => exact List.forall_mem_nil _
  | cons k path ih =>
    by_cases hpath : path = []
    · subst hpath
      have hchars : pathChars [k] = keyChars k.toList ++ [] := by simp [pathChars]
      rw [hchars]
      exact hkey k.toList (List.forall_mem_nil _)
    · rw [pathChars_cons k hpath]
      exact hkey k.toList (List.forall_mem_cons.mpr ⟨.inr rfl, ih⟩)

/-! ### Headers as JSON lists

An item that JSON reads from a path is a word, a number or a string, since no key begins with a
bracket or a brace. The grammar of JSON lets numbers and words end anywhere, but in a list a comma
or a bracket must follow, and those that are bare contain neither.
-/

/-- A character that begins a key is no blank of JSON. -/
theorem StartsKey.not_blank {c : Char} (hc : StartsKey c) : Json.isBlank c = false := by
  simp only [Json.isBlank, Bool.or_eq_false_iff, beq_eq_false_iff_ne]
  exact ⟨⟨⟨hc.ne (by decide), hc.ne (by decide)⟩, hc.ne (by decide)⟩, hc.ne (by decide)⟩

/-- Whether an item of a JSON list ends here: a closing bracket or a comma follows, after blanks. -/
def EndsItem (s : List Char) : Prop := ∃ c rest, Json.skipBlanks s = c :: rest ∧ (c = ']' ∨ c = ',')

variable {path : List String} {t after : List Char}

/-- A path has no blanks before it, and begins with a character of a key. -/
theorem skipBlanks_path (hne : path ≠ []) (t : List Char) :
    ∃ c rest, pathChars path ++ t = c :: rest ∧ StartsKey c
      ∧ Json.skipBlanks (pathChars path ++ t) = c :: rest := by
  obtain ⟨c, rest, hhead, hc⟩ := pathChars_head hne t
  refine ⟨c, rest, hhead, hc, ?_⟩
  rw [hhead]
  exact Json.skipBlanks_of_not_blank hc.not_blank rest

/-- An item that is made of other characters than quotes and brackets is the whole path. -/
theorem after_path {text : List Char} (h : pathChars path ++ ']' :: t = text ++ after)
    (htext : ∀ c ∈ text, isUnquoted c = true ∧ c ≠ ']') (hafter : EndsItem after) :
    after = ']' :: t := by
  obtain ⟨d, rest, hd, hends⟩ := hafter
  rcases List.append_eq_append_iff.mp h with ⟨text', rfl, hrest⟩ | ⟨path', hpath, rfl⟩
  · cases text' with
    | nil => exact hrest.symm
    | cons c text' =>
      obtain rfl := (List.cons.inj hrest).1
      exact absurd rfl (htext ']' (by simp)).2
  · cases path' with
    | nil => rfl
    | cons c path' =>
      -- the character after the item is one of a path
      exfalso
      have hc : StartsKey c ∨ c = '.' := by
        by_cases hquote : isUnquoted c = true
        · have hmem : c ∈ (pathChars path).takeWhile isUnquoted := by
            rw [hpath, List.takeWhile_append_of_pos fun a ha => (htext a ha).1,
              List.takeWhile_cons_of_pos hquote]
            simp
          exact (unquoted_pathChars path c hmem).imp_left .inl
        · simp only [isUnquoted, Bool.and_eq_true, bne_iff_ne, not_and_or, not_not] at hquote
          exact .inl (.inr hquote)
      have hblank : Json.isBlank c = false := by
        rcases hc with hc | rfl
        · exact hc.not_blank
        · decide
      rw [List.cons_append, Json.skipBlanks_of_not_blank hblank] at hd
      obtain rfl := (List.cons.inj hd).1
      rcases hends with rfl | rfl <;> exact absurd hc (by decide)

/-- A string that a path spells is the whole path: it ends with its key, and no item ends at a
    dot. -/
theorem after_string (hne : path ≠ []) {body : List Char} {str : String}
    (hs : pathChars path ++ ']' :: t = '"' :: body)
    (hbody : Json.decode body = .ok (str, after)) (hafter : EndsItem after) :
    after = ']' :: t := by
  obtain ⟨k, tail, hpath, htail⟩ := pathChars_eq hne
  rw [hpath] at hs
  rcases keyChars_cases k with hbare | ⟨rest, hquote⟩ | hquote
  · obtain ⟨d, others, hkey, -⟩ := keyChars_head k
    rw [hkey, List.cons_append, List.cons_append] at hs
    have hd := hbare d (by rw [hkey]; exact List.mem_cons_self)
    rw [(List.cons.inj hs).1] at hd
    exact absurd hd (by decide)
  · rw [hquote] at hs
    exact absurd (List.cons.inj hs).1 (by decide)
  · rw [hquote] at hs
    obtain rfl : k.flatMap escape ++ '"' :: (tail ++ ']' :: t) = body := by
      simpa using (List.cons.inj hs).2
    rw [Json.decode_flatMap decodeFrom_escape] at hbody
    cases hbody
    cases tail with
    | nil => rfl
    | cons d tail =>
      obtain rfl := htail d rfl
      obtain ⟨e, rest, he, hends⟩ := hafter
      rw [List.cons_append, Json.skipBlanks_of_not_blank (by decide)] at he
      obtain rfl := (List.cons.inj he).1
      exact absurd hends (by decide)

/-- **An item that a path spells** is the whole path. -/
theorem spells_path (hne : path ≠ []) {v : Value} (h : Spells (pathChars path ++ ']' :: t) v after)
    (hafter : EndsItem after) : after = ']' :: t := by
  obtain ⟨c, rest, hhead, hc, hskip⟩ := skipBlanks_path hne (']' :: t)
  have hword (word : List Char) (hword : word.all fun c => isUnquoted c && c != ']')
      (hs : Json.skipBlanks (pathChars path ++ ']' :: t) = word ++ after) : after = ']' :: t := by
    refine after_path (hhead.trans (hskip.symm.trans hs)) (fun c hc => ?_) hafter
    simpa using List.all_eq_true.mp hword c hc
  cases h with
  | null hs => exact hword "null".toList rfl hs
  | true hs => exact hword "true".toList rfl hs
  | false hs => exact hword "false".toList rfl hs
  | number hs htext _ =>
    refine after_path (hhead.trans (hskip.symm.trans hs)) (fun c hc => ?_) hafter
    have hnumeral := htext.chars c hc
    have hne (a : Char) (ha : Json.isNumeralChar a = false) : c ≠ a := by
      rintro rfl
      rw [hnumeral] at ha
      cases ha
    simp only [isUnquoted, Bool.and_eq_true, bne_iff_ne]
    exact ⟨⟨hne _ (by decide), hne _ (by decide)⟩, hne _ (by decide)⟩
  | string hs hbody =>
    rw [hskip, ← hhead] at hs
    exact after_string hne hs hbody hafter
  | array hs =>
    rw [hskip] at hs
    exact absurd (List.cons.inj hs).1 (hc.ne (by decide))
  | object hs =>
    rw [hskip] at hs
    exact absurd (List.cons.inj hs).1 (hc.ne (by decide))

/-- What follows an item is the end of the list or one more item, which begins with a comma. -/
theorem endsItem_of_items {vs : List Value} {rest : List Char}
    (h : SpellsItems .false after vs rest) : EndsItem after := by
  cases h with
  | close hs => exact ⟨_, _, hs, .inl rfl⟩
  | next hs => exact ⟨_, _, hs, .inr rfl⟩

/-- Behind its last item a list ends with the bracket that is there. -/
theorem rest_of_items {vs : List Value} {rest : List Char}
    (h : SpellsItems .false (']' :: t) vs rest) : rest = t := by
  have hskip : Json.skipBlanks (']' :: t) = ']' :: t := Json.skipBlanks_of_not_blank (by decide) t
  cases h with
  | close hs => exact (List.cons.inj (hskip.symm.trans hs)).2.symm
  | next hs => exact absurd (List.cons.inj (hskip.symm.trans hs)).1 (by decide)

/-- **The list that a path spells** ends with the bracket behind it. -/
theorem spellsItems_path (hne : path ≠ []) {vs : List Value} {rest : List Char}
    (h : SpellsItems .true (pathChars path ++ ']' :: t) vs rest) : rest = t := by
  cases h with
  | close hs =>
    obtain ⟨c, left, -, hc, hskip⟩ := skipBlanks_path hne (']' :: t)
    rw [hskip] at hs
    exact absurd (List.cons.inj hs).1 (hc.ne (by decide))
  | first hv hitems =>
    rw [spells_path hne hv (endsItem_of_items hitems)] at hitems
    exact rest_of_items hitems

/-- **The list that a section spells** ends with its header. -/
theorem spells_section {x : Section} (hpath : x.path ≠ []) {more rest : List Char} {v : Value}
    (h : Spells (x.chars ++ more) v rest) : rest = '\n' :: (lines x.entries ++ more) := by
  unfold Section.chars at h
  cases hrow : x.row with
  | false =>
    rw [hrow, if_neg Bool.false_ne_true] at h
    simp only [List.cons_append, List.append_assoc] at h
    obtain ⟨vs, -, hitems⟩ := h.of_bracket
    exact spellsItems_path hpath hitems
  | true =>
    rw [hrow, if_pos rfl, rowSection] at h
    simp only [List.cons_append, List.append_assoc] at h
    obtain ⟨vs, -, hitems⟩ := h.of_bracket
    cases hitems with
    | close hs =>
      rw [Json.skipBlanks_of_not_blank (by decide)] at hs
      exact absurd (List.cons.inj hs).1 (by decide)
    | first hv hitems =>
      -- the list within the list ends with the first of the two brackets
      obtain ⟨ws, -, hinner⟩ := hv.of_bracket
      rw [spellsItems_path hpath hinner] at hitems
      exact rest_of_items hitems

/-! ### Tables without entries -/

/-- Tables one in another along a path, down to one without entries, or to a list of one such. -/
def lone (row : Bool) : (path : List String) → Value
  | [] => if row then .array [.object []] else .object []
  | k :: path => .object [(k, lone row path)]

/-- Entries without lines are tables. -/
theorem hasHeader_of_lines {k : String} {v : Value} {es : List (String × Value)}
    (h : lines ((k, v) :: es) = []) : hasHeader v = true ∧ lines es = [] := by
  have happend := lines_cons_append k v es []
  rw [h, List.append_nil] at happend
  by_cases hv : hasHeader v = true
  · rw [if_pos hv, List.append_nil] at happend
    exact ⟨hv, happend.symm⟩
  · rw [if_neg hv] at happend
    exact absurd happend.symm (by simp)

/-- A list of tables has a section for each of them. -/
theorem rowsFor_ne_nil (path : List String) {items : List Value} (hne : items ≠ [])
    (hall : items.all isTable = true) : rowsFor path items ≠ [] := by
  obtain ⟨v, items, rfl⟩ := List.exists_cons_of_ne_nil hne
  cases v with
  | object es => simp [rowsFor]
  | _ => cases hall

mutual

/-- **A value with one section**, which has no lines, is made of such tables, and its section is a
    header. -/
theorem lone_of_sectionsFor {path : List String} {x : Section} (hx : lines x.entries = []) :
    ∀ {v : Value}, sectionsFor path v = [x] →
      ∃ row path', v = lone row path' ∧ x = ⟨row, path ++ path', []⟩
  | .null, h => by cases h
  | .bool _, h => by cases h
  | .number _, h => by cases h
  | .string _, h => by cases h
  | .array [], h => by cases h
  | .array (v :: items), h => by
    rw [sectionsFor] at h
    split at h
    · next hall =>
      simp only [List.all_cons, Bool.and_eq_true] at hall
      cases v with
      | object es =>
        rw [rowsFor, List.cons_append, List.cons.injEq, List.append_eq_nil_iff] at h
        obtain ⟨rfl, hbelow, hrest⟩ := h
        have hes : es = [] := by
          by_contra hes
          exact sectionsIn_ne_nil path (List.isEmpty_iff.mpr hx) hes hbelow
        have hitems : items = [] := by
          by_contra hitems
          exact rowsFor_ne_nil path hitems hall.2.2 hrest
        exact ⟨true, [], by rw [hes, hitems]; rfl, by rw [hes, List.append_nil]⟩
      | _ => cases hall.2.1
    · cases h
  | .object es, h => by
    rw [sectionsFor] at h
    unfold ownSection at h
    split at h
    · -- the header is left out, so the section is below it
      next hleft =>
      simp only [Bool.and_eq_true] at hleft
      obtain ⟨row, path', -, hes⟩ := lone_of_sectionsIn hx (List.isEmpty_iff.mp hleft.1) h
      exact ⟨row, path', hes⟩
    · next hkept =>
      obtain ⟨rfl, -⟩ := List.cons.inj h
      have hes : es = [] := by simpa [hx] using hkept
      exact ⟨false, [], by rw [hes]; rfl, by rw [hes, List.append_nil]⟩

/-- A table without lines that has one section below it, and this one no lines, is made of such
    tables, at least one in it. -/
theorem lone_of_sectionsIn {path : List String} {x : Section} (hx : lines x.entries = []) :
    ∀ {es : List (String × Value)}, lines es = [] → sectionsIn path es = [x] →
      ∃ row path', path' ≠ [] ∧ Value.object es = lone row path' ∧ x = ⟨row, path ++ path', []⟩
  | [], _, h => by cases h
  | (k, v) :: rest, hlines, h => by
    obtain ⟨hv, hrest⟩ := hasHeader_of_lines hlines
    have hsection := sectionsFor_ne_nil (path ++ [k]) hv
    rw [sectionsIn] at h
    have hnone : sectionsIn path rest = [] := by
      rcases List.append_eq_cons_iff.mp h with ⟨hnil, -⟩ | ⟨_, -, hnil⟩
      · exact absurd hnil hsection
      · exact (List.append_eq_nil_iff.mp hnil.symm).2
    rw [hnone, List.append_nil] at h
    obtain rfl : rest = [] := by
      by_contra hne
      exact sectionsIn_ne_nil path (List.isEmpty_iff.mpr hrest) hne hnone
    obtain ⟨row, path', rfl, rfl⟩ := lone_of_sectionsFor hx h
    exact ⟨row, k :: path', List.cons_ne_nil _ _, rfl, by rw [List.append_assoc]; rfl⟩

end

/-! ### Texts that are recognised as JSON -/

/-- A character that begins a key is no white space. -/
theorem StartsKey.not_white {c : Char} (hc : StartsKey c) : Text.isWhiteSpace c = false := by
  have hvisible (hlow : 0x21 ≤ c.toNat) (hhigh : c.toNat ≤ 0x7E) : Text.isWhiteSpace c = false :=
    Json.isWhiteSpace_of_visible hlow hhigh
  rcases hc with hc | rfl | rfl
  · simp only [isBare, isDigit, Bool.or_eq_true, Bool.and_eq_true, decide_eq_true_eq, beq_iff_eq,
      Char.le_def, UInt32.le_iff_toNat_le] at hc
    rcases hc with (((⟨hlow, hhigh⟩ | ⟨hlow, hhigh⟩) | ⟨hlow, hhigh⟩) | rfl) | rfl
    · exact hvisible (Nat.le_trans (by decide) hlow) (Nat.le_trans hhigh (by decide))
    · exact hvisible (Nat.le_trans (by decide) hlow) (Nat.le_trans hhigh (by decide))
    · exact hvisible (Nat.le_trans (by decide) hlow) (Nat.le_trans hhigh (by decide))
    · decide
    · decide
  · decide
  · decide

/-- The text of a table has no white space before it. -/
theorem trimStart_tableChars (es : List (String × Value)) :
    Text.trimStart (tableChars es) = tableChars es := by
  have hhead := tableChars_head es
  cases htext : tableChars es with
  | nil => rfl
  | cons c t =>
    have hc : Text.isWhiteSpace c = false := by
      rcases hhead c (by rw [htext]; rfl) with rfl | hc
      · decide
      · exact hc.not_white
    rw [Text.trimStart, List.dropWhile_cons_of_neg (by rw [hc]; decide)]

/-- A text of a table that begins with a bracket begins with a section. -/
theorem tableChars_bracket {es : List (String × Value)} {t : List Char}
    (h : tableChars es = '[' :: t) :
    lines es = [] ∧ ∃ x xs, sectionsIn [] es = x :: xs ∧ tableChars es = x.chars
      ++ if xs.isEmpty then []
        else '\n' :: ((xs.map Section.chars).intersperse ['\n']).flatten := by
  have htext : tableChars es = ((if (lines es).isEmpty then (sectionsIn [] es).map Section.chars
      else lines es :: (sectionsIn [] es).map Section.chars).intersperse ['\n']).flatten := by
    rw [← sectionsBelow_eq]
    rfl
  rcases lines_head es with hlines | ⟨c, rest, hlines, hc⟩
  · refine ⟨hlines, ?_⟩
    rw [hlines, List.isEmpty_nil, if_pos rfl] at htext
    cases hsections : sectionsIn [] es with
    | nil =>
      rw [hsections] at htext
      exact absurd (h.symm.trans htext) (by simp)
    | cons x xs =>
      refine ⟨x, xs, rfl, ?_⟩
      rw [htext, hsections, List.map_cons, intersperse_cons, List.isEmpty_map]
  · rw [hlines, List.isEmpty_cons, if_neg Bool.false_ne_true, intersperse_cons, List.cons_append, h]
      at htext
    exact absurd (List.cons.inj htext).1.symm (hc.ne (by decide))

/-- **What is recognised as JSON** is the text of tables one in another without entries, which is a
    header. -/
theorem lone_of_sniff {P : Value → Prop} {es : List (String × Value)} (hes : EveryEntry P es)
    (h : Json.sniff (String.ofList (tableChars es)) = true) :
    ∃ row path, path ≠ [] ∧ Value.object es = lone row path
      ∧ tableChars es = Section.chars ⟨row, path, []⟩ := by
  obtain ⟨v, hparse, hv⟩ := (Json.sniff_iff _).mp h
  obtain ⟨rest, hvalue, hrest⟩ := Json.parseChars_eq_ok_iff.mp hparse
  rw [String.toList_ofList, trimStart_tableChars] at hvalue
  obtain ⟨c, t, hskip, hc⟩ := Json.head_of_isContainer hvalue hv
  have htext : tableChars es = c :: t := by
    rw [← trimStart_tableChars]
    exact Json.trimStart_of_skipBlanks hskip (by rcases hc with rfl | rfl <;> decide)
  obtain rfl : c = '[' := by
    rcases hc with rfl | rfl
    · exact absurd (tableChars_head es '\x7b' (by rw [htext]; rfl)) (by decide)
    · rfl
  obtain ⟨hlines, x, xs, hsections, hchars⟩ := tableChars_bracket htext
  have hx := sectionsIn_spec [] hes x (by rw [hsections]; exact List.mem_cons_self)
  rw [hchars] at hvalue
  -- only blanks follow the header, so there are no lines below it and no other section
  rw [spells_section hx.1 (Json.value_spells hvalue)] at hrest
  have hblank := List.dropWhile_eq_nil_iff.mp hrest
  have hbelow : lines x.entries = [] := by
    rcases lines_head x.entries with hnone | ⟨d, tail, hline, hd⟩
    · exact hnone
    · have hd' := hblank d (by rw [hline]; simp)
      rw [hd.not_blank] at hd'
      cases hd'
  cases xs with
  | nil =>
    obtain ⟨row, path, hne, hes, rfl⟩ := lone_of_sectionsIn hbelow hlines hsections
    exact ⟨row, path, hne, hes, by simpa using hchars⟩
  | cons y ys =>
    obtain ⟨tail, hy⟩ := y.chars_head
    have hbracket := hblank '[' (by
      rw [List.isEmpty_cons, if_neg Bool.false_ne_true, List.map_cons, intersperse_cons, hy]
      simp)
    exact absurd hbracket (by decide)

/-! ### Texts that are recognised as TOML -/

/-- A table with an entry has a text, as the entry has a line or a section. -/
theorem tableChars_ne_nil {es : List (String × Value)} (hne : es ≠ []) : tableChars es ≠ [] := by
  unfold tableChars
  dsimp only
  rw [sectionsBelow_eq]
  rcases lines_head es with hlines | ⟨c, rest, hlines, -⟩
  · have hsections := sectionsIn_ne_nil [] (List.isEmpty_iff.mpr hlines) hne
    obtain ⟨x, xs, hx⟩ := List.exists_cons_of_ne_nil hsections
    obtain ⟨rest, hchars⟩ := x.chars_head
    rw [hlines, hx, List.isEmpty_nil, if_pos rfl, List.map_cons, intersperse_cons, hchars]
    exact List.cons_ne_nil _ _
  · rw [hlines, List.isEmpty_cons, if_neg Bool.false_ne_true, intersperse_cons]
    exact List.cons_ne_nil _ _

/-- **A legible text** of a table with an entry is recognised as TOML. -/
theorem sniff_tableChars {es : List (String × Value)} (hwell : (Value.object es).WellFormed)
    (hfinite : (Value.object es).FloatsFinite) (hpresent : (Value.object es).Every IsPresent)
    (hne : es ≠ []) (hlegible : IsLegible (.object es)) :
    sniff (String.ofList (tableChars es)) = true := by
  have htable := (readTable_tableChars hwell hfinite hpresent).1 hlegible.1
  rw [(reviveEntries_ofEntries _).1 hlegible.2] at htable
  -- its first character is no white space, so it is not blank
  have htrim : Text.trim (tableChars es) ≠ [] := by
    intro hblank
    have hall := List.dropWhile_eq_nil_iff.mp (List.reverse_eq_nil_iff.mp hblank)
    have hstart := trimStart_tableChars es
    obtain ⟨c, t, htext⟩ := List.exists_cons_of_ne_nil (tableChars_ne_nil hne)
    rw [hstart, htext] at hall
    have hc := hall c (by simp)
    rw [htext, Text.trimStart, List.dropWhile_cons_of_pos hc] at hstart
    have hlength := (List.dropWhile_suffix (l := t) Text.isWhiteSpace).length_le
    rw [hstart] at hlength
    simp at hlength
  rw [sniff, String.toList_ofList, htable, List.isEmpty_eq_false_iff.mpr htrim]
  rfl

end SchemaEmbed.Toml
