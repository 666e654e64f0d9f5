import SchemaEmbed.Json.Printer
import SchemaEmbed.Json.Reader
import SchemaEmbed.Proofs.Decimal.Text
import SchemaEmbed.Proofs.Entries
import SchemaEmbed.Proofs.Json.Numeral
import SchemaEmbed.Proofs.Json.Parsed
import SchemaEmbed.Proofs.Json.Quoted
import SchemaEmbed.Proofs.Outcome
import SchemaEmbed.Proofs.Value

namespace SchemaEmbed.Json

/-!
# JSON is read as it was written

A value without floats is written, and read back from its text, unless it nests too deep. The
writer has no limit of nesting while the reader has one, so this says both what is read and when.

* `value_int` — integers where a value is expected;
* `itemAhead_first` / `memberAhead_first` / … — what stands next inside a container;
* `ReadsIf` — a result that is there exactly if containers nest no deeper than they may;
* `value_pretty` — a value is read as it was written, and what follows it is left;
* `parse_render` / `parse_render_deep` — so is a text, if it does not nest too deep.

The texts of floats are the subject of other files, as they may be read as other floats.
-/

open Value (Every EveryItem EveryEntry IsWellFormed IsFloatFree IsFloatFinite)

/-- Whether a value itself can be told from its text: it is as documents have it, and no float. -/
def IsPlain (v : Value) : Prop := IsWellFormed v ∧ IsFloatFree v

/-- A value without floats that is as documents have it is plain everywhere. -/
theorem every_isPlain {v : Value} (hv : v.WellFormed) (hfloat : v.FloatFree) : Every IsPlain v :=
  Value.every_and hv hfloat

/-! ### Blanks -/

/-- What is no blank is not skipped. -/
theorem skipBlanks_of_not_blank {c : Char} (h : isBlank c = false) (s : List Char) :
    skipBlanks (c :: s) = c :: s := by
  rw [skipBlanks, List.dropWhile_cons, h]
  rfl

/-- A line break and the indentation after it are skipped. -/
theorem skipBlanks_newline (level : Nat) (s : List Char) :
    skipBlanks (newline level ++ s) = skipBlanks s := by
  have hspaces (n : Nat) : skipBlanks (List.replicate n ' ' ++ s) = skipBlanks s := by
    induction n with
    | zero => rfl
    | succ n ih => rw [List.replicate_succ, List.cons_append]; exact ih
  exact hspaces (2 * level)

/-! ### Numbers -/

/-- A digit is different from what is no digit. -/
theorem ne_of_isDigit {c d : Char} (h : isDigit c = true) (hd : isDigit d = false) : c ≠ d := by
  rintro rfl
  rw [h] at hd
  cases hd

/-- A digit is no blank. -/
theorem isBlank_of_isDigit {c : Char} (h : isDigit c = true) : isBlank c = false := by
  simp only [isBlank, Bool.or_eq_false_iff, beq_eq_false_iff_ne]
  exact ⟨⟨⟨ne_of_isDigit h (by decide), ne_of_isDigit h (by decide)⟩, ne_of_isDigit h (by decide)⟩,
    ne_of_isDigit h (by decide)⟩

/-- Where a value is expected, a digit begins a number. -/
theorem value_digit (fuel depth : Nat) {c : Char} (hc : isDigit c = true) (s : List Char) :
    value (fuel + 1) depth (c :: s)
      = (numeral false (c :: s)).map fun (n, rest) => (.number n, rest) := by
  rw [value, skipBlanks_of_not_blank (isBlank_of_isDigit hc)]
  -- every head before the last that `value` tells apart is no digit
  split
  case h_9 c' rest _ _ _ _ _ _ _ heq =>
    obtain ⟨rfl, rfl⟩ := List.cons.inj heq
    rw [if_pos hc]
  case h_1 => contradiction
  all_goals next heq => exact absurd (List.cons.inj heq).1 (ne_of_isDigit hc (by decide))

/-- An integer in range is read where a value is expected. -/
theorem value_int (fuel depth : Nat) {i : Int} (hmin : Number.minInt ≤ i) (hmax : i ≤ Number.maxInt)
    {rest : List Char} (hrest : Ends rest) :
    value (fuel + 1) depth ((toString i).toList ++ rest) = .ok (.number (.int i), rest) := by
  rw [toList_toString_int]
  -- the minus is read by `value`, and the digits after it by `numeral`
  by_cases hneg : i < 0
  · have hnumeral : numeral true (Nat.toDigits 10 i.natAbs ++ rest) = .ok (.int i, rest) := by
      rw [numeral_toDigits (by simp only [Number.minInt] at hmin; unfold maxSignificand; omega)
        (fun _ => ⟨by omega, by omega⟩) hrest, if_pos rfl]
      rw [show -(i.natAbs : Int) = i by omega]
    rw [if_pos hneg, List.cons_append, value, skipBlanks_of_not_blank (by decide)]
    simp only [hnumeral]
    rfl
  · have hnumeral : numeral false (Nat.toDigits 10 i.natAbs ++ rest) = .ok (.int i, rest) := by
      rw [numeral_toDigits (by simp only [Number.maxInt] at hmax; unfold maxSignificand; omega)
        (fun h => by cases h) hrest, if_neg (by decide)]
      rw [show (i.natAbs : Int) = i by omega]
    rw [if_neg hneg]
    obtain ⟨c, ds, hds, hc, -⟩ := toDigits_head i.natAbs
    rw [hds, List.cons_append] at hnumeral ⊢
    rw [value_digit fuel depth hc, hnumeral]
    rfl

/-! ### What stands at the head -/

/-- The text of a number begins with a digit or a minus. -/
theorem numberChars_head {n : Number} (hn : IsFloatFinite (.number n)) :
    ∃ c t, numberChars n = c :: t ∧ (isDigit c = true ∨ c = '-') := by
  cases n with
  | int i =>
    obtain ⟨c, t, hdigits, hc, -⟩ := toDigits_head i.natAbs
    rw [numberChars, toList_toString_int, hdigits]
    split
    · exact ⟨'-', c :: t, rfl, .inr rfl⟩
    · exact ⟨c, t, rfl, .inl hc⟩
  | float x =>
    obtain ⟨m, hm, hchars, -⟩ := FloatLayout.json.renderChars_spec hn
    obtain ⟨c, t, hhead, hc⟩ := hm.head_chars FloatLayout.json.plus
    rw [numberChars, hchars, hhead]
    split
    · exact ⟨'-', c :: t, rfl, .inr rfl⟩
    · exact ⟨c, t, rfl, .inl (isDigit_of_isDigit hc)⟩

/-- A digit or a minus is no blank. -/
theorem isBlank_of_head {c : Char} (h : isDigit c = true ∨ c = '-') : isBlank c = false := by
  rcases h with h | rfl
  · exact isBlank_of_isDigit h
  · rfl

/-- The text of a value begins with neither a blank nor a closing bracket. -/
theorem pretty_head {v : Value} (hv : IsFloatFinite v) (level : Nat) :
    ∃ c s, pretty level v = c :: s ∧ isBlank c = false ∧ c ≠ ']' := by
  rcases v with _ | (_ | _) | n | s | (_ | ⟨w, rest⟩) | (_ | ⟨⟨k, w⟩, rest⟩)
  case number =>
    obtain ⟨c, t, hchars, hc⟩ := numberChars_head hv
    refine ⟨c, t, hchars, isBlank_of_head hc, ?_⟩
    rintro rfl
    revert hc
    decide
  all_goals exact ⟨_, _, rfl, by decide, by decide⟩

/-- A character that would continue no number ends one. -/
theorem ends_cons {c : Char} (h : isDigit c = false ∧ c ≠ '.' ∧ c ≠ 'e' ∧ c ≠ 'E')
    (s : List Char) : Ends (c :: s) := by
  intro d hd
  cases hd
  exact h

/-- A value ends before the next item or the line of the closing bracket. -/
theorem ends_items (level outer : Nat) (vs : List Value) (s : List Char) :
    Ends (prettyItems level vs ++ (newline outer ++ s)) := by
  cases vs with
  | nil => exact ends_cons (by decide) _
  | cons v rest => exact ends_cons (by decide) _

/-- A value ends before the next member or the line of the closing brace. -/
theorem ends_members (level outer : Nat) (es : List (String × Value)) (s : List Char) :
    Ends (prettyEntries level es ++ (newline outer ++ s)) := by
  cases es with
  | nil => exact ends_cons (by decide) _
  | cons e rest => exact ends_cons (by decide) _

/-! ### What stands next inside a container -/

/-- The first item stands on a line of its own. -/
theorem itemAhead_first {v : Value} (hv : IsFloatFinite v) (level : Nat) (s : List Char) :
    itemAhead true (newline level ++ (pretty level v ++ s))
      = .ok (.entry (pretty level v ++ s)) := by
  obtain ⟨c, t, hpretty, hblank, hclose⟩ := pretty_head hv level
  rw [itemAhead, skipBlanks_newline, hpretty, List.cons_append, skipBlanks_of_not_blank hblank]
  split
  · next heq => cases heq
  · next heq => exact absurd (List.cons.inj heq).1 hclose
  · next heq => rw [if_pos rfl, heq]

/-- One more item stands on a line of its own after a comma. -/
theorem itemAhead_next {v : Value} (hv : IsFloatFinite v) (level : Nat) (s : List Char) :
    itemAhead false (',' :: (newline level ++ (pretty level v ++ s)))
      = .ok (.entry (pretty level v ++ s)) := by
  obtain ⟨c, t, hpretty, hblank, hclose⟩ := pretty_head hv level
  have hskip : skipBlanks (newline level ++ c :: (t ++ s)) = c :: (t ++ s) := by
    rw [skipBlanks_newline]
    exact skipBlanks_of_not_blank hblank _
  rw [itemAhead, skipBlanks_of_not_blank (by decide), hpretty, List.cons_append]
  simp [hskip, hclose]

/-- The closing bracket stands on a line of its own. -/
theorem itemAhead_close (first : Bool) (level : Nat) (rest : List Char) :
    itemAhead first (newline level ++ ']' :: rest) = .ok (.close rest) := by
  rw [itemAhead, skipBlanks_newline, skipBlanks_of_not_blank (by decide)]
  rfl

/-- The first member stands on a line of its own. -/
theorem memberAhead_first (level : Nat) (s : List Char) :
    memberAhead true (newline level ++ '"' :: s) = .ok (.entry s) := by
  rw [memberAhead, skipBlanks_newline, skipBlanks_of_not_blank (by decide)]
  rfl

/-- One more member stands on a line of its own after a comma. -/
theorem memberAhead_next (level : Nat) (s : List Char) :
    memberAhead false (',' :: (newline level ++ '"' :: s)) = .ok (.entry s) := by
  have hskip : skipBlanks (newline level ++ '"' :: s) = '"' :: s := by
    rw [skipBlanks_newline]
    exact skipBlanks_of_not_blank (by decide) _
  rw [memberAhead, skipBlanks_of_not_blank (by decide)]
  simp [hskip]

/-- The closing brace stands on a line of its own. -/
theorem memberAhead_close (first : Bool) (level : Nat) (rest : List Char) :
    memberAhead first (newline level ++ '}' :: rest) = .ok (.close rest) := by
  rw [memberAhead, skipBlanks_newline, skipBlanks_of_not_blank (by decide)]
  rfl

/-! ### Results that depend on the nesting -/

/-- Whether a result is `a` if the containers nest no deeper than they may, and that they
    nest too deep otherwise. -/
def ReadsIf {α : Type} (fits : Prop) (r : Except Fault α) (a : α) : Prop :=
  (fits → r = .ok a) ∧ (¬ fits → ∃ left, r = .error (.peek .recursionLimit left))

variable {α β : Type} {fits fits' : Prop}

/-- What is read whatever the nesting is read if it fits. -/
theorem ReadsIf.of_ok {r : Except Fault α} {a : α} (h : r = .ok a) (hfits : fits) :
    ReadsIf fits r a :=
  ⟨fun _ => h, fun hnot => absurd hfits hnot⟩

/-- The nesting that is allowed can be said in any other way. -/
theorem ReadsIf.congr {r : Except Fault α} {a : α} (h : ReadsIf fits r a)
    (hiff : fits ↔ fits') : ReadsIf fits' r a :=
  ⟨fun hfits => h.1 (hiff.mpr hfits), fun hnot => h.2 (mt hiff.mp hnot)⟩

/-- A result that is changed after it was read is there under the same condition. -/
theorem ReadsIf.map {r : Except Fault α} {a : α} (h : ReadsIf fits r a) (f : α → β) :
    ReadsIf fits (r.map f) (f a) := by
  refine ⟨fun hfits => by rw [h.1 hfits]; rfl, fun hnot => ?_⟩
  obtain ⟨left, hleft⟩ := h.2 hnot
  exact ⟨left, by rw [hleft]; rfl⟩

/-- One reading after another is there if both are, and what nests too deep first is what is
    reported. -/
theorem ReadsIf.bind {r : Except Fault α} {a : α} {f : α → Except Fault β} {b : β}
    (h : ReadsIf fits r a) (h' : ReadsIf fits' (f a) b) : ReadsIf (fits ∧ fits') (r >>= f) b := by
  constructor
  · rintro ⟨hfits, hfits'⟩
    rw [h.1 hfits, ok_bind]
    exact h'.1 hfits'
  · -- the reading that fails first is the one that nests too deep
    intro hnot
    by_cases hfits : fits
    · rw [h.1 hfits, ok_bind]
      exact h'.2 fun hfits' => hnot ⟨hfits, hfits'⟩
    · obtain ⟨left, hleft⟩ := h.2 hfits
      exact ⟨left, by rw [hleft]; rfl⟩

/-- A reading after which nothing can fail is there under its own condition. -/
theorem ReadsIf.bind_ok {r : Except Fault α} {a : α} {f : α → Except Fault β} {b : β}
    (h : ReadsIf fits r a) (hf : f a = .ok b) : ReadsIf fits (r >>= f) b :=
  (h.bind (.of_ok hf trivial)).congr (iff_of_eq (and_true fits))

/-- An item and the items after it are read if the item and they nest no deeper than they may. -/
theorem readsIf_items {first : Bool} {s text after : List Char} {fuel depth : Nat} {v : Value}
    {vs : List Value} {rest : List Char} (hahead : itemAhead first s = .ok (.entry text))
    (hv : ReadsIf fits (value fuel depth text) (v, after))
    (hvs : ReadsIf fits' (items fuel depth false after) (vs, rest)) :
    ReadsIf (fits ∧ fits') (items (fuel + 1) depth first s) (v :: vs, rest) := by
  rw [items, hahead, ok_bind]
  exact hv.bind (hvs.bind_ok rfl)

/-- A member and the members after it are read if its value and they nest no deeper than they
    may. -/
theorem readsIf_members (key : String) {first : Bool} {s text after : List Char}
    {fuel depth : Nat} {v : Value} {es : List (String × Value)} {rest : List Char}
    (hahead : memberAhead first s
      = .ok (.entry (key.toList.flatMap escape ++ '"' :: ':' :: ' ' :: text)))
    (hv : ReadsIf fits (value (fuel + 1) depth text) (v, after))
    (hes : ReadsIf fits' (members (fuel + 1) depth false after) (es, rest)) :
    ReadsIf (fits ∧ fits') (members (fuel + 2) depth first s) ((key, v) :: es, rest) := by
  have hblank : value (fuel + 1) depth (' ' :: text) = value (fuel + 1) depth text := by
    rw [value, value]
    rfl
  rw [members, hahead, ok_bind]
  simp only [decode_encode, ok_bind]
  rw [show colon (':' :: ' ' :: text) = .ok (' ' :: text) from rfl, ok_bind, hblank]
  exact hv.bind (hes.bind_ok rfl)

/-- A list is read if its items are with one container less to nest in. -/
theorem readsIf_array {fuel n : Nat} {s : List Char} {vs : List Value} {rest : List Char}
    (h : ∀ d, ReadsIf (n ≤ d) (items fuel d true s) (vs, rest)) (depth : Nat) :
    ReadsIf (n + 1 ≤ depth) (value (fuel + 1) depth ('[' :: s)) (.array vs, rest) := by
  rw [value, skipBlanks_of_not_blank (by decide)]
  cases depth with
  | zero => exact ⟨fun hle => absurd hle (Nat.not_succ_le_zero n), fun _ => ⟨_, rfl⟩⟩
  | succ d => exact ((h d).map _).congr Nat.succ_le_succ_iff.symm

/-- An object is read if its members are with one container less to nest in, and as its keys are
    different nothing is dropped. -/
theorem readsIf_object {fuel n : Nat} {s : List Char} {es : List (String × Value)}
    {rest : List Char} (hkeys : (Entries.keys es).Nodup)
    (h : ∀ d, ReadsIf (n ≤ d) (members fuel d true s) (es, rest)) (depth : Nat) :
    ReadsIf (n + 1 ≤ depth) (value (fuel + 1) depth ('{' :: s)) (.object es, rest) := by
  rw [value, skipBlanks_of_not_blank (by decide)]
  cases depth with
  | zero => exact ⟨fun hle => absurd hle (Nat.not_succ_le_zero n), fun _ => ⟨_, rfl⟩⟩
  | succ d =>
    have hmap := (h d).map fun p => (Value.object (Entries.ofList p.1), p.2)
    rw [Entries.ofList_eq_self hkeys] at hmap
    exact hmap.congr Nat.succ_le_succ_iff.symm

/-! ### The text of containers, with what follows it -/

/-- A list that is not empty is its bracket, a line for each item, and a line for the closing
    bracket. -/
theorem pretty_array_append (level : Nat) (v : Value) (vs : List Value) (rest : List Char) :
    pretty level (.array (v :: vs)) ++ rest
      = '[' :: (newline (level + 1) ++ (pretty (level + 1) v ++ (prettyItems (level + 1) vs
        ++ (newline level ++ ']' :: rest)))) := by
  simp [pretty]

/-- An object that is not empty is its brace, a line for each member, and a line for the closing
    brace. -/
theorem pretty_object_append (level : Nat) (k : String) (v : Value)
    (es : List (String × Value)) (rest : List Char) :
    pretty level (.object ((k, v) :: es)) ++ rest
      = '{' :: (newline (level + 1) ++ '"' :: (k.toList.flatMap escape ++ '"' :: ':' :: ' ' ::
        (pretty (level + 1) v ++ (prettyEntries (level + 1) es
          ++ (newline level ++ '}' :: rest))))) := by
  simp [pretty, encode]

/-- One more item is a comma and a line before the others. -/
theorem prettyItems_cons_append (level : Nat) (v : Value) (vs : List Value) (rest : List Char) :
    prettyItems level (v :: vs) ++ rest
      = ',' :: (newline level ++ (pretty level v ++ (prettyItems level vs ++ rest))) := by
  simp [prettyItems]

/-- One more member is a comma and a line before the others. -/
theorem prettyEntries_cons_append (level : Nat) (k : String) (v : Value)
    (es : List (String × Value)) (rest : List Char) :
    prettyEntries level ((k, v) :: es) ++ rest
      = ',' :: (newline level ++ '"' :: (k.toList.flatMap escape ++ '"' :: ':' :: ' ' ::
        (pretty level v ++ (prettyEntries level es ++ rest)))) := by
  simp [prettyEntries, encode]

/-! ### Values -/

/-- What is no container is read as it was written. -/
theorem scalar_pretty {v : Value} (hv : IsPlain v) (hscalar : v.depth = 0) (level : Nat)
    {fuel : Nat} (hfuel : 2 * (pretty level v).length ≤ fuel) (depth : Nat) {rest : List Char}
    (hrest : Ends rest) :
    ReadsIf (v.depth ≤ depth) (value fuel depth (pretty level v ++ rest)) (v, rest) := by
  refine .of_ok ?_ (by omega)
  obtain ⟨c, t, hpretty, -⟩ := pretty_head hv.2.isFloatFinite level
  rw [hpretty, List.length_cons] at hfuel
  obtain ⟨fuel, rfl⟩ : ∃ f, fuel = f + 1 := ⟨fuel - 1, by omega⟩
  rcases v with _ | (_ | _) | (i | x) | str | vs | es
  case null => rw [value]; rfl
  case bool.false => rw [value]; rfl
  case bool.true => rw [value]; rfl
  case number.int => exact value_int fuel depth hv.1.1 hv.1.2 hrest
  case number.float => exact hv.2.elim
  case string =>
    rw [value]
    show (decode (str.toList.flatMap escape ++ ['"'] ++ rest)).map _ = _
    rw [List.append_assoc, List.singleton_append, decode_encode]
    rfl
  case array => cases hscalar
  case object => cases hscalar

mutual

-- Every step that reads takes one of the fuel and is for a character of the text, or for the
-- end of a container; twice the length of the text is enough for both.

/-- **A value is read as it was written** if its containers nest no deeper than they may,
    and only then. -/
theorem value_pretty (level : Nat) : ∀ {v : Value}, Every IsPlain v → ∀ {fuel : Nat},
    2 * (pretty level v).length ≤ fuel → ∀ (depth : Nat) {rest : List Char}, Ends rest →
      ReadsIf (v.depth ≤ depth) (value fuel depth (pretty level v ++ rest)) (v, rest)
  | .array [], _, fuel, hfuel, depth, rest, _ => by
    simp only [pretty, List.length_cons, List.length_nil] at hfuel
    obtain ⟨fuel, rfl⟩ : ∃ f, fuel = f + 2 := ⟨fuel - 2, by omega⟩
    refine readsIf_array (fun d => .of_ok ?_ (Nat.zero_le d)) depth
    rw [items]
    rfl
  | .array (v :: vs), hv, fuel, hfuel, depth, rest, _ => by
    obtain ⟨-, hv, hvs⟩ := hv
    simp only [pretty, List.length_cons, List.length_append, List.length_nil] at hfuel
    obtain ⟨fuel, rfl⟩ : ∃ f, fuel = f + 2 := ⟨fuel - 2, by omega⟩
    -- on `d` levels the first item is read, and then the others up to the closing bracket
    have hfirst (d : Nat) := value_pretty (level + 1) hv (show _ ≤ fuel by omega) d
      (ends_items (level + 1) level vs (']' :: rest))
    have hitems (d : Nat) := (readsIf_items
      (itemAhead_first hv.head.2.isFloatFinite (level + 1) _) (hfirst d)
      (items_pretty (level + 1) level hvs (show _ ≤ fuel by omega) d)).congr
        (Nat.max_le (a := v.depth)).symm
    rw [pretty_array_append]
    exact readsIf_array hitems depth
  | .object [], _, fuel, hfuel, depth, rest, _ => by
    simp only [pretty, List.length_cons, List.length_nil] at hfuel
    obtain ⟨fuel, rfl⟩ : ∃ f, fuel = f + 2 := ⟨fuel - 2, by omega⟩
    refine readsIf_object (by exact List.nodup_nil) (fun d => .of_ok ?_ (Nat.zero_le d)) depth
    rw [members]
    rfl
  | .object ((k, v) :: es), hv, fuel, hfuel, depth, rest, _ => by
    obtain ⟨hkeys, hv, hes⟩ := hv
    simp only [pretty, encode, List.length_cons, List.length_append, List.length_nil] at hfuel
    obtain ⟨fuel, rfl⟩ : ∃ f, fuel = f + 3 := ⟨fuel - 3, by omega⟩
    -- a member takes two steps more than its value, one for its key and one for itself
    have hfirst (d : Nat) := value_pretty (level + 1) hv (show _ ≤ fuel + 1 by omega) d
      (ends_members (level + 1) level es ('}' :: rest))
    have hmembers (d : Nat) := (readsIf_members k (memberAhead_first (level + 1) _) (hfirst d)
      (members_pretty (level + 1) level hes (show _ ≤ fuel + 1 by omega) d)).congr
        (Nat.max_le (a := v.depth)).symm
    rw [pretty_object_append]
    exact readsIf_object hkeys.1 hmembers depth
  | .null, hv, _, hfuel, depth, _, hrest => scalar_pretty hv rfl level hfuel depth hrest
  | .bool _, hv, _, hfuel, depth, _, hrest => scalar_pretty hv rfl level hfuel depth hrest
  | .number _, hv, _, hfuel, depth, _, hrest => scalar_pretty hv rfl level hfuel depth hrest
  | .string _, hv, _, hfuel, depth, _, hrest => scalar_pretty hv rfl level hfuel depth hrest

/-- The items after the first one and the closing bracket are read as they were written, if they
    nest no deeper than they may. -/
theorem items_pretty (level outer : Nat) : ∀ {vs : List Value}, EveryItem IsPlain vs →
    ∀ {fuel : Nat}, 2 * (prettyItems level vs).length + 1 ≤ fuel →
      ∀ (depth : Nat) {rest : List Char},
        ReadsIf (Value.depthItems vs ≤ depth)
          (items fuel depth false (prettyItems level vs ++ (newline outer ++ ']' :: rest)))
          (vs, rest)
  | [], _, fuel, hfuel, depth, rest => by
    obtain ⟨fuel, rfl⟩ : ∃ f, fuel = f + 1 := ⟨fuel - 1, by omega⟩
    refine .of_ok ?_ (Nat.zero_le depth)
    rw [prettyItems, List.nil_append, items, itemAhead_close]
    rfl
  | v :: vs, hvs, fuel, hfuel, depth, rest => by
    obtain ⟨hv, hvs⟩ := hvs
    simp only [prettyItems, List.length_cons, List.length_append] at hfuel
    obtain ⟨fuel, rfl⟩ : ∃ f, fuel = f + 1 := ⟨fuel - 1, by omega⟩
    have hnext := value_pretty level hv (show _ ≤ fuel by omega) depth
      (ends_items level outer vs (']' :: rest))
    have hitems := (readsIf_items (itemAhead_next hv.head.2.isFloatFinite level _) hnext
      (items_pretty level outer hvs (show _ ≤ fuel by omega) depth)).congr
        (Nat.max_le (a := v.depth)).symm
    rw [prettyItems_cons_append]
    exact hitems

/-- The members after the first one and the closing brace are read as they were written, if their
    values nest no deeper than they may. -/
theorem members_pretty (level outer : Nat) : ∀ {es : List (String × Value)},
    EveryEntry IsPlain es → ∀ {fuel : Nat}, 2 * (prettyEntries level es).length + 1 ≤ fuel →
      ∀ (depth : Nat) {rest : List Char},
        ReadsIf (Value.depthEntries es ≤ depth)
          (members fuel depth false (prettyEntries level es ++ (newline outer ++ '}' :: rest)))
          (es, rest)
  | [], _, fuel, hfuel, depth, rest => by
    obtain ⟨fuel, rfl⟩ : ∃ f, fuel = f + 1 := ⟨fuel - 1, by omega⟩
    refine .of_ok ?_ (Nat.zero_le depth)
    rw [prettyEntries, List.nil_append, members, memberAhead_close]
    rfl
  | (k, v) :: es, hes, fuel, hfuel, depth, rest => by
    obtain ⟨hv, hes⟩ := hes
    simp only [prettyEntries, encode, List.length_cons, List.length_append] at hfuel
    obtain ⟨fuel, rfl⟩ : ∃ f, fuel = f + 2 := ⟨fuel - 2, by omega⟩
    have hnext := value_pretty level hv (show _ ≤ fuel + 1 by omega) depth
      (ends_members level outer es ('}' :: rest))
    have hmembers := (readsIf_members k (memberAhead_next level _) hnext
      (members_pretty level outer hes (show _ ≤ fuel + 1 by omega) depth)).congr
        (Nat.max_le (a := v.depth)).symm
    rw [prettyEntries_cons_append]
    exact hmembers

end

/-! ### Texts -/

/-- The text of a value is its characters with a line break at the end. -/
theorem toList_render (v : Value) : (render v).toList = pretty 0 v ++ ['\n'] :=
  String.toList_ofList

/-- A text that was written is read if its containers nest no deeper than they may, and
    only then. -/
theorem parseChars_render {v : Value} (hv : Every IsPlain v) :
    ReadsIf (v.depth ≤ maxDepth) (parseChars (render v).toList) v := by
  have hfuel : 2 * (pretty 0 v).length ≤ 2 * (pretty 0 v ++ ['\n']).length + 2 := by
    rw [List.length_append]
    omega
  rw [toList_render, parseChars]
  exact (value_pretty 0 hv hfuel maxDepth (ends_cons (by decide) [])).bind_ok rfl

/-- **A text that was written** is read as its value if containers nest no deeper than they
    may. -/
theorem parse_render {v : Value} (hv : v.WellFormed) (hfloat : v.FloatFree)
    (hdepth : v.depth ≤ maxDepth) : parse (render v) = .ok v :=
  parse_eq_ok_iff.mpr ((parseChars_render (every_isPlain hv hfloat)).1 hdepth)

/-- **A text that nests too deep** is not read, for that reason and no other. -/
theorem parse_render_deep {v : Value} (hv : v.WellFormed) (hfloat : v.FloatFree)
    (hdepth : maxDepth < v.depth) :
    ∃ f : Fault, f.cause = .recursionLimit
      ∧ parse (render v) = .error (f.message (render v).toList) := by
  have hread := parseChars_render (every_isPlain hv hfloat)
  obtain ⟨left, hleft⟩ := hread.2 (Nat.not_le.mpr hdepth)
  exact ⟨_, rfl, by rw [parse, hleft]⟩

end SchemaEmbed.Json
