import SchemaEmbed.Proofs.Json.Grammar
import SchemaEmbed.Proofs.Json.RoundTrip

namespace SchemaEmbed.Json

/-!
# The shape of a text that was written

A float may be read as another one than was written, but nothing else changes:

* `SameShape` — values that differ in nothing but their numbers;
* `GoesOn` — whether a text goes on with a character that can stand in a number;
* `spells_pretty` — **a text that was written** spells no value of another shape;
* `parse_render_shape` — and so none is read from it.

The grammar says what a text spells without saying where a number ends, so that the text of a
number also spells the numbers at its head. Those leave a character of a number behind, after which
neither a list nor an object can go on. So they are ruled out as soon as anything has to follow.
-/

open Value (Every EveryItem EveryEntry IsWellFormed IsFloatFree IsFloatFinite)

/-! ### Shapes -/

/-- Whether values differ in nothing but their numbers. -/
inductive SameShape : Value → Value → Prop
  | refl (v : Value) : SameShape v v
  | number (m n : Number) : SameShape (.number m) (.number n)
  | array {xs ys} (h : List.Forall₂ SameShape xs ys) : SameShape (.array xs) (.array ys)
  | object {es fs : List (String × Value)} (keys : Entries.keys es = Entries.keys fs)
    (values : List.Forall₂ SameShape (es.map Prod.snd) (fs.map Prod.snd)) :
    SameShape (.object es) (.object fs)

/-- Whether there are as many items, and each has the shape of the one in its place. -/
abbrev SameShapes : List Value → List Value → Prop := List.Forall₂ SameShape

/-- Whether there are the same keys in the same order, and values of the same shapes. -/
structure SameMembers (es fs : List (String × Value)) : Prop where
  keys : Entries.keys es = Entries.keys fs
  values : SameShapes (es.map Prod.snd) (fs.map Prod.snd)

/-- Members of the same shapes have them still with one more member before them, if its values
    have the same shape. -/
theorem SameMembers.cons (k : String) {v w : Value} {es fs : List (String × Value)}
    (hv : SameShape v w) (h : SameMembers es fs) : SameMembers ((k, v) :: es) ((k, w) :: fs) :=
  ⟨congrArg (k :: ·) h.keys, .cons hv h.values⟩

/-! ### The characters of numbers -/

/-- Whether a character can stand in a number. -/
def isNumeralChar (c : Char) : Bool :=
  isDigit c || c == '-' || c == '+' || c == '.' || c == 'e' || c == 'E'

/-- A digit can stand in a number. -/
theorem isNumeralChar_of_isDigit {c : Char} (h : isDigit c = true) : isNumeralChar c = true := by
  simp [isNumeralChar, h]

/-- All characters of a numeral can stand in a number. -/
theorem IsNumeral.chars {s : List Char} (h : IsNumeral s) : ∀ c ∈ s, isNumeralChar c = true := by
  have hdigits {ds : List Char} (h : IsDigits ds) : ∀ c ∈ ds, isNumeralChar c = true :=
    fun c hc => isNumeralChar_of_isDigit (h.2 c hc)
  have hunsigned {s : List Char} (h : IsUnsigned s) : ∀ c ∈ s, isNumeralChar c = true := by
    obtain ⟨whole, _, rfl, hwhole, fraction, exponent, rfl, hfraction, hexponent⟩ := h
    refine List.forall_mem_append.mpr ⟨?_, List.forall_mem_append.mpr ⟨?_, ?_⟩⟩
    · cases hwhole with
      | zero => exact List.forall_mem_singleton.mpr rfl
      | digits _ hds => exact hdigits hds
    · cases hfraction with
      | none => exact List.forall_mem_nil _
      | some hds => exact List.forall_mem_cons.mpr ⟨rfl, hdigits hds⟩
    · cases hexponent with
      | none => exact List.forall_mem_nil _
      | some hmark hsign hds =>
        refine List.forall_mem_cons.mpr ⟨?_, List.forall_mem_append.mpr ⟨?_, hdigits hds⟩⟩
        · rcases hmark with rfl | rfl <;> rfl
        · rcases hsign with rfl | rfl | rfl
          · exact List.forall_mem_nil _
          · exact List.forall_mem_singleton.mpr rfl
          · exact List.forall_mem_singleton.mpr rfl
  rcases h with h | ⟨t, rfl, h⟩
  · exact hunsigned h
  · exact List.forall_mem_cons.mpr ⟨rfl, hunsigned h⟩

/-- All characters of the text of a number can stand in a number. -/
theorem numberChars_chars {n : Number} (hn : IsFloatFinite (.number n)) :
    ∀ c ∈ numberChars n, isNumeralChar c = true := by
  -- a sign may stand before them
  have hsigned (negative : Prop) [Decidable negative] {s : List Char}
      (hs : ∀ c ∈ s, isNumeralChar c = true) :
      ∀ c ∈ (if negative then ['-'] else []) ++ s, isNumeralChar c = true := by
    split
    · exact List.forall_mem_cons.mpr ⟨rfl, hs⟩
    · exact hs
  cases n with
  | int i =>
    have hchars : numberChars (.int i)
        = (if i < 0 then ['-'] else []) ++ Nat.toDigits 10 i.natAbs := by
      rw [numberChars, toList_toString_int]
      split <;> rfl
    rw [hchars]
    exact hsigned _ fun c hc => isNumeralChar_of_isDigit (isDigit_of_mem_toDigits hc)
  | float x =>
    obtain ⟨m, hm, hchars, -⟩ := FloatLayout.json.renderChars_spec hn
    rw [numberChars, hchars]
    refine hsigned _ fun c hc => ?_
    rcases hm.of_mem_chars hc with h | h
    · exact isNumeralChar_of_isDigit (isDigit_of_isDigit h)
    · simp only [List.mem_cons, List.not_mem_nil, or_false] at h
      rcases h with rfl | rfl | rfl | rfl <;> rfl

/-! ### What goes on

After a value comes a comma, a line break or the end, and none of these can stand in a number. So
what goes on with a character of a number is the rest of a number that was cut.
-/

/-- Whether a text goes on with a character that can stand in a number. -/
def GoesOn (s : List Char) : Prop := ∃ c t, s = c :: t ∧ isNumeralChar c = true

/-- A text does not go on with a character that cannot stand in a number. -/
theorem not_goesOn {c : Char} (h : isNumeralChar c = false) (s : List Char) :
    ¬ GoesOn (c :: s) := by
  rintro ⟨_, _, heq, hc⟩
  cases heq
  rw [h] at hc
  cases hc

/-- A character that can stand in a number is no blank. -/
theorem GoesOn.skipBlanks_eq {s : List Char} (h : GoesOn s) : skipBlanks s = s := by
  obtain ⟨c, t, rfl, hc⟩ := h
  refine skipBlanks_of_not_blank ?_ t
  rw [← Bool.not_eq_true]
  intro hblank
  simp only [isBlank, Bool.or_eq_true, beq_iff_eq] at hblank
  rcases hblank with ((rfl | rfl) | rfl) | rfl <;> cases hc

/-- A text that goes on with a character of a number has no other character there, also after
    blanks. -/
theorem GoesOn.ne_cons {s : List Char} (h : GoesOn s) {c : Char} (hc : isNumeralChar c = false)
    (rest : List Char) : skipBlanks s ≠ c :: rest := by
  rw [h.skipBlanks_eq]
  rintro rfl
  exact not_goesOn hc rest h

/-- No more items are spelled where a text goes on with a character of a number, as neither a
    comma nor a closing bracket stands there. -/
theorem GoesOn.not_items {s rest : List Char} {vs : List Value} (h : GoesOn s) :
    ¬ SpellsItems .false s vs rest := by
  rintro (hs | _ | ⟨hs, _⟩)
  · exact h.ne_cons (by decide) _ hs
  · exact h.ne_cons (by decide) _ hs

/-- No more members are spelled where a text goes on with a character of a number, as neither a
    comma nor a closing brace stands there. -/
theorem GoesOn.not_members {s rest : List Char} {es : List (String × Value)} (h : GoesOn s) :
    ¬ SpellsMembers .false s es rest := by
  rintro (hs | _ | ⟨hs, _⟩)
  · exact h.ne_cons (by decide) _ hs
  · exact h.ne_cons (by decide) _ hs

/-! ### What a text that was written spells -/

/-- Whether what is spelled at the head of a text, with `rest` after it, is a value of the shape
    of `v` that is followed by `s`. The grammar also lets a number end before its last
    character. -/
def SpellsShape (v w : Value) (s rest : List Char) : Prop :=
  (SameShape v w ∧ rest = s) ∨ GoesOn rest

/-- The text of a number spells a number, if something ends it. It may be the number at its head,
    and then the text goes on. -/
theorem spells_number {n : Number} (hn : IsFloatFinite (.number n)) {s rest : List Char} {w : Value}
    (hs : ¬ GoesOn s) (h : Spells (numberChars n ++ s) w rest) :
    SpellsShape (.number n) w s rest := by
  obtain ⟨c, t, hhead, hc⟩ := numberChars_head hn
  have hskip : skipBlanks (numberChars n ++ s) = numberChars n ++ s := by
    rw [hhead, List.cons_append]
    exact skipBlanks_of_not_blank (isBlank_of_head hc) _
  obtain ⟨m, rfl⟩ := (number_iff_of_spells h).mpr ⟨c, by rw [hskip, hhead]; rfl, hc⟩
  cases h with
  | number htext hnumeral =>
    rw [hskip] at htext
    rcases List.append_eq_append_iff.mp htext with ⟨left, rfl, rfl⟩ | ⟨left, hleft, rfl⟩
    · -- nothing of `s` can stand in the number
      cases left with
      | nil => exact .inl ⟨.number n m, rfl⟩
      | cons d left =>
        exact absurd ⟨d, _, rfl, hnumeral.chars d (by simp)⟩ hs
    · cases left with
      | nil => exact .inl ⟨.number n m, rfl⟩
      | cons d left => exact .inr ⟨d, _, rfl, numberChars_chars hn d (by simp [hleft])⟩

/-- What begins with neither a digit nor a minus spells no number. -/
theorem Spells.ne_number {s t rest : List Char} {c : Char} {w : Value} (h : Spells s w rest)
    (hs : skipBlanks s = c :: t) (hdigit : isDigit c = .false) (hminus : c ≠ '-') (n : Number) :
    w ≠ .number n := by
  rintro rfl
  obtain ⟨d, hd, hnumber⟩ := (number_iff_of_spells h).mp ⟨n, rfl⟩
  rw [hs] at hd
  cases hd
  rcases hnumber with hd | hd
  · rw [hdigit] at hd
    cases hd
  · exact hminus hd

/-- What is no container spells itself, or a number if it is one. -/
theorem spells_scalar {v : Value} (hv : IsFloatFinite v) (hscalar : v.depth = 0) (level : Nat)
    {s rest : List Char} {w : Value} (hs : ¬ GoesOn s) (h : Spells (pretty level v ++ s) w rest) :
    SpellsShape v w s rest := by
  rcases v with _ | (_ | _) | n | str | vs | es
  case number => exact spells_number hv hs h
  case array => cases hscalar
  case object => cases hscalar
  case string =>
    have hskip : skipBlanks (pretty level (.string str) ++ s)
        = '"' :: (str.toList.flatMap escape ++ '"' :: s) := by
      rw [pretty, encode, List.cons_append, List.cons_append, skipBlanks_of_not_blank (by decide),
        List.append_assoc]
      rfl
    have hne := h.ne_number hskip (by decide) (by decide)
    cases h with
    | string hquote hbody =>
      rw [hskip] at hquote
      cases hquote
      rw [decode_encode] at hbody
      cases hbody
      exact .inl ⟨.refl _, rfl⟩
    | number => exact absurd rfl (hne _)
    | _ hother =>
      rw [hskip] at hother
      cases hother
  -- the words
  all_goals
    have hne := h.ne_number rfl (by decide) (by decide)
    cases h with
    | number => exact absurd rfl (hne _)
    | _ hword =>
      cases hword
      try exact .inl ⟨.refl _, rfl⟩

/-! ### Containers

Inside a container something always follows a value. If the value is a number that was cut, nothing
can follow, and so there the value has its whole text.
-/

/-- No value begins with a closing bracket. -/
theorem Spells.ne_close {s t rest : List Char} {w : Value} (h : Spells s w rest) :
    skipBlanks s ≠ ']' :: t := by
  intro hs
  have hne := h.ne_number hs (by decide) (by decide)
  cases h with
  | number => exact hne _ rfl
  | _ hother =>
    rw [hs] at hother
    cases hother

/-- A bracket opens a list, and what is spelled after it are its items. -/
theorem Spells.of_bracket {body rest : List Char} {w : Value} (h : Spells ('[' :: body) w rest) :
    ∃ ws, w = .array ws ∧ SpellsItems .true body ws rest := by
  have hne := h.ne_number (skipBlanks_of_not_blank (by decide) _) (by decide) (by decide)
  cases h with
  | array hs hbody =>
    cases hs
    exact ⟨_, rfl, hbody⟩
  | number => exact absurd rfl (hne _)
  | _ hother => cases hother

/-- A brace opens an object, and what is spelled after it are its members. -/
theorem Spells.of_brace {body rest : List Char} {w : Value} (h : Spells ('{' :: body) w rest) :
    ∃ fs, w = .object (Entries.ofList fs) ∧ SpellsMembers .true body fs rest := by
  have hne := h.ne_number (skipBlanks_of_not_blank (by decide) _) (by decide) (by decide)
  cases h with
  | object hs hbody =>
    cases hs
    exact ⟨_, rfl, hbody⟩
  | number => exact absurd rfl (hne _)
  | _ hother => cases hother

/-- A member that was written has the key that was written, and its value is spelled after the
    colon. -/
theorem SpellsMember.of_encode {k key : String} {s after rest : List Char} {w : Value}
    (hs : skipBlanks s = '"' :: (k.toList.flatMap escape ++ '"' :: ':' :: ' ' :: after))
    (h : SpellsMember s key w rest) : k = key ∧ Spells after w rest := by
  obtain ⟨hquote, hkey, hcolon, hvalue⟩ := h
  rw [hs] at hquote
  cases hquote
  rw [decode_encode] at hkey
  cases hkey
  rw [skipBlanks_of_not_blank (by decide)] at hcolon
  cases hcolon
  exact ⟨rfl, .congr (show skipBlanks after = skipBlanks (' ' :: after) from rfl) hvalue⟩

/-- A value ends before the next item or the line of the closing bracket. -/
theorem not_goesOn_items (level outer : Nat) (vs : List Value) (s : List Char) :
    ¬ GoesOn (prettyItems level vs ++ (newline outer ++ s)) := by
  cases vs with
  | nil => exact not_goesOn (by decide) _
  | cons v vs => exact not_goesOn (by decide) _

/-- A value ends before the next member or the line of the closing brace. -/
theorem not_goesOn_members (level outer : Nat) (es : List (String × Value)) (s : List Char) :
    ¬ GoesOn (prettyEntries level es ++ (newline outer ++ s)) := by
  cases es with
  | nil => exact not_goesOn (by decide) _
  | cons e es => exact not_goesOn (by decide) _

/-- Whether a value itself can be written and told from its text but for its number: it is as
    documents have it, and if it is a float, it is finite. -/
def IsHeld (v : Value) : Prop := IsWellFormed v ∧ IsFloatFinite v

mutual

/-- **The text of a value** spells no value of another shape. -/
theorem spells_pretty (level : Nat) : ∀ {v : Value}, Every IsHeld v → ∀ {s rest : List Char}
    {w : Value}, ¬ GoesOn s → Spells (pretty level v ++ s) w rest → SpellsShape v w s rest
  | .array [], _, s, rest, w, _, h => by
    obtain ⟨ws, rfl, hbody⟩ := Spells.of_bracket h
    rcases hbody with hs | ⟨hfirst, -⟩
    · cases hs
      exact .inl ⟨.refl _, rfl⟩
    · exact absurd rfl hfirst.ne_close
  | .array (v :: vs), hv, s, rest, w, _, h => by
    obtain ⟨-, hv, hvs⟩ := hv
    rw [pretty_array_append] at h
    obtain ⟨ws, rfl, hbody⟩ := Spells.of_bracket h
    obtain ⟨c, t, hpretty, hblank, hclose⟩ := pretty_head hv.head.2 (level + 1)
    -- the list cannot be closed before its first item, as no value begins with a bracket that
    -- closes
    rcases hbody with hs | ⟨hfirst, hrest⟩
    · rw [skipBlanks_newline, hpretty, List.cons_append, skipBlanks_of_not_blank hblank] at hs
      cases hs
      exact absurd rfl hclose
    · rcases spells_pretty (level + 1) hv (not_goesOn_items (level + 1) level vs (']' :: s))
        (hfirst.congr (skipBlanks_newline _ _).symm) with ⟨hshape, rfl⟩ | hgoes
      · obtain ⟨hshapes, rfl⟩ := spells_items (level + 1) level hvs hrest
        exact .inl ⟨.array (.cons hshape hshapes), rfl⟩
      · exact absurd hrest hgoes.not_items
  | .object [], _, s, rest, w, _, h => by
    obtain ⟨fs, rfl, hbody⟩ := Spells.of_brace h
    rcases hbody with hs | ⟨⟨hquote, -, -, -⟩, -⟩
    · cases hs
      exact .inl ⟨.refl _, rfl⟩
    · cases hquote
  | .object ((k, v) :: es), hv, s, rest, w, _, h => by
    obtain ⟨hkeys, hv, hes⟩ := hv
    rw [pretty_object_append] at h
    obtain ⟨fs, rfl, hbody⟩ := Spells.of_brace h
    have hskip (after : List Char) :
        skipBlanks (newline (level + 1) ++ '"' :: after) = '"' :: after := by
      rw [skipBlanks_newline, skipBlanks_of_not_blank (by decide)]
    rcases hbody with hs | ⟨hmember, hrest⟩
    · rw [hskip] at hs
      cases hs
    · obtain ⟨rfl, hvalue⟩ := hmember.of_encode (hskip _)
      have hends := not_goesOn_members (level + 1) level es ('}' :: s)
      rcases spells_pretty (level + 1) hv hends hvalue with ⟨hshape, rfl⟩ | hgoes
      · obtain ⟨hmembers, rfl⟩ := spells_members (level + 1) level hes hrest
        have hsame := hmembers.cons k hshape
        -- the keys that are read are different as well, so that none is dropped
        rw [Entries.ofList_eq_self (hsame.keys ▸ hkeys.1)]
        exact .inl ⟨.object hsame.keys hsame.values, rfl⟩
      · exact absurd hrest hgoes.not_members
  | .null, hv, _, _, _, hs, h => spells_scalar hv.2 rfl level hs h
  | .bool _, hv, _, _, _, hs, h => spells_scalar hv.2 rfl level hs h
  | .number _, hv, _, _, _, hs, h => spells_scalar hv.2 rfl level hs h
  | .string _, hv, _, _, _, hs, h => spells_scalar hv.2 rfl level hs h

/-- The items after the first one and the closing bracket spell as many items of the same shapes,
    and nothing is left. -/
theorem spells_items (level outer : Nat) : ∀ {vs : List Value}, EveryItem IsHeld vs →
    ∀ {s rest : List Char} {ws : List Value},
      SpellsItems .false (prettyItems level vs ++ (newline outer ++ ']' :: s)) ws rest →
        SameShapes vs ws ∧ rest = s
  | [], _, s, rest, ws, h => by
    have hskip : skipBlanks (newline outer ++ ']' :: s) = ']' :: s := by
      rw [skipBlanks_newline, skipBlanks_of_not_blank (by decide)]
    rw [prettyItems, List.nil_append] at h
    rcases h with hs | _ | ⟨hs, -, -⟩
    · rw [hskip] at hs
      cases hs
      exact ⟨.nil, rfl⟩
    · rw [hskip] at hs
      cases hs
  | v :: vs, hvs, s, rest, ws, h => by
    obtain ⟨hv, hvs⟩ := hvs
    rw [prettyItems_cons_append] at h
    rcases h with hs | _ | ⟨hs, hnext, hrest⟩
    · cases hs
    · cases hs
      rcases spells_pretty level hv (not_goesOn_items level outer vs (']' :: s))
        (hnext.congr (skipBlanks_newline _ _).symm) with ⟨hshape, rfl⟩ | hgoes
      · obtain ⟨hshapes, rfl⟩ := spells_items level outer hvs hrest
        exact ⟨.cons hshape hshapes, rfl⟩
      · exact absurd hrest hgoes.not_items

/-- The members after the first one and the closing brace spell members with the same keys and
    values of the same shapes, and nothing is left. -/
theorem spells_members (level outer : Nat) : ∀ {es : List (String × Value)}, EveryEntry IsHeld es →
    ∀ {s rest : List Char} {fs : List (String × Value)},
      SpellsMembers .false (prettyEntries level es ++ (newline outer ++ '}' :: s)) fs rest →
        SameMembers es fs ∧ rest = s
  | [], _, s, rest, fs, h => by
    have hskip : skipBlanks (newline outer ++ '}' :: s) = '}' :: s := by
      rw [skipBlanks_newline, skipBlanks_of_not_blank (by decide)]
    rw [prettyEntries, List.nil_append] at h
    rcases h with hs | _ | ⟨hs, -, -⟩
    · rw [hskip] at hs
      cases hs
      exact ⟨⟨rfl, .nil⟩, rfl⟩
    · rw [hskip] at hs
      cases hs
  | (k, v) :: es, hes, s, rest, fs, h => by
    obtain ⟨hv, hes⟩ := hes
    rw [prettyEntries_cons_append] at h
    rcases h with hs | _ | ⟨hs, hmember, hrest⟩
    · cases hs
    · cases hs
      obtain ⟨rfl, hvalue⟩ := hmember.of_encode
        ((skipBlanks_newline _ _).trans (skipBlanks_of_not_blank (by decide) _))
      rcases spells_pretty level hv (not_goesOn_members level outer es ('}' :: s)) hvalue
        with ⟨hshape, rfl⟩ | hgoes
      · obtain ⟨hmembers, rfl⟩ := spells_members level outer hes hrest
        exact ⟨hmembers.cons k hshape, rfl⟩
      · exact absurd hrest hgoes.not_members

end

/-- **What is read from a text that was written** differs from the value in nothing but its
    numbers. -/
theorem parse_render_shape {v w : Value} (hv : v.WellFormed) (hfinite : v.FloatsFinite)
    (h : parse (render v) = .ok w) : SameShape v w := by
  obtain ⟨rest, hspells, hrest⟩ := parse_spells h
  rw [toList_render] at hspells
  rcases spells_pretty 0 (Value.every_and hv hfinite) (not_goesOn (by decide) []) hspells
    with ⟨hshape, -⟩ | hgoes
  · exact hshape
  · -- only blanks follow the value
    rw [hgoes.skipBlanks_eq] at hrest
    obtain ⟨c, t, rfl, -⟩ := hgoes
    cases hrest

end SchemaEmbed.Json
