import Mathlib.Data.List.DropRight
import SchemaEmbed.Proofs.Json.NumeralText
import SchemaEmbed.Proofs.Json.Parsed

namespace SchemaEmbed.Json

/-!
# The grammar of JSON

The reader takes fuel and a limit of nesting, and it fails with a fault at a place. None of this is
part of what a text means, and the grammar leaves it out.

* `Spells` — the value at the head of a text, without regard to how it is read: null is spelled by
  the word alone, a number by a numeral, and of a key that is repeated the last value counts;
* `number_iff_of_spells` — which texts spell numbers;
* `value_spells` / `parse_spells` — **what is read** is what the text spells.

The grammar says no more of a number than that its text is a numeral; which number it is is left to
the reader. Nor does it say where a number ends, so that a text can spell several values, of which
the reader takes the longest.
-/

open Value (IsFloatFinite)

/-! ### What texts spell -/

mutual

/-- Whether a text begins with a value, after blanks, and what follows it. -/
inductive Spells : List Char → Value → List Char → Prop
  | null {s rest} (h : skipBlanks s = 'n' :: 'u' :: 'l' :: 'l' :: rest) : Spells s .null rest
  | true {s rest} (h : skipBlanks s = 't' :: 'r' :: 'u' :: 'e' :: rest) : Spells s (.bool true) rest
  | false {s rest} (h : skipBlanks s = 'f' :: 'a' :: 'l' :: 's' :: 'e' :: rest) :
    Spells s (.bool false) rest
  | number {s text n rest} (h : skipBlanks s = text ++ rest) (htext : IsNumeral text)
    (hn : IsFloatFinite (.number n)) : Spells s (.number n) rest
  | string {s body str rest} (h : skipBlanks s = '"' :: body)
    (hbody : decode body = .ok (str, rest)) : Spells s (.string str) rest
  | array {s body items rest} (h : skipBlanks s = '[' :: body)
    (hbody : SpellsItems .true body items rest) : Spells s (.array items) rest
  | object {s body members rest} (h : skipBlanks s = '{' :: body)
    (hbody : SpellsMembers .true body members rest) :
    Spells s (.object (Entries.ofList members)) rest

/-- Whether a text begins with the items of a list, all but the first one after a comma, and the
    closing bracket. -/
inductive SpellsItems : (first : Bool) → List Char → List Value → List Char → Prop
  | close {first s rest} (h : skipBlanks s = ']' :: rest) : SpellsItems first s [] rest
  | first {s v after items rest} (h : Spells s v after)
    (hitems : SpellsItems .false after items rest) : SpellsItems .true s (v :: items) rest
  | next {s after v after' items rest} (hcomma : skipBlanks s = ',' :: after)
    (h : Spells after v after') (hitems : SpellsItems .false after' items rest) :
    SpellsItems .false s (v :: items) rest

/-- Whether a text begins with the members of an object, all but the first one after a comma, and
    the closing brace. -/
inductive SpellsMembers : (first : Bool) → List Char → List (String × Value) → List Char → Prop
  | close {first s rest} (h : skipBlanks s = '}' :: rest) : SpellsMembers first s [] rest
  | first {s key v after members rest} (h : SpellsMember s key v after)
    (hmembers : SpellsMembers .false after members rest) :
    SpellsMembers .true s ((key, v) :: members) rest
  | next {s after key v after' members rest} (hcomma : skipBlanks s = ',' :: after)
    (h : SpellsMember after key v after') (hmembers : SpellsMembers .false after' members rest) :
    SpellsMembers .false s ((key, v) :: members) rest

/-- Whether a text begins with a key, a colon and a value. -/
inductive SpellsMember : List Char → String → Value → List Char → Prop
  | mk {s body key after after' v rest} (hquote : skipBlanks s = '"' :: body)
    (hkey : decode body = .ok (key, after)) (hcolon : skipBlanks after = ':' :: after')
    (h : Spells after' v rest) : SpellsMember s key v rest

end

/-- There are no blanks to be skipped after blanks were skipped. -/
theorem skipBlanks_skipBlanks (s : List Char) : skipBlanks (skipBlanks s) = skipBlanks s :=
  List.dropWhile_idempotent _ s

/-- What a text spells is told by what follows the blanks at its head. -/
theorem Spells.congr {s t rest : List Char} {v : Value} (heq : skipBlanks s = skipBlanks t)
    (h : Spells t v rest) : Spells s v rest := by
  cases h with
  | null h => exact .null (heq ▸ h)
  | true h => exact .true (heq ▸ h)
  | false h => exact .false (heq ▸ h)
  | number h htext hn => exact .number (heq ▸ h) htext hn
  | string h hbody => exact .string (heq ▸ h) hbody
  | array h hbody => exact .array (heq ▸ h) hbody
  | object h hbody => exact .object (heq ▸ h) hbody

/-- **A value is a number** exactly if its text begins with a digit or a minus. -/
theorem number_iff_of_spells {s rest : List Char} {v : Value} (h : Spells s v rest) :
    (∃ n, v = .number n) ↔ ∃ c ∈ (skipBlanks s).head?, isDigit c = true ∨ c = '-' := by
  cases h with
  | number hs htext _ =>
    obtain ⟨c, t, rfl, hc⟩ := htext.head
    simpa [hs] using hc
  | _ hs => simp [hs, isDigit]

/-! ### What is read -/

/-- A word that is read stands at the head of the text, letter by letter. -/
theorem word_spells {v v' : Value} {expected s rest : List Char}
    (h : word v expected s = .ok (v', rest)) : v' = v ∧ s = expected ++ rest := by
  induction expected generalizing s with
  | nil => cases h; exact ⟨rfl, rfl⟩
  | cons e expected ih =>
    cases s with
    | nil => cases h
    | cons c s =>
      rw [word] at h
      split at h
      · next hc =>
        obtain ⟨hv, rfl⟩ := ih h
        exact ⟨hv, by rw [hc, List.cons_append]⟩
      · cases h

/-- What stands next in a list is its closing bracket or an item, which is not the first one only
    if a comma comes before it. -/
theorem itemAhead_spec {first : Bool} {s : List Char} {ahead : Ahead}
    (h : itemAhead first s = .ok ahead) :
    match ahead, first with
    | .close rest, _ => skipBlanks s = ']' :: rest
    | .entry text, true => text = skipBlanks s
    | .entry text, false => ∃ after, skipBlanks s = ',' :: after ∧ text = skipBlanks after := by
  unfold itemAhead at h
  split at h
  · cases h
  · next rest hs => cases h; exact hs
  · next c rest _ hs =>
    cases first with
    | true => cases h; exact hs.symm
    | false =>
      simp only [Bool.false_eq_true, ↓reduceIte] at h
      split at h
      · next hc =>
        subst hc
        split at h
        · cases h
        · cases h
        · cases h; exact ⟨rest, hs, rfl⟩
      · cases h

/-- What stands next in an object is its closing brace or the quote of a key, before which a
    comma comes unless it is the first one. -/
theorem memberAhead_spec {first : Bool} {s : List Char} {ahead : Ahead}
    (h : memberAhead first s = .ok ahead) :
    match ahead, first with
    | .close rest, _ => skipBlanks s = '}' :: rest
    | .entry text, true => skipBlanks s = '"' :: text
    | .entry text, false =>
      ∃ after, skipBlanks s = ',' :: after ∧ skipBlanks after = '"' :: text := by
  unfold memberAhead at h
  split at h
  · cases h
  · next rest hs => cases h; exact hs
  · next c rest _ hs =>
    cases first with
    | true =>
      simp only [↓reduceIte] at h
      split at h
      · next hc => cases h; exact hc ▸ hs
      · cases h
    | false =>
      simp only [Bool.false_eq_true, ↓reduceIte] at h
      split at h
      · next hc =>
        subst hc
        split at h
        · next text htext => cases h; exact ⟨rest, hs, htext⟩
        · cases h
        · cases h
        · cases h
      · cases h

/-- A colon that is read stands after blanks. -/
theorem colon_spec {s rest : List Char} (h : colon s = .ok rest) : skipBlanks s = ':' :: rest := by
  unfold colon at h
  split at h
  · next hs => cases h; exact hs
  · cases h
  · cases h

/-- A number that is read is spelled by a numeral. -/
theorem number_spells (negative : Bool) {s body rest : List Char} {v : Value}
    (hs : skipBlanks s = (if negative then ['-'] else []) ++ body)
    (h : (numeral negative body).map (fun (n, rest) => (Value.number n, rest)) = .ok (v, rest)) :
    Spells s v rest := by
  obtain ⟨⟨n, left⟩, hn, heq⟩ := map_eq_ok_iff.mp h
  cases heq
  obtain ⟨hfinite, text, rfl, htext⟩ := numeral_reads negative body n rest hn
  cases negative with
  | true =>
    have hs : skipBlanks s = ('-' :: text) ++ rest := hs
    exact .number hs (.inr ⟨text, rfl, htext⟩) hfinite
  | false =>
    have hs : skipBlanks s = text ++ rest := hs
    exact .number hs (.inl htext) hfinite

mutual

-- The cases of `value` are, in their order: nothing left, the three words, a string, a
-- negative number, a list, an object, and a number or nothing that begins a value.

/-- **A value that is read** is what the text spells. -/
theorem value_spells : ∀ {fuel depth : Nat} {s : List Char} {v : Value} {rest : List Char},
    value fuel depth s = .ok (v, rest) → Spells s v rest
  | 0, _, _, _, _, h => by cases h
  | fuel + 1, depth, s, v, rest, h => by
    rw [value] at h
    split at h
    case h_1 => cases h
    case h_2 left hs =>
      obtain ⟨rfl, rfl⟩ := word_spells h
      exact .null hs
    case h_3 left hs =>
      obtain ⟨rfl, rfl⟩ := word_spells h
      exact .true hs
    case h_4 left hs =>
      obtain ⟨rfl, rfl⟩ := word_spells h
      exact .false hs
    case h_5 body hs =>
      obtain ⟨⟨str, left⟩, hbody, heq⟩ := map_eq_ok_iff.mp h
      cases heq
      exact .string hs hbody
    case h_6 body hs => exact number_spells true hs h
    case h_7 body hs =>
      cases depth with
      | zero => cases h
      | succ d =>
        obtain ⟨⟨xs, left⟩, hitems, heq⟩ := map_eq_ok_iff.mp h
        cases heq
        exact .array hs (items_spells hitems)
    case h_8 body hs =>
      cases depth with
      | zero => cases h
      | succ d =>
        obtain ⟨⟨es, left⟩, hmembers, heq⟩ := map_eq_ok_iff.mp h
        cases heq
        exact .object hs (members_spells hmembers)
    case h_9 c body _ _ _ _ _ _ _ hs =>
      split at h
      · exact number_spells false hs h
      · cases h

/-- The items that are read are what the text spells up to the closing bracket of their list. -/
theorem items_spells : ∀ {fuel depth : Nat} {first : Bool} {s : List Char} {vs : List Value}
    {rest : List Char}, items fuel depth first s = .ok (vs, rest) → SpellsItems first s vs rest
  | 0, _, _, _, _, _, h => by cases h
  | fuel + 1, depth, first, s, vs, rest, h => by
    rw [items] at h
    obtain ⟨ahead, hahead, h⟩ := bind_eq_ok_iff.mp h
    have hspec := itemAhead_spec hahead
    cases ahead with
    | close left => cases h; exact .close hspec
    | entry text =>
      obtain ⟨⟨v, left⟩, hv, h⟩ := bind_eq_ok_iff.mp h
      obtain ⟨⟨vs, left'⟩, hvs, h⟩ := bind_eq_ok_iff.mp h
      cases h
      have hvalue := value_spells hv
      cases first with
      | true =>
        have htext : text = skipBlanks s := hspec
        rw [htext] at hvalue
        exact .first (hvalue.congr (skipBlanks_skipBlanks s).symm) (items_spells hvs)
      | false =>
        obtain ⟨after, hcomma, rfl⟩ := hspec
        exact .next hcomma (hvalue.congr (skipBlanks_skipBlanks after).symm) (items_spells hvs)

/-- The members that are read are what the text spells up to the closing brace of their object,
    in the order of the text and with all keys that are repeated. -/
theorem members_spells : ∀ {fuel depth : Nat} {first : Bool} {s : List Char}
    {es : List (String × Value)} {rest : List Char},
    members fuel depth first s = .ok (es, rest) → SpellsMembers first s es rest
  | 0, _, _, _, _, _, h => by cases h
  | fuel + 1, depth, first, s, es, rest, h => by
    rw [members] at h
    obtain ⟨ahead, hahead, h⟩ := bind_eq_ok_iff.mp h
    have hspec := memberAhead_spec hahead
    cases ahead with
    | close left => cases h; exact .close hspec
    | entry text =>
      obtain ⟨⟨key, left⟩, hkey, h⟩ := bind_eq_ok_iff.mp h
      obtain ⟨left', hcolon, h⟩ := bind_eq_ok_iff.mp h
      obtain ⟨⟨v, after⟩, hv, h⟩ := bind_eq_ok_iff.mp h
      obtain ⟨⟨es, after'⟩, hes, h⟩ := bind_eq_ok_iff.mp h
      cases h
      have hvalue := value_spells hv
      cases first with
      | true => exact .first (.mk hspec hkey (colon_spec hcolon) hvalue) (members_spells hes)
      | false =>
        obtain ⟨body, hcomma, hquote⟩ := hspec
        exact .next hcomma (.mk hquote hkey (colon_spec hcolon) hvalue) (members_spells hes)

end

/-- **The value of a text** is what the text spells, with nothing but blanks after it. -/
theorem parse_spells {text : String} {v : Value} (h : parse text = .ok v) :
    ∃ rest, Spells text.toList v rest ∧ skipBlanks rest = [] := by
  rw [parse_eq_ok_iff, parseChars, bind_eq_ok_iff] at h
  obtain ⟨⟨w, rest⟩, hvalue, h⟩ := h
  dsimp only at h
  split at h
  · next hrest =>
    cases h
    exact ⟨rest, value_spells hvalue, hrest⟩
  · cases h

end SchemaEmbed.Json
