import SchemaEmbed.Proofs.Json.Grammar

namespace SchemaEmbed.Json

/-!
# Members of JSON objects

A key can stand in an object of a text more than once. What is left is each key in its first place,
with its last value. This is said here about every mapping of a value, and about the place in the
text where it comes from.

* `IsRest` — what is left of a text of which something was read; `Spells.isRest` says that this is
  what follows a value;
* `IsWritten` — whether a mapping is what the members of an object in a text leave: each key in its
  first place, with its last value;
* `parse_isWritten` — **every mapping** in the value of a text is such, however deep it is;
* `parse_sound` — the value is as documents have it.
-/

open Value (Every EveryItem EveryEntry IsSound IsFloatFinite)

/-! ### What follows a value

What follows a value is shorter than the text, which is why reading ends; it is the end of the
text, which is why everything that is read stands somewhere in the whole.
-/

/-- What follows blanks is no longer than the text. -/
theorem length_skipBlanks_le (s : List Char) : (skipBlanks s).length ≤ s.length :=
  (List.dropWhile_suffix _).length_le

/-- Whether a text is what is left of another one, of which something was read: it is the end of
    that text, and shorter. -/
structure IsRest (rest s : List Char) : Prop where
  suffix : rest <:+ s
  length_lt : rest.length < s.length

namespace IsRest

variable {r s t : List Char}

/-- Reading twice leaves what is left by the second reading. -/
theorem trans (hrs : IsRest r s) (hst : IsRest s t) : IsRest r t :=
  ⟨hrs.suffix.trans hst.suffix, hrs.length_lt.trans hst.length_lt⟩

/-- One more character at the head of a text is one more that was read. -/
theorem cons (h : IsRest r s) (c : Char) : IsRest r (c :: s) :=
  ⟨h.suffix.trans (List.suffix_cons c s), h.length_lt.trans (Nat.lt_succ_self _)⟩

/-- Blanks at the head of a text are read before anything else. -/
theorem of_skipBlanks (h : IsRest r (skipBlanks s)) : IsRest r s :=
  ⟨h.suffix.trans (List.dropWhile_suffix _),
    h.length_lt.trans_le (length_skipBlanks_le s)⟩

end IsRest

/-- A character is read, and what follows it is left. -/
theorem isRest_cons (c : Char) (s : List Char) : IsRest s (c :: s) :=
  ⟨List.suffix_cons c s, Nat.lt_succ_self _⟩

/-- Blanks and a character are read, and what follows them is left. -/
theorem isRest_of_skipBlanks {s t : List Char} {c : Char} (h : skipBlanks s = c :: t) :
    IsRest t s :=
  .of_skipBlanks (h ▸ isRest_cons c t)

/-- A text that is not empty is read, and what follows it is left. -/
theorem isRest_append {text : List Char} (h : text ≠ []) (s : List Char) :
    IsRest s (text ++ s) := by
  have hlt := List.length_pos_of_ne_nil h
  exact ⟨List.suffix_append text s, by rw [List.length_append]; omega⟩

/-- The characters of a string and its closing quote are read, and what follows them is left. -/
theorem isRest_of_decodeFrom {read s chars rest : List Char}
    (h : decodeFrom read s = .ok (chars, rest)) : IsRest rest s := by
  fun_induction decodeFrom read s
  case case2 =>
    cases h
    exact isRest_cons _ _
  all_goals first
    | cases h
    | next ih =>
      have hrest := ih h
      repeat apply IsRest.cons
      exact hrest

/-- A string is read with its closing quote, and what follows it is left. -/
theorem isRest_of_decode {s rest : List Char} {str : String} (h : decode s = .ok (str, rest)) :
    IsRest rest s := by
  unfold decode at h
  split at h
  · next hs =>
    cases h
    exact isRest_of_decodeFrom hs
  · cases h

mutual

/-- **What follows a value** is the rest of the text. -/
theorem Spells.isRest : ∀ {s rest : List Char} {v : Value}, Spells s v rest → IsRest rest s
  | _, _, _, .null h | _, _, _, .true h | _, _, _, .false h => by
    refine .of_skipBlanks ?_
    rw [h]
    repeat first | exact isRest_cons _ _ | apply IsRest.cons
  | _, rest, _, .number h htext _ => by
    obtain ⟨c, t, rfl, -⟩ := htext.head
    refine .of_skipBlanks ?_
    rw [h]
    exact isRest_append (List.cons_ne_nil c t) rest
  | _, _, _, .string h hbody => (isRest_of_decode hbody).trans (isRest_of_skipBlanks h)
  | _, _, _, .array h hbody => hbody.isRest.trans (isRest_of_skipBlanks h)
  | _, _, _, .object h hbody => hbody.isRest.trans (isRest_of_skipBlanks h)

/-- What follows the items of a list and its closing bracket is the rest of the text. -/
theorem SpellsItems.isRest : ∀ {first : Bool} {s rest : List Char} {vs : List Value},
    SpellsItems first s vs rest → IsRest rest s
  | _, _, _, _, .close h => isRest_of_skipBlanks h
  | _, _, _, _, .first h hitems => hitems.isRest.trans h.isRest
  | _, _, _, _, .next hcomma h hitems =>
    hitems.isRest.trans (h.isRest.trans (isRest_of_skipBlanks hcomma))

/-- What follows the members of an object and its closing brace is the rest of the text. -/
theorem SpellsMembers.isRest : ∀ {first : Bool} {s rest : List Char} {es : List (String × Value)},
    SpellsMembers first s es rest → IsRest rest s
  | _, _, _, _, .close h => isRest_of_skipBlanks h
  | _, _, _, _, .first h hmembers => hmembers.isRest.trans h.isRest
  | _, _, _, _, .next hcomma h hmembers =>
    hmembers.isRest.trans (h.isRest.trans (isRest_of_skipBlanks hcomma))

/-- What follows a key, its colon and its value is the rest of the text. -/
theorem SpellsMember.isRest : ∀ {s rest : List Char} {key : String} {v : Value},
    SpellsMember s key v rest → IsRest rest s
  | _, _, _, _, .mk hquote hkey hcolon h =>
    (h.isRest.trans (isRest_of_skipBlanks hcolon)).trans
      ((isRest_of_decode hkey).trans (isRest_of_skipBlanks hquote))

end

/-! ### Mappings

Whatever a value contains was spelled by a part of the text. Dropping a member that is repeated
takes nothing from the others, so that it is enough to look at all members that are spelled.
-/

/-- Whether a value itself, if it is a mapping, is what the members of an object somewhere in a text
    leave: every key in its first place, with its last value. -/
def IsWritten (text : List Char) : Value → Prop
  | .object entries => ∃ s body members rest, s <:+ text ∧ skipBlanks s = '{' :: body
      ∧ SpellsMembers true body members rest
      ∧ Entries.keys entries = (members.map Prod.fst).eraseDups
      ∧ ∀ key, Entries.find? key entries = Entries.find? key members.reverse
  | _ => True

/-- Whether a value itself is as a text can spell it: a mapping is what members leave, and a
    float is finite. -/
def IsSpelled (text : List Char) (v : Value) : Prop := IsWritten text v ∧ IsFloatFinite v

mutual

/-- **Everything** in a value that is spelled somewhere in a text is as that text can spell it. -/
theorem every_isSpelled {text : List Char} : ∀ {s rest : List Char} {v : Value}, Spells s v rest →
    s <:+ text → Every (IsSpelled text) v
  | _, _, _, .null _, _ | _, _, _, .true _, _ | _, _, _, .false _, _ => ⟨trivial, trivial⟩
  | _, _, _, .string _ _, _ => ⟨trivial, trivial⟩
  | _, _, _, .number _ _ hn, _ => ⟨trivial, hn⟩
  | _, _, _, .array h hbody, hs =>
    ⟨⟨trivial, trivial⟩, everyItem_isSpelled hbody ((isRest_of_skipBlanks h).suffix.trans hs)⟩
  | s, rest, _, .object h hbody, hs => by
    have hmembers := everyEntry_isSpelled hbody ((isRest_of_skipBlanks h).suffix.trans hs)
    -- what holds of all members holds of those that are kept
    obtain ⟨-, hkept⟩ := Entries.ofList_spec (P := fun e => Every (IsSpelled text) e.2)
      (Value.everyEntry_iff.mp hmembers)
    exact ⟨⟨⟨s, _, _, rest, hs, h, hbody, Entries.keys_ofList _,
      fun key => Entries.find_ofList key _⟩, trivial⟩, Value.everyEntry_iff.mpr hkept⟩

/-- Everything in the items that are spelled somewhere in a text is as that text can spell it. -/
theorem everyItem_isSpelled {text : List Char} : ∀ {first : Bool} {s rest : List Char}
    {vs : List Value}, SpellsItems first s vs rest → s <:+ text → EveryItem (IsSpelled text) vs
  | _, _, _, _, .close _, _ => trivial
  | _, _, _, _, .first h hitems, hs =>
    ⟨every_isSpelled h hs, everyItem_isSpelled hitems (h.isRest.suffix.trans hs)⟩
  | _, _, _, _, .next hcomma h hitems, hs =>
    have hs := (isRest_of_skipBlanks hcomma).suffix.trans hs
    ⟨every_isSpelled h hs, everyItem_isSpelled hitems (h.isRest.suffix.trans hs)⟩

/-- Everything in the values of members that are spelled somewhere in a text is as that text can
    spell it, also in those that a later value of the same key replaces. -/
theorem everyEntry_isSpelled {text : List Char} : ∀ {first : Bool} {s rest : List Char}
    {es : List (String × Value)}, SpellsMembers first s es rest → s <:+ text →
    EveryEntry (IsSpelled text) es
  | _, _, _, _, .close _, _ => trivial
  | _, _, _, _, .first h hmembers, hs =>
    ⟨member_isSpelled h hs, everyEntry_isSpelled hmembers (h.isRest.suffix.trans hs)⟩
  | _, _, _, _, .next hcomma h hmembers, hs =>
    have hs := (isRest_of_skipBlanks hcomma).suffix.trans hs
    ⟨member_isSpelled h hs, everyEntry_isSpelled hmembers (h.isRest.suffix.trans hs)⟩

/-- Everything in the value of one member that is spelled somewhere in a text is as that text can
    spell it. -/
theorem member_isSpelled {text : List Char} : ∀ {s rest : List Char} {key : String} {v : Value},
    SpellsMember s key v rest → s <:+ text → Every (IsSpelled text) v
  | _, _, _, _, .mk hquote hkey hcolon h, hs =>
    have hkey := (isRest_of_decode hkey).trans (isRest_of_skipBlanks hquote)
    every_isSpelled h (((isRest_of_skipBlanks hcolon).trans hkey).suffix.trans hs)

end

/-- **Every mapping** in the value of a text is what members in the text leave. -/
theorem parse_isWritten {text : String} {v : Value} (h : parse text = .ok v) :
    v.Every (IsWritten text.toList) := by
  obtain ⟨rest, hspells, -⟩ := parse_spells h
  exact Every.imp (fun _ hv => hv.1) (every_isSpelled hspells (List.suffix_refl _))

/-- The value of a text is as documents have it: its keys are different, its integers in range
    and its floats finite. -/
theorem parse_sound {text : String} {v : Value} (h : parse text = .ok v) : Every IsSound v := by
  obtain ⟨rest, hspells, -⟩ := parse_spells h
  have hspelled := every_isSpelled hspells (List.suffix_refl text.toList)
  exact Value.every_isSound_iff.mpr
    ⟨(parse_parsed h).wellFormed, Every.imp (fun _ hv => hv.2) hspelled⟩

end SchemaEmbed.Json
