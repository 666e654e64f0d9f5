import SchemaEmbed.Json.Reader
import SchemaEmbed.Proofs.Entries
import SchemaEmbed.Proofs.Json.Numeral
import SchemaEmbed.Proofs.Outcome
import SchemaEmbed.Proofs.Value

namespace SchemaEmbed.Json

/-!
# What values are read from JSON

Whatever the text, a value that is read from it is one that documents have. This is what makes it
possible to write it, and the limit of nesting that it meets is the one that the reader has.

* `Parsed` — keys are different, integers in range, and containers nest no deeper than they may;
* `value_parsed` — every value that is read is such;
* `parse_parsed` — so is the value of a whole text.

The proofs follow the reader, which has one function for a value, one for the items of a list and
one for the members of an object.
-/

open Value (Every IsWellFormed WellFormed)

/-- Whether a value is as documents have it, and nests no deeper than `depth`. -/
structure Parsed (depth : Nat) (v : Value) : Prop where
  wellFormed : WellFormed v
  depth_le : v.depth ≤ depth

/-- A list nests one deeper than its items. -/
theorem parsed_array {depth : Nat} {xs : List Value} (h : ∀ v ∈ xs, Parsed depth v) :
    Parsed (depth + 1) (.array xs) where
  wellFormed := ⟨trivial, Value.everyItem_iff.mpr fun v hv => (h v hv).wellFormed⟩
  depth_le := Nat.succ_le_succ (Value.depthItems_le_iff.mpr fun v hv => (h v hv).depth_le)

/-- An object nests one deeper than its values, and has each key once, however often it was
    written. -/
theorem parsed_object {depth : Nat} {es : List (String × Value)}
    (h : ∀ e ∈ es, Parsed depth e.2) : Parsed (depth + 1) (.object (Entries.ofList es)) := by
  obtain ⟨hkeys, hvalues⟩ := Entries.ofList_spec (P := fun e => Parsed depth e.2) h
  exact
    { wellFormed := ⟨hkeys, Value.everyEntry_iff.mpr fun e he => (hvalues e he).wellFormed⟩
      depth_le := Nat.succ_le_succ
        (Value.depthEntries_le_iff.mpr fun e he => (hvalues e he).depth_le) }

/-- A word that is read to its end stands for its value only. -/
theorem word_eq_ok {v v' : Value} {expected s rest : List Char}
    (h : word v expected s = .ok (v', rest)) : v' = v := by
  induction expected generalizing s with
  | nil => cases h; rfl
  | cons e expected ih =>
    cases s with
    | nil => cases h
    | cons c s =>
      rw [word] at h
      split at h
      · exact ih h
      · cases h

/-- A number that is read is in range, and no container. -/
theorem number_parsed {negative : Bool} {s : List Char} {v : Value} {rest : List Char}
    (h : (numeral negative s).map (fun (n, rest) => (Value.number n, rest)) = .ok (v, rest))
    (depth : Nat) : Parsed depth v := by
  obtain ⟨⟨n, left⟩, hn, heq⟩ := map_eq_ok_iff.mp h
  cases heq
  refine ⟨?_, Nat.zero_le depth⟩
  cases n with
  | int i => exact numeral_yieldsNumber negative s i rest hn
  | float x => exact trivial

mutual

-- The cases of `value` are, in their order: nothing left, the three words, a string, a
-- negative number, a list, an object, and a number or nothing that begins a value.

/-- **Every value that is read** is as documents have it, and nests no deeper than it may. -/
theorem value_parsed : ∀ {fuel depth : Nat} {s : List Char} {v : Value} {rest : List Char},
    value fuel depth s = .ok (v, rest) → Parsed depth v
  | 0, _, _, _, _, h => by cases h
  | fuel + 1, depth, s, v, rest, h => by
    rw [value] at h
    split at h
    case h_1 => cases h
    case h_2 => cases word_eq_ok h; exact ⟨trivial, Nat.zero_le depth⟩
    case h_3 => cases word_eq_ok h; exact ⟨trivial, Nat.zero_le depth⟩
    case h_4 => cases word_eq_ok h; exact ⟨trivial, Nat.zero_le depth⟩
    case h_5 =>
      obtain ⟨⟨str, left⟩, -, heq⟩ := map_eq_ok_iff.mp h
      cases heq
      exact ⟨trivial, Nat.zero_le depth⟩
    case h_6 => exact number_parsed h depth
    case h_7 =>
      cases depth with
      | zero => cases h
      | succ d =>
        obtain ⟨⟨xs, left⟩, hitems, heq⟩ := map_eq_ok_iff.mp h
        cases heq
        exact parsed_array (items_parsed hitems)
    case h_8 =>
      cases depth with
      | zero => cases h
      | succ d =>
        obtain ⟨⟨es, left⟩, hmembers, heq⟩ := map_eq_ok_iff.mp h
        cases heq
        exact parsed_object (members_parsed hmembers)
    case h_9 =>
      split at h
      · exact number_parsed h depth
      · cases h

/-- Every item of a list that is read is as documents have it, and nests no deeper than it may. -/
theorem items_parsed : ∀ {fuel depth : Nat} {first : Bool} {s : List Char} {vs : List Value}
    {rest : List Char}, items fuel depth first s = .ok (vs, rest) → ∀ v ∈ vs, Parsed depth v
  | 0, _, _, _, _, _, h => by cases h
  | fuel + 1, depth, first, s, vs, rest, h => by
    rw [items] at h
    obtain ⟨ahead, -, h⟩ := bind_eq_ok_iff.mp h
    cases ahead with
    | close left =>
      cases h
      exact fun v hv => absurd hv List.not_mem_nil
    | entry text =>
      obtain ⟨⟨v, left⟩, hv, h⟩ := bind_eq_ok_iff.mp h
      obtain ⟨⟨vs, left'⟩, hvs, h⟩ := bind_eq_ok_iff.mp h
      cases h
      exact List.forall_mem_cons.mpr ⟨value_parsed hv, items_parsed hvs⟩

/-- Every value of a member that is read is as documents have it, and nests no deeper than it
    may. -/
theorem members_parsed : ∀ {fuel depth : Nat} {first : Bool} {s : List Char}
    {es : List (String × Value)} {rest : List Char},
    members fuel depth first s = .ok (es, rest) → ∀ e ∈ es, Parsed depth e.2
  | 0, _, _, _, _, _, h => by cases h
  | fuel + 1, depth, first, s, es, rest, h => by
    rw [members] at h
    obtain ⟨ahead, -, h⟩ := bind_eq_ok_iff.mp h
    cases ahead with
    | close left =>
      cases h
      exact fun e he => absurd he List.not_mem_nil
    | entry text =>
      obtain ⟨⟨key, left⟩, -, h⟩ := bind_eq_ok_iff.mp h
      obtain ⟨left', -, h⟩ := bind_eq_ok_iff.mp h
      obtain ⟨⟨v, after⟩, hv, h⟩ := bind_eq_ok_iff.mp h
      obtain ⟨⟨es, after'⟩, hes, h⟩ := bind_eq_ok_iff.mp h
      cases h
      exact List.forall_mem_cons.mpr ⟨value_parsed hv, members_parsed hes⟩

end

/-- Whether a text is read does not depend on how the place of a fault is told. -/
theorem parse_eq_ok_iff {text : String} {v : Value} :
    parse text = .ok v ↔ parseChars text.toList = .ok v := by
  rw [parse]
  split
  · next v' h => simp [h]
  · next f h => simp [h]

/-- **The value of a text** is as documents have it, and nests no deeper than it may. -/
theorem parse_parsed {text : String} {v : Value} (h : parse text = .ok v) : Parsed maxDepth v := by
  rw [parse_eq_ok_iff, parseChars, bind_eq_ok_iff] at h
  obtain ⟨⟨w, rest⟩, hvalue, h⟩ := h
  dsimp only at h
  split at h
  · cases h
    exact value_parsed hvalue
  · cases h

end SchemaEmbed.Json
