import Mathlib.Data.List.Forall2
import SchemaEmbed.Proofs.Outcome
import SchemaEmbed.Toml.Reader

namespace SchemaEmbed.Toml

/-!
# What a structured value cannot hold

* `Holds` — whether a value holds a tree of TOML: every number as a number, every truth value as
  one, every string as it is, and never null;
* `Offends` — the date-times and the floats that are not finite in a tree, each with its location;
* `toValue_settles` — **a tree** without an offence is held, and of any other one an offence is
  named;
* `parse_holds` / `parse_settles` — so it is with a text.

Which offence is named, if there are several, is not said here but in the module on the first one.
What matters is that nothing is replaced by something else on the way.
-/

/-- Whether a value holds a tree. There is no rule for a date-time, none for a float that is not
    finite, and none for null. -/
inductive Holds : Item → Value → Prop
  | string (s) : Holds (.string s) (.string s)
  | integer (i) : Holds (.integer i) (.number (.int i))
  | float {x} (h : x.isFinite = true) : Holds (.float x) (.number (.float x))
  | boolean (b) : Holds (.boolean b) (.bool b)
  | array {items values} (h : List.Forall₂ Holds items values) :
    Holds (.array items) (.array values)
  | table {entries fields} (keys : entries.map Prod.fst = Entries.keys fields)
    (values : List.Forall₂ Holds (entries.map Prod.snd) (fields.map Prod.snd)) :
    Holds (.table entries) (.object fields)

/-- Whether something in the tree at a location cannot be held. What it is and where it is make
    up the offence. -/
inductive Offends : (location : String) → Item → Offence → Prop
  | float {location x} (h : x.isFinite = false) : Offends location (.float x) ⟨.float x, location⟩
  | dateTime {location d} : Offends location (.dateTime d) ⟨.dateTime d, location⟩
  | item {location items o} {i : Nat} {item} (hi : items[i]? = some item)
    (h : Offends (Location.item location i) item o) : Offends location (.array items) o
  | entry {location entries key item o} (he : (key, item) ∈ entries)
    (h : Offends (Location.entry location key) item o) : Offends location (.table entries) o

/-! ### Outcomes

The conversion stops at the first offence, so that what it gives is one of two things. Both are
said in one property, with what fits and what offends as parameters, and it is put together like
the conversion itself.
-/

/-- Whether an outcome is a result that fits and nothing offends, or an offence that is there. -/
def Settles {α : Type} (fits : α → Prop) (offends : Offence → Prop) (r : Except Offence α) : Prop :=
  (∃ a, r = .ok a ∧ fits a ∧ ∀ o, ¬ offends o) ∨ ∃ o, r = .error o ∧ offends o

namespace Settles

variable {α β γ : Type} {fits : α → Prop} {fits' : β → Prop} {fits'' : γ → Prop}
  {offends offends' offends'' : Offence → Prop} {r : Except Offence α} {r' : Except Offence β}

/-- What is made of a result, if the same things offend. -/
theorem map {f : α → β} (h : Settles fits offends r) (hfits : ∀ a, fits a → fits' (f a))
    (hoffends : ∀ o, offends' o ↔ offends o) : Settles fits' offends' (r.map f) := by
  rcases h with ⟨a, rfl, ha, hnone⟩ | ⟨o, rfl, ho⟩
  · exact .inl ⟨f a, rfl, hfits a ha, fun o ho => hnone o ((hoffends o).mp ho)⟩
  · exact .inr ⟨o, rfl, (hoffends o).mpr ho⟩

/-- What is made of two results, if what offends is what offends in either. -/
theorem both {f : α → β → γ} (h : Settles fits offends r) (h' : Settles fits' offends' r')
    (hfits : ∀ a b, fits a → fits' b → fits'' (f a b))
    (hoffends : ∀ o, offends'' o ↔ offends o ∨ offends' o) :
    Settles fits'' offends'' (do let a ← r; let b ← r'; return f a b) := by
  -- the first result, and only if it is one, the second
  rcases h with ⟨a, rfl, ha, hnone⟩ | ⟨o, rfl, ho⟩
  · rcases h' with ⟨b, rfl, hb, hnone'⟩ | ⟨o, rfl, ho⟩
    · refine .inl ⟨f a b, rfl, hfits a b ha hb, fun o ho => ?_⟩
      rcases (hoffends o).mp ho with ho | ho
      · exact hnone o ho
      · exact hnone' o ho
    · exact .inr ⟨o, rfl, (hoffends o).mpr (.inr ho)⟩
  · exact .inr ⟨o, rfl, (hoffends o).mpr (.inl ho)⟩

end Settles

/-! ### Trees

The conversion goes through a tree with a location and through items with an index. What offends in
the items from an index on is the intermediate notion; for entries the keys do the same.
-/

/-- Whether something in the items of an array from an index on cannot be held. -/
def ItemsOffend (location : String) (index : Nat) (items : List Item) (o : Offence) : Prop :=
  ∃ (i : Nat) (item : Item), items[i]? = some item
    ∧ Offends (Location.item location (index + i)) item o

/-- What offends in several items does so in the first one or in a later one. -/
theorem itemsOffend_cons {location : String} {index : Nat} {item : Item} {items : List Item}
    {o : Offence} : ItemsOffend location index (item :: items) o ↔
      Offends (Location.item location index) item o ∨ ItemsOffend location (index + 1) items o := by
  constructor
  · rintro ⟨i, t, hi, h⟩
    cases i with
    | zero => cases hi; exact .inl h
    | succ i => exact .inr ⟨i, t, hi, by rwa [Nat.add_assoc, Nat.add_comm 1 i]⟩
  · rintro (h | ⟨i, t, hi, h⟩)
    · exact ⟨0, item, rfl, h⟩
    · exact ⟨i + 1, t, hi, by rwa [Nat.add_comm i 1, ← Nat.add_assoc]⟩

mutual

/-- **A tree** without an offence is held, and of any other one an offence is named. The
    recursion is on the tree, and each kind of item is one case. -/
theorem toValue_settles : ∀ (item : Item) (location : String),
    Settles (Holds item) (Offends location item) (item.toValue location)
  | .string s, _ => .inl ⟨_, rfl, .string s, nofun⟩
  | .integer i, _ => .inl ⟨_, rfl, .integer i, nofun⟩
  | .boolean b, _ => .inl ⟨_, rfl, .boolean b, nofun⟩
  | .dateTime _, _ => .inr ⟨_, rfl, .dateTime⟩
  | .float x, location => by
    -- a float is held exactly if it is finite
    cases hx : x.isFinite with
    | true =>
      refine .inl ⟨.number (.float x), if_pos hx, .float hx, ?_⟩
      rintro o ⟨hnot⟩
      rw [hx] at hnot
      cases hnot
    | false => exact .inr ⟨_, if_neg (by rw [hx]; decide), .float hx⟩
  | .array items, location => (toValues_settles items location 0).map (fun _ => .array) fun o => by
    constructor
    · rintro (_ | _ | ⟨hi, h⟩)
      exact ⟨_, _, hi, by rwa [Nat.zero_add]⟩
    · rintro ⟨i, item, hi, h⟩
      exact .item hi (by rwa [Nat.zero_add] at h)
  | .table entries, location =>
    (toFields_settles entries location).map (fun _ h => .table h.1 h.2) fun o => by
      constructor
      · rintro (_ | _ | _ | ⟨he, h⟩)
        exact ⟨_, he, h⟩
      · rintro ⟨e, he, h⟩
        exact .entry he h

/-- The items of an array are held one by one, or an offence in one of them is named. -/
theorem toValues_settles : ∀ (items : List Item) (location : String) (index : Nat),
    Settles (List.Forall₂ Holds items) (ItemsOffend location index items)
      (Item.toValues location index items)
  | [], _, _ => .inl ⟨[], rfl, .nil, by simp [ItemsOffend]⟩
  | item :: items, location, index =>
    (toValue_settles item _).both (toValues_settles items location (index + 1))
      (fun _ _ => .cons) fun _ => itemsOffend_cons

/-- The entries of a table are held under their keys, or an offence in one of them is named. -/
theorem toFields_settles : ∀ (entries : List (String × Item)) (location : String),
    Settles (fun fields => entries.map Prod.fst = Entries.keys fields
        ∧ List.Forall₂ Holds (entries.map Prod.snd) (fields.map Prod.snd))
      (fun o => ∃ e ∈ entries, Offends (Location.entry location e.1) e.2 o)
      (Item.toFields location entries)
  | [], _ => .inl ⟨[], rfl, ⟨rfl, .nil⟩, by simp⟩
  | (key, item) :: entries, location =>
    (toValue_settles item _).both (toFields_settles entries location)
      (fun v fields hv hfields => ⟨congrArg (key :: ·) hfields.1, .cons hv hfields.2⟩)
      fun o => by simp

end

/-! ### Texts

A text is read as a table and then converted, from the empty location. A fault of the reader is
another error, and comes first.
-/

/-- What is read from a text is the value of its table, and its table is read first. -/
theorem parse_eq_ok_iff {text : String} {v : Value} :
    parse text = .ok v ↔ ∃ entries, readTable text = .ok entries
      ∧ (Item.table entries).toValue "" = .ok v := by
  rw [parse, mapError_eq_ok_iff, read, bind_eq_ok_iff]
  simp only [mapError_eq_ok_iff]

/-- The value of a text holds its table. -/
theorem parse_holds {text : String} {v : Value} (h : parse text = .ok v) :
    ∃ entries, readTable text = .ok entries ∧ Holds (.table entries) v := by
  obtain ⟨entries, hread, hvalue⟩ := parse_eq_ok_iff.mp h
  rcases toValue_settles (.table entries) "" with ⟨w, hw, hholds, -⟩ | ⟨o, ho, -⟩
  · cases hvalue.symm.trans hw
    exact ⟨entries, hread, hholds⟩
  · cases hvalue.symm.trans ho

/-- **A text** that is a table has a value, which holds the table, if nothing offends in it; the
    message about any other one names an offence in it. -/
theorem parse_settles {text : String} {entries : Entries Item} (h : readTable text = .ok entries) :
    (∃ v, parse text = .ok v ∧ Holds (.table entries) v ∧ ∀ o, ¬ Offends "" (.table entries) o)
      ∨ ∃ o, parse text = .error o.message ∧ Offends "" (.table entries) o := by
  have hparse : parse text = (((Item.table entries).toValue "").mapError .offence).mapError
      ReadError.message := by
    rw [parse, read, h, mapError_ok, ok_bind]
  rcases toValue_settles (.table entries) "" with ⟨v, hv, hholds, hnone⟩ | ⟨o, ho, hoffends⟩
  · exact .inl ⟨v, by rw [hparse, hv]; rfl, hholds, hnone⟩
  · exact .inr ⟨o, by rw [hparse, ho]; rfl, hoffends⟩

end SchemaEmbed.Toml
