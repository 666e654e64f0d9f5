import SchemaEmbed.Proofs.Toml.Inline
import SchemaEmbed.Proofs.Toml.Offence
import SchemaEmbed.Proofs.Toml.WellFormed

namespace SchemaEmbed.Toml

/-!
# What values are read from TOML

What the writer refuses does not come out of the reader: no value that is read has a null in it,
and its integers are small enough to be read again.

* `IsRead` — what a value itself is if it was read: as documents have it, no null, and no integer
  beyond 64 bits with its sign;
* `every_isRead_of_holds` — what holds a well-formed tree is so everywhere;
* `parse_isRead` / `parse_sound` — so is the value of a text, which is a mapping.
-/

open Value (Every EveryItem EveryEntry)

/-- Whether a value itself is as it can be read: it can be written, and is no integer beyond 64 bits
    with its sign. -/
def IsRead (v : Value) : Prop := IsWritable v ∧ IsSigned v

/-- What can be read is no null. -/
theorem IsRead.isPresent {v : Value} (h : IsRead v) : IsPresent v := h.1.2.2

mutual

/-- **What holds a well-formed tree** is everywhere as it can be read. The keys and the integers
    come from the tree, and that there are neither nulls nor floats without a value from what is
    held. -/
theorem every_isRead_of_holds : ∀ {item : Item} {v : Value}, Holds item v → item.WellFormed →
    Every IsRead v
  | .string _, _, .string _, _ => ⟨⟨trivial, trivial, trivial⟩, trivial⟩
  | .integer i, _, .integer _, h => by
    have hmax : maxInteger ≤ Number.maxInt := by decide
    exact ⟨⟨⟨h.1, h.2.trans hmax⟩, trivial, trivial⟩, h.2⟩
  | .float _, _, .float hx, _ => ⟨⟨trivial, hx, trivial⟩, trivial⟩
  | .boolean _, _, .boolean _, _ => ⟨⟨trivial, trivial, trivial⟩, trivial⟩
  | .array _, .array _, .array hitems, h =>
    ⟨⟨⟨trivial, trivial, trivial⟩, trivial⟩, everyItem_isRead_of_holds hitems h⟩
  | .table _, .object fields, .table hkeys hvalues, h => by
    have hfields : (Entries.keys fields).Nodup := by
      rw [← hkeys]
      exact h.1
    exact ⟨⟨⟨hfields, trivial, trivial⟩, trivial⟩, everyEntry_isRead_of_holds hvalues h.2⟩

/-- What holds the items of an array is as they can be read. -/
theorem everyItem_isRead_of_holds : ∀ {items : List Item} {values : List Value},
    List.Forall₂ Holds items values → Item.AllWellFormed items → EveryItem IsRead values
  | [], [], _, _ => trivial
  | _ :: _, _ :: _, hholds, h => by
    obtain ⟨hhead, htail⟩ := List.forall₂_cons.mp hholds
    exact ⟨every_isRead_of_holds hhead h.1, everyItem_isRead_of_holds htail h.2⟩

/-- What holds the entries of a table is as they can be read; their keys are compared elsewhere. -/
theorem everyEntry_isRead_of_holds : ∀ {entries : List (String × Item)}
    {fields : List (String × Value)},
    List.Forall₂ Holds (entries.map Prod.snd) (fields.map Prod.snd) →
    Item.EntriesWellFormed entries → EveryEntry IsRead fields
  | [], [], _, _ => trivial
  | (_, _) :: _, (_, _) :: _, hholds, h => by
    obtain ⟨hhead, htail⟩ := List.forall₂_cons.mp hholds
    exact ⟨every_isRead_of_holds hhead h.1, everyEntry_isRead_of_holds htail h.2⟩

end

/-- **The value of a text** is a mapping, everywhere as it can be read. -/
theorem parse_isRead {text : String} {v : Value} (h : parse text = .ok v) :
    ∃ fields, v = .object fields ∧ v.Every IsRead := by
  obtain ⟨entries, htable, hholds⟩ := parse_holds h
  have hread := every_isRead_of_holds hholds (readTable_wellFormed htable)
  cases hholds with
  | table hkeys hvalues => exact ⟨_, rfl, hread⟩

/-- The value of a text is as documents have it, at every depth: well-formed, and with finite
    floats. -/
theorem parse_sound {text : String} {v : Value} (h : parse text = .ok v) :
    v.Every Value.IsSound := by
  obtain ⟨fields, -, hread⟩ := parse_isRead h
  exact Every.imp (fun _ hv => ⟨hv.1.1, hv.1.2.1⟩) hread

/-- The value of a text is well-formed: its keys are different, and its integers are in range. -/
theorem parse_wellFormed {text : String} {v : Value} (h : parse text = .ok v) : v.WellFormed := by
  obtain ⟨fields, -, hread⟩ := parse_isRead h
  exact Every.imp (fun _ hv => hv.1.1) hread

end SchemaEmbed.Toml
