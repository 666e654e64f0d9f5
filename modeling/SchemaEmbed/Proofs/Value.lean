import SchemaEmbed.Proofs.Entries

namespace SchemaEmbed.Value

/-!
# Properties of values

What a document is has to be said of every value in it, at any depth. The notions for that, and the
facts about them that do not depend on any format:

* `Every` — what holds of a value and of all values within it;
* `WellFormed` — keys are different and integers in range, as in every document;
* `FloatFree` / `FloatsFinite` — there is no float, or none that is infinite or NaN;
* `IsSound` — what a value itself has to be for both, `WellFormed` and `FloatsFinite`;
* `induction_on_members` — induction on what is in a value;
* `depth` — how many containers nest;
* `nested` — lists that nest to any depth.

Each property is one of a single value, `IsWellFormed` for instance, made to hold everywhere by
`Every`. So a fact about `Every` is proved once, and a property that is not hereditary in itself
needs no recursion of its own.
-/

mutual

/-- Whether a property holds of a value and of all values within it. -/
def Every (P : Value → Prop) : Value → Prop
  | .array xs => P (.array xs) ∧ EveryItem P xs
  | .object es => P (.object es) ∧ EveryEntry P es
  | v => P v

/-- Whether a property holds everywhere in the items of a sequence. -/
def EveryItem (P : Value → Prop) : List Value → Prop
  | [] => True
  | v :: rest => Every P v ∧ EveryItem P rest

/-- Whether a property holds everywhere in the values of a mapping. -/
def EveryEntry (P : Value → Prop) : List (String × Value) → Prop
  | [] => True
  | (_, v) :: rest => Every P v ∧ EveryEntry P rest

end

mutual

/-- How many containers nest in a value. -/
def depth : Value → Nat
  | .array xs => depthItems xs + 1
  | .object es => depthEntries es + 1
  | _ => 0

/-- How many containers nest in the items of a sequence. -/
def depthItems : List Value → Nat
  | [] => 0
  | v :: rest => max (depth v) (depthItems rest)

/-- How many containers nest in the values of a mapping. -/
def depthEntries : List (String × Value) → Nat
  | [] => 0
  | (_, v) :: rest => max (depth v) (depthEntries rest)

end

/-- Whether a value itself is as documents have it: an integer is in range, and the keys of
    a mapping are different. -/
def IsWellFormed : Value → Prop
  | .number (.int i) => Number.minInt ≤ i ∧ i ≤ Number.maxInt
  | .object es => (Entries.keys es).Nodup
  | _ => True

/-- Whether a value itself is no float. -/
def IsFloatFree : Value → Prop
  | .number (.float _) => False
  | _ => True

/-- Whether a value itself is neither infinite nor NaN, as in every document. -/
def IsFloatFinite : Value → Prop
  | .number (.float x) => x.isFinite = true
  | _ => True

/-- Whether keys are different and integers in range, everywhere in a value. -/
def WellFormed : Value → Prop := Every IsWellFormed

/-- Whether there is no float in a value. -/
def FloatFree : Value → Prop := Every IsFloatFree

/-- Whether all floats in a value are finite. -/
def FloatsFinite : Value → Prop := Every IsFloatFinite

/-- Whether a value itself is as documents have it: an integer is in range, a float finite, and the
    keys of a mapping are different. -/
def IsSound (v : Value) : Prop := IsWellFormed v ∧ IsFloatFinite v

/-! ### Deciding

A property that can be decided of a single value can be decided everywhere, by the recursion of
`Every`. What is said of fixed values is checked that way.
-/

instance : DecidablePred IsWellFormed
  | .number (.int i) => inferInstanceAs (Decidable (Number.minInt ≤ i ∧ i ≤ Number.maxInt))
  | .object es => inferInstanceAs (Decidable (Entries.keys es).Nodup)
  | .null | .bool _ | .number (.float _) | .string _ | .array _ => .isTrue trivial

instance : DecidablePred IsFloatFinite
  | .number (.float x) => inferInstanceAs (Decidable (x.isFinite = true))
  | .null | .bool _ | .number (.int _) | .string _ | .array _ | .object _ => .isTrue trivial

section Decide

variable {P : Value → Prop} [DecidablePred P]

mutual

/-- Decides whether a property that can be decided holds everywhere in a value. -/
def decideEvery : (v : Value) → Decidable (Every P v)
  | .array xs =>
    @instDecidableAnd _ _ (inferInstanceAs (Decidable (P (.array xs)))) (decideEveryItem xs)
  | .object es =>
    @instDecidableAnd _ _ (inferInstanceAs (Decidable (P (.object es)))) (decideEveryEntry es)
  | .null => inferInstanceAs (Decidable (P .null))
  | .bool b => inferInstanceAs (Decidable (P (.bool b)))
  | .number n => inferInstanceAs (Decidable (P (.number n)))
  | .string s => inferInstanceAs (Decidable (P (.string s)))

/-- Decides whether it holds everywhere in the items of a sequence. -/
def decideEveryItem : (xs : List Value) → Decidable (EveryItem P xs)
  | [] => .isTrue trivial
  | v :: rest => @instDecidableAnd _ _ (decideEvery v) (decideEveryItem rest)

/-- Decides whether it holds everywhere in the values of a mapping. -/
def decideEveryEntry : (es : List (String × Value)) → Decidable (EveryEntry P es)
  | [] => .isTrue trivial
  | (_, v) :: rest => @instDecidableAnd _ _ (decideEvery v) (decideEveryEntry rest)

end

instance : DecidablePred (Every P) := decideEvery

instance : DecidablePred (EveryEntry P) := decideEveryEntry

end Decide

instance : DecidablePred WellFormed := decideEvery

instance : DecidablePred FloatsFinite := decideEvery

/-! ### Induction

The recursor of `Value` has one motive for values, one for lists of them and one for entries. Most
proofs only need to know that the property holds of all members of a container.
-/

/-- **Induction on what is in a value**: what holds of a sequence if it holds of its items, and of
    a mapping if it holds of its values, holds of all values. -/
theorem induction_on_members {motive : Value → Prop} (null : motive .null)
    (bool : ∀ b, motive (.bool b)) (number : ∀ n, motive (.number n))
    (string : ∀ s, motive (.string s))
    (array : ∀ items, (∀ v ∈ items, motive v) → motive (.array items))
    (object : ∀ entries, (∀ e ∈ entries, motive e.2) → motive (.object entries)) (v : Value) :
    motive v :=
  match v with
  | .null => null
  | .bool b => bool b
  | .number n => number n
  | .string s => string s
  | .array items => array items fun v _ =>
    induction_on_members null bool number string array object v
  | .object entries => object entries fun e _ =>
    induction_on_members null bool number string array object e.2
termination_by sizeOf v
decreasing_by
  · next hv =>
    have hlt := List.sizeOf_lt_of_mem hv
    simp only [Value.array.sizeOf_spec]
    omega
  · next he =>
    have hlt := List.sizeOf_lt_of_mem he
    simp only [Value.object.sizeOf_spec]
    obtain ⟨k, w⟩ := e
    simp only [Prod.mk.sizeOf_spec] at hlt ⊢
    omega

/-! ### What holds everywhere

`Every` follows the recursion of the type, which computes; its quantified forms over items and
entries are what proofs use.
-/

/-- What holds everywhere in a value holds of the value itself. -/
theorem Every.head {P : Value → Prop} {v : Value} (h : Every P v) : P v := by
  cases v with
  | array xs => exact h.1
  | object es => exact h.1
  | _ => exact h

mutual

/-- What follows from a property that holds everywhere holds everywhere. -/
theorem Every.imp {P Q : Value → Prop} (h : ∀ v, P v → Q v) : ∀ {v : Value}, Every P v → Every Q v
  | .null, hp => h _ hp
  | .bool _, hp => h _ hp
  | .number _, hp => h _ hp
  | .string _, hp => h _ hp
  | .array _, hp => ⟨h _ hp.1, EveryItem.imp h hp.2⟩
  | .object _, hp => ⟨h _ hp.1, EveryEntry.imp h hp.2⟩

/-- What follows from a property that holds everywhere in the items of a sequence holds
    everywhere in them. -/
theorem EveryItem.imp {P Q : Value → Prop} (h : ∀ v, P v → Q v) : ∀ {xs : List Value},
    EveryItem P xs → EveryItem Q xs
  | [], _ => trivial
  | _ :: _, hp => ⟨Every.imp h hp.1, EveryItem.imp h hp.2⟩

/-- What follows from a property that holds everywhere in the values of a mapping holds
    everywhere in them. -/
theorem EveryEntry.imp {P Q : Value → Prop} (h : ∀ v, P v → Q v) :
    ∀ {es : List (String × Value)}, EveryEntry P es → EveryEntry Q es
  | [], _ => trivial
  | (_, _) :: _, hp => ⟨Every.imp h hp.1, EveryEntry.imp h hp.2⟩

end

/-- A value that is no float is not an infinite one or a NaN either. -/
theorem IsFloatFree.isFloatFinite {v : Value} (h : IsFloatFree v) : IsFloatFinite v := by
  cases v with
  | number n =>
    cases n with
    | int i => trivial
    | float x => exact h.elim
  | _ => trivial

/-- If there is no float in a value, then all floats in it are finite. -/
theorem FloatFree.floatsFinite {v : Value} (h : v.FloatFree) : v.FloatsFinite :=
  Every.imp (fun _ => IsFloatFree.isFloatFinite) h

mutual

/-- Two properties of which each holds everywhere hold everywhere together. -/
theorem every_and {P Q : Value → Prop} : ∀ {v : Value}, Every P v → Every Q v →
    Every (fun v => P v ∧ Q v) v
  | .null, hp, hq => ⟨hp, hq⟩
  | .bool _, hp, hq => ⟨hp, hq⟩
  | .number _, hp, hq => ⟨hp, hq⟩
  | .string _, hp, hq => ⟨hp, hq⟩
  | .array _, hp, hq => ⟨⟨hp.1, hq.1⟩, everyItem_and hp.2 hq.2⟩
  | .object _, hp, hq => ⟨⟨hp.1, hq.1⟩, everyEntry_and hp.2 hq.2⟩

/-- Two properties that hold everywhere in the items of a sequence hold there together. -/
theorem everyItem_and {P Q : Value → Prop} : ∀ {xs : List Value}, EveryItem P xs →
    EveryItem Q xs → EveryItem (fun v => P v ∧ Q v) xs
  | [], _, _ => trivial
  | _ :: _, hp, hq => ⟨every_and hp.1 hq.1, everyItem_and hp.2 hq.2⟩

/-- Two properties that hold everywhere in the values of a mapping hold there together. -/
theorem everyEntry_and {P Q : Value → Prop} : ∀ {es : List (String × Value)}, EveryEntry P es →
    EveryEntry Q es → EveryEntry (fun v => P v ∧ Q v) es
  | [], _, _ => trivial
  | (_, _) :: _, hp, hq => ⟨every_and hp.1 hq.1, everyEntry_and hp.2 hq.2⟩

end

/-- A value is sound everywhere exactly if it is well-formed and its floats are finite. -/
theorem every_isSound_iff {v : Value} : Every IsSound v ↔ v.WellFormed ∧ v.FloatsFinite :=
  ⟨fun h => ⟨Every.imp (fun _ hv => hv.1) h, Every.imp (fun _ hv => hv.2) h⟩,
    fun h => every_and h.1 h.2⟩

/-- A property holds everywhere in the items of a sequence exactly if it does in each item. -/
theorem everyItem_iff {P : Value → Prop} {xs : List Value} :
    EveryItem P xs ↔ ∀ v ∈ xs, Every P v := by
  induction xs with
  | nil => simp [EveryItem]
  | cons v rest ih => simp [EveryItem, ih]

/-- A property holds everywhere in the values of a mapping exactly if it does in each value. -/
theorem everyEntry_iff {P : Value → Prop} {es : List (String × Value)} :
    EveryEntry P es ↔ ∀ e ∈ es, Every P e.2 := by
  induction es with
  | nil => simp [EveryEntry]
  | cons e rest ih =>
    obtain ⟨k, v⟩ := e
    simp [EveryEntry, ih]

/-- If a property holds everywhere in a mapping and in a new value, then it does after the value
    was set under any key. -/
theorem everyEntry_put {P : Value → Prop} {v : Value} {es : List (String × Value)}
    (hv : Every P v) (hes : EveryEntry P es) (key : String) :
    EveryEntry P (Entries.put key v es) := by
  refine everyEntry_iff.mpr fun e he => ?_
  rcases Entries.mem_put he with rfl | he
  · exact hv
  · exact everyEntry_iff.mp hes e he

/-- A bound of the depth of the items of a sequence is one of each item. -/
theorem depthItems_le_iff {n : Nat} {xs : List Value} :
    depthItems xs ≤ n ↔ ∀ v ∈ xs, depth v ≤ n := by
  induction xs with
  | nil => simp [depthItems]
  | cons v rest ih => rw [depthItems, Nat.max_le, ih]; simp

/-- A bound of the depth of the values of a mapping is one of each value. -/
theorem depthEntries_le_iff {n : Nat} {es : List (String × Value)} :
    depthEntries es ≤ n ↔ ∀ e ∈ es, depth e.2 ≤ n := by
  induction es with
  | nil => simp [depthEntries]
  | cons e rest ih =>
    obtain ⟨k, v⟩ := e
    rw [depthEntries, Nat.max_le, ih]; simp

/-! ### Nesting

Readers limit how deep containers nest. Whether a limit is met exactly is witnessed by nested
lists.
-/

/-- Lists that nest `n` deep, the innermost with null in it: the smallest value of each depth. -/
def nested : Nat → Value
  | 0 => .null
  | n + 1 => .array [nested n]

/-- There are `n` containers around one another in lists that nest `n` deep. -/
theorem depth_nested (n : Nat) : (nested n).depth = n := by
  induction n with
  | zero => rfl
  | succ n ih => simp [nested, depth, depthItems, ih]

/-- What holds of every list and of null holds everywhere in nested lists. -/
theorem every_nested {P : Value → Prop} (hnull : P .null) (harray : ∀ xs, P (.array xs)) (n : Nat) :
    Every P (nested n) := by
  induction n with
  | zero => exact hnull
  | succ n ih => exact ⟨harray _, ih, trivial⟩

/-- Nested lists are as documents have them, since there is no mapping and no integer in them. -/
theorem wellFormed_nested (n : Nat) : (nested n).WellFormed :=
  every_nested trivial (fun _ => trivial) n

/-- Nested lists have no float. -/
theorem floatFree_nested (n : Nat) : (nested n).FloatFree :=
  every_nested trivial (fun _ => trivial) n

end SchemaEmbed.Value
