import Mathlib.Data.List.Perm.Basic
import Mathlib.Data.List.Perm.Subperm
import SchemaEmbed.Proofs.Decimal.Equality
import SchemaEmbed.Proofs.Entries
import SchemaEmbed.Proofs.Value

namespace SchemaEmbed.Value

/-!
# Values that differ in the order of entries

Two documents say the same if they differ only in the order in which mappings list their entries,
at any depth. `Value.same` computes this by sizes and look-ups, which is short, but says what it
means only if keys are different. Here the meaning is a relation of its own:

* `HasDistinctKeys` — what every mapping of a document has: no key twice;
* `Reordered` — whether a value is another one but for the order of entries of mappings, at any
  depth, and numerically equal floats;
* `Reordered.refl` / `Reordered.symm` / `Reordered.trans` — it is an equivalence;
* `Reordered.every` — what reordering keeps of a value holds everywhere in it after reordering;
* `same_iff_reordered` — **structural equality** decides it where keys are different;
* `same_self` — a value whose floats are finite is structurally equal to itself.

A mapping is reordered in two moves, values first and then the order of entries: `zs` has the keys
of the one mapping in its order, and the entries of the other as a permutation. All laws of the
relation come down to swapping these two moves.
-/

/-- Whether the keys of a value itself are different, if it is a mapping. -/
def HasDistinctKeys : Value → Prop
  | .object es => (Entries.keys es).Nodup
  | _ => True

/-- Whether keys are different in every mapping within a value. -/
def KeysDistinct : Value → Prop := Every HasDistinctKeys

instance : DecidablePred HasDistinctKeys
  | .object es => inferInstanceAs (Decidable (Entries.keys es).Nodup)
  | .null | .bool _ | .number _ | .string _ | .array _ => .isTrue trivial

instance : DecidablePred KeysDistinct := decideEvery

/-- The mappings of a well-formed value have different keys. -/
theorem WellFormed.keysDistinct {v : Value} (h : v.WellFormed) : v.KeysDistinct :=
  h.imp fun v hv => by
    cases v with
    | object es => exact hv
    | _ => trivial

/-- **Equality up to the order of entries.** Sequences agree item by item; the entries of the one
    mapping, brought into the order `zs`, have the keys of the other. -/
inductive Reordered : Value → Value → Prop
  | null : Reordered .null .null
  | bool (b) : Reordered (.bool b) (.bool b)
  | int (i) : Reordered (.number (.int i)) (.number (.int i))
  | float {x y : Binary64} (h : x.Equals y) : Reordered (.number (.float x)) (.number (.float y))
  | string (s) : Reordered (.string s) (.string s)
  | array {xs ys} (h : List.Forall₂ Reordered xs ys) : Reordered (.array xs) (.array ys)
  | object {xs zs ys} (keys : Entries.keys xs = Entries.keys zs)
    (values : List.Forall₂ Reordered (xs.map Prod.snd) (zs.map Prod.snd)) (perm : zs.Perm ys) :
    Reordered (.object xs) (.object ys)

/-! ### Entries one by one

The constructor for mappings has keys and values apart, because an inductive relation can nest
under `Forall₂` only. The two are put together to pairs here, and nothing below looks at the
constructor again.
-/

/-- Whether an entry has the key of another and a value that is its value reordered. -/
def Pairs (e f : String × Value) : Prop := e.1 = f.1 ∧ Reordered e.2 f.2

/-- Entries are paired one by one exactly if their keys agree in order and their values do up to
    reordering. -/
theorem forall₂_pairs_iff {xs zs : Entries Value} :
    List.Forall₂ Pairs xs zs
      ↔ Entries.keys xs = Entries.keys zs
        ∧ List.Forall₂ Reordered (xs.map Prod.snd) (zs.map Prod.snd) := by
  induction xs generalizing zs with
  | nil => cases zs <;> simp [Entries.keys]
  | cons e xs ih =>
    cases zs with
    | nil => simp [Entries.keys]
    | cons f zs =>
      rw [List.forall₂_cons, ih]
      simp only [Entries.keys, List.map_cons, List.cons.injEq, List.forall₂_cons, Pairs]
      tauto

/-- A mapping is another one reordered exactly if its entries are paired one by one with a
    permutation of the entries of the other. -/
theorem reordered_object_iff {xs ys : Entries Value} :
    Reordered (.object xs) (.object ys) ↔ ∃ zs, List.Forall₂ Pairs xs zs ∧ zs.Perm ys := by
  constructor
  · rintro (_ | _ | _ | _ | _ | _ | ⟨keys, values, perm⟩)
    exact ⟨_, forall₂_pairs_iff.mpr ⟨keys, values⟩, perm⟩
  · rintro ⟨zs, hpairs, perm⟩
    obtain ⟨keys, values⟩ := forall₂_pairs_iff.mp hpairs
    exact .object keys values perm

/-- A sequence is another one reordered exactly if their items are, one by one and in order. -/
theorem reordered_array_iff {xs ys : List Value} :
    Reordered (.array xs) (.array ys) ↔ List.Forall₂ Reordered xs ys :=
  ⟨fun h => by cases h; assumption, .array⟩

/-! ### One by one

`Forall₂` between lists, with hypotheses on the members of the first list only, as an induction
over values provides them.
-/

section OneByOne

variable {α β γ : Type} {R : α → β → Prop} {xs : List α} {ys : List β}

/-- Elements that are related in one way are related in another, if the members of the first list
    are. -/
theorem forall₂_of_mem {S : α → β → Prop} (h : List.Forall₂ R xs ys)
    (hmem : ∀ x ∈ xs, ∀ y, R x y → S x y) : List.Forall₂ S xs ys :=
  ((List.forall₂_and_left _ _).mpr ⟨hmem, h⟩).imp fun _ y hxy => hxy.1 y hxy.2

/-- What holds of everything that members of the first list are related to holds of all members of
    the second. -/
theorem forall_mem_of_forall₂ {P : β → Prop} (h : List.Forall₂ R xs ys)
    (hmem : ∀ x ∈ xs, ∀ y, R x y → P y) : ∀ y ∈ ys, P y := by
  have hright : List.Forall₂ (flip fun (y : β) (_ : α) => P y ∧ True) xs ys :=
    forall₂_of_mem h fun x hx y hxy => ⟨hmem x hx y hxy, trivial⟩
  exact ((List.forall₂_and_left _ _).mp hright.flip).1

/-- Elements that are related one by one, and on to a third list, are related to that one by one. -/
theorem forall₂_comp {S : β → γ → Prop} {T : α → γ → Prop} {zs : List γ}
    (h : List.Forall₂ R xs ys) (h' : List.Forall₂ S ys zs)
    (hcomp : ∀ x ∈ xs, ∀ y z, R x y → S y z → T x z) : List.Forall₂ T xs zs := by
  induction h generalizing zs with
  | nil => cases h'; exact .nil
  | cons hxy _ ih =>
    obtain ⟨hhead, htail⟩ := List.forall_mem_cons.mp hcomp
    cases h' with
    | cons hyz hrest => exact .cons (hhead _ _ hxy hyz) (ih hrest htail)

end OneByOne

/-! ### An equivalence

Induction on what is in the first value. Symmetry and transitivity of mappings need the order of
one pairing carried over to another, which is composition of a permutation with a pairing.
-/

namespace Reordered

/-- A value whose floats are finite is itself, reordered in no way. A NaN would not be equal to
    itself. -/
theorem refl {v : Value} (h : v.FloatsFinite) : Reordered v v := by
  induction v using induction_on_members with
  | null => exact .null
  | bool b => exact .bool b
  | number n =>
    cases n with
    | int i => exact .int i
    | float x => exact .float (.refl h)
  | string s => exact .string s
  | array items ih =>
    exact .array (List.forall₂_same.mpr fun v hv => ih v hv (everyItem_iff.mp h.2 v hv))
  | object entries ih =>
    have hpairs : List.Forall₂ Pairs entries entries :=
      List.forall₂_same.mpr fun e he => ⟨rfl, ih e he (everyEntry_iff.mp h.2 e he)⟩
    exact reordered_object_iff.mpr ⟨entries, hpairs, .refl _⟩

/-- **What is a value reordered** can be reordered to be that value. -/
theorem symm {v w : Value} (h : Reordered v w) : Reordered w v := by
  induction v using induction_on_members generalizing w with
  | null => cases h; exact .null
  | bool b => cases h; exact .bool b
  | number n =>
    cases h with
    | int i => exact .int i
    | float hxy => exact .float hxy.symm
  | string s => cases h; exact .string s
  | array items ih =>
    cases h with
    | array hitems =>
      have hflip : List.Forall₂ (flip Reordered) items _ :=
        forall₂_of_mem hitems fun v hv w hvw => ih v hv hvw
      exact .array hflip.flip
  | object entries ih =>
    cases w with
    | object entries' =>
      obtain ⟨zs, hpairs, perm⟩ := reordered_object_iff.mp h
      have hflip : List.Forall₂ (flip Pairs) entries zs :=
        forall₂_of_mem hpairs fun e he f hef => ⟨hef.1.symm, ih e he hef.2⟩
      -- the order of the one mapping is carried over to the other along the pairs
      obtain ⟨ts, hpairs', perm'⟩ := List.perm_comp_forall₂ perm.symm hflip.flip
      exact reordered_object_iff.mpr ⟨ts, hpairs', perm'⟩
    | _ => cases h

/-- **What is reordered twice** is reordered. -/
theorem trans {u v w : Value} (h : Reordered u v) (h' : Reordered v w) : Reordered u w := by
  induction u using induction_on_members generalizing v w with
  | null => cases h; exact h'
  | bool b => cases h; exact h'
  | number n =>
    cases h with
    | int i => exact h'
    | float hxy =>
      cases h' with
      | float hyz => exact .float (hxy.trans hyz)
  | string s => cases h; exact h'
  | array items ih =>
    cases h with
    | array hitems =>
      cases h' with
      | array hitems' => exact .array (forall₂_comp hitems hitems' fun u hu v w => ih u hu)
  | object entries ih =>
    cases v with
    | object entries' =>
      cases w with
      | object entries'' =>
        obtain ⟨ys, hpairs, perm⟩ := reordered_object_iff.mp h
        obtain ⟨zs', hpairs', perm'⟩ := reordered_object_iff.mp h'
        -- the second pairing is brought into the order of the first
        obtain ⟨zs, hzs, hperm⟩ := List.perm_comp_forall₂ perm hpairs'
        have hthrough : List.Forall₂ Pairs entries zs := forall₂_comp hpairs hzs
          fun e he f g hef hfg => ⟨hef.1.trans hfg.1, ih e he hef.2 hfg.2⟩
        exact reordered_object_iff.mpr ⟨zs, hthrough, hperm.trans perm'⟩
      | _ => cases h'
    | _ => cases h

/-- If reordering keeps a property of single values, then it keeps that the property holds
    everywhere. -/
theorem every {P : Value → Prop} (hP : ∀ {v w}, Reordered v w → P v → P w) {v w : Value}
    (hvw : Reordered v w) (h : v.Every P) : w.Every P := by
  induction v using induction_on_members generalizing w with
  | null => cases hvw; exact h
  | bool b => cases hvw; exact h
  | number n =>
    cases hvw with
    | int i => exact h
    | float hxy => exact hP (.float hxy) h
  | string s => cases hvw; exact h
  | array items ih =>
    cases hvw with
    | array hitems =>
      refine ⟨hP (.array hitems) h.1, everyItem_iff.mpr ?_⟩
      exact forall_mem_of_forall₂ hitems fun v hv w hw => ih v hv hw (everyItem_iff.mp h.2 v hv)
  | object entries ih =>
    cases w with
    | object entries' =>
      obtain ⟨zs, hpairs, perm⟩ := reordered_object_iff.mp hvw
      have hzs : ∀ f ∈ zs, f.2.Every P := forall_mem_of_forall₂ hpairs
        fun e he f hef => ih e he hef.2 (everyEntry_iff.mp h.2 e he)
      exact ⟨hP hvw h.1, everyEntry_iff.mpr fun f hf => hzs f (perm.mem_iff.mpr hf)⟩
    | _ => cases hvw

end Reordered

/-! ### Structural equality

The computed test asks for equally many entries and a partner for each. If keys are different, the
partners are different entries, and as there are no more entries than these, they are all of them
in some order.
-/

/-- The look-ups succeed exactly if each entry has a structurally equal partner under its key. -/
theorem sameEntries_iff {xs ys : List (String × Value)} :
    sameEntries xs ys = true
      ↔ ∀ e ∈ xs, ∃ w, Entries.find? e.1 ys = some w ∧ e.2.same w = true := by
  induction xs with
  | nil => simp [sameEntries]
  | cons e xs ih =>
    obtain ⟨k, v⟩ := e
    rw [sameEntries, Bool.and_eq_true, ih, List.forall_mem_cons]
    cases Entries.find? k ys <;> simp

section Partners

variable {xs ys : Entries Value} (hkeys : (Entries.keys xs).Nodup)

include hkeys

/-- Entries that all have partners with their keys among as many others can be paired with
    these, in some order. -/
theorem exists_pairs (hlength : xs.length = ys.length)
    (h : ∀ e ∈ xs, ∃ w, Entries.find? e.1 ys = some w ∧ Reordered e.2 w) :
    ∃ zs, List.Forall₂ Pairs xs zs ∧ zs.Perm ys := by
  -- the partners one by one, all of them among the others
  have hpartners : ∀ {rest : Entries Value}, (∀ e ∈ rest, e ∈ xs) →
      ∃ zs : Entries Value, List.Forall₂ Pairs rest zs ∧ ∀ f ∈ zs, f ∈ ys := by
    intro rest hrest
    induction rest with
    | nil => exact ⟨[], .nil, by simp⟩
    | cons e rest ih =>
      obtain ⟨he, hrest⟩ := List.forall_mem_cons.mp hrest
      obtain ⟨w, hw, hreordered⟩ := h e he
      obtain ⟨zs, hpairs, hzs⟩ := ih hrest
      exact ⟨(e.1, w) :: zs, .cons ⟨rfl, hreordered⟩ hpairs,
        List.forall_mem_cons.mpr ⟨Entries.mem_of_find hw, hzs⟩⟩
  obtain ⟨zs, hpairs, hzs⟩ := hpartners fun _ he => he
  -- they have the keys of the entries, which are different, so that none is missed
  have hnodup : (Entries.keys zs).Nodup := by rwa [← (forall₂_pairs_iff.mp hpairs).1]
  refine ⟨zs, hpairs, (List.subperm_of_subset hnodup.of_map hzs).perm_of_length_le ?_⟩
  rw [← hlength, hpairs.length_eq]

/-- Entries that are paired with a permutation of others have partners under their keys, since
    different keys make look-up exact. -/
theorem partner_of_pairs {zs : Entries Value} (hpairs : List.Forall₂ Pairs xs zs)
    (perm : zs.Perm ys) {e : String × Value} (he : e ∈ xs) :
    ∃ w, Entries.find? e.1 ys = some w ∧ Reordered e.2 w := by
  have hnodup : (Entries.keys ys).Nodup := by
    rw [(forall₂_pairs_iff.mp hpairs).1] at hkeys
    exact (perm.map Prod.fst).nodup_iff.mp hkeys
  obtain ⟨i, hi, rfl⟩ := List.getElem_of_mem he
  have hz : i < zs.length := hpairs.length_eq ▸ hi
  have hpair : Pairs xs[i] zs[i] := hpairs.get hi hz
  refine ⟨_, ?_, hpair.2⟩
  rw [hpair.1]
  exact Entries.find_of_mem hnodup (perm.mem_iff.mp (List.getElem_mem _))

end Partners

/-- Sequences are structurally equal if they are so item by item, and then they have the same
    length. -/
theorem sameItems_iff {xs ys : List Value} :
    sameItems xs ys = true ↔ List.Forall₂ (fun v w => v.same w = true) xs ys := by
  induction xs generalizing ys with
  | nil => cases ys <;> simp [sameItems]
  | cons x xs ih =>
    cases ys with
    | nil => simp [sameItems]
    | cons y ys => rw [sameItems, Bool.and_eq_true, ih, List.forall₂_cons]

/-- **Structural equality** is equality up to the order of entries, if keys are different. -/
theorem same_iff_reordered {v : Value} (h : v.KeysDistinct) (w : Value) :
    v.same w = true ↔ Reordered v w := by
  induction v using induction_on_members generalizing w with
  | null =>
    cases w with
    | null => exact iff_of_true rfl .null
    | _ => exact iff_of_false nofun nofun
  | bool a =>
    cases w with
    | bool b =>
      rw [same, beq_iff_eq]
      exact ⟨fun h => h ▸ .bool a, fun h => by cases h; rfl⟩
    | _ => exact iff_of_false nofun nofun
  | number m =>
    cases w with
    | number n =>
      cases m <;> cases n
      · rw [same, Number.same, beq_iff_eq]
        exact ⟨fun h => h ▸ .int _, fun h => by cases h; rfl⟩
      · exact iff_of_false nofun nofun
      · exact iff_of_false nofun nofun
      · rw [same, Number.same, Binary64.sameNumber_iff]
        exact ⟨.float, fun h => by cases h; assumption⟩
    | _ => cases m <;> exact iff_of_false nofun nofun
  | string s =>
    cases w with
    | string t =>
      rw [same, beq_iff_eq]
      exact ⟨fun h => h ▸ .string s, fun h => by cases h; rfl⟩
    | _ => exact iff_of_false nofun nofun
  | array xs ih =>
    have hitems v (hv : v ∈ xs) := ih v hv (everyItem_iff.mp h.2 v hv)
    cases w with
    | array ys =>
      rw [same, sameItems_iff, reordered_array_iff]
      exact ⟨fun hsame => forall₂_of_mem hsame fun v hv w => (hitems v hv w).mp,
        fun hsame => forall₂_of_mem hsame fun v hv w => (hitems v hv w).mpr⟩
    | _ => exact iff_of_false nofun nofun
  | object xs ih =>
    have hvalues e (he : e ∈ xs) := ih e he (everyEntry_iff.mp h.2 e he)
    cases w with
    | object ys =>
      rw [same, Bool.and_eq_true, beq_iff_eq, sameEntries_iff, reordered_object_iff]
      constructor
      · rintro ⟨hlength, hpartners⟩
        refine exists_pairs h.1 hlength fun e he => ?_
        obtain ⟨w, hw, hsame⟩ := hpartners e he
        exact ⟨w, hw, (hvalues e he w).mp hsame⟩
      · rintro ⟨zs, hpairs, perm⟩
        refine ⟨hpairs.length_eq.trans perm.length_eq, fun e he => ?_⟩
        obtain ⟨w, hw, hreordered⟩ := partner_of_pairs h.1 hpairs perm he
        exact ⟨w, hw, (hvalues e he w).mpr hreordered⟩
    | _ => exact iff_of_false nofun nofun

/-- **A value whose floats are finite** is structurally equal to itself, if keys are different. -/
theorem same_self {v : Value} (hkeys : v.KeysDistinct) (hfinite : v.FloatsFinite) :
    v.same v = true :=
  (same_iff_reordered hkeys v).mpr (.refl hfinite)

end SchemaEmbed.Value
