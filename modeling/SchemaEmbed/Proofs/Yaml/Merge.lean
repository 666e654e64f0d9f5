import Mathlib.Data.List.Perm.Subperm
import Mathlib.Tactic.NormNum
import SchemaEmbed.Proofs.Outcome
import SchemaEmbed.Proofs.Value
import SchemaEmbed.Yaml.Printer
import SchemaEmbed.Yaml.Reader

namespace SchemaEmbed.Yaml

/-!
# Merge keys take something away

On loading, a key `<<` is replaced by the entries of the mapping behind it. A value that has this
key as any other is written with it, and is not read back as it was. This is shown by counting:
whatever a merge takes over, it takes away more.

* `MergeFree` — no mapping of a value has the key `<<`;
* `mergeKeysWithin_ofValue` — the tree of such a value stays as it is;
* `size_mergeKeysWithin_lt` — the tree of any other value becomes smaller, if it has a meaning at
  all.

It is not enough to look at the mapping with the key: what takes the place of its entries could be
the very entries that it had, and a merge further in could undo what one further out did. The size
of a tree, which no merge makes larger and which each merge key makes smaller, rules out both at
once.
-/

/-- Whether a value itself is no mapping with a merge key. Only the string `<<` is such a key;
    the keys of a value are strings, so nothing else has to be looked at. -/
def IsMergeFree : Value → Prop
  | .object es => "<<" ∉ Entries.keys es
  | _ => True

/-- Whether no mapping of a value has a merge key. -/
def MergeFree : Value → Prop := Value.Every IsMergeFree

instance : DecidablePred IsMergeFree
  | .object es => inferInstanceAs (Decidable ("<<" ∉ Entries.keys es))
  | .null | .bool _ | .number _ | .string _ | .array _ => .isTrue trivial

instance : DecidablePred MergeFree := Value.decideEvery

/-! ### Without a merge key

Resolving goes down a tree from the root, and by the height it is given; where there is no merge
key, it returns what it found at every step, whatever that height is.
-/

/-- Among entries with other keys there is no merge key. -/
theorem takeMergeKey_ofEntries {es : List (String × Value)} (h : "<<" ∉ Entries.keys es) :
    takeMergeKey (Tree.ofEntries es) = none := by
  induction es with
  | nil => rfl
  | cons e es ih =>
    obtain ⟨k, v⟩ := e
    simp only [Entries.keys, List.map_cons, List.mem_cons, not_or] at h
    have hkey : isMergeKey (.string k) = false := by
      rw [isMergeKey, beq_eq_false_iff_ne]
      exact Ne.symm h.1
    rw [Tree.ofEntries, takeMergeKey, hkey, if_neg (by decide), ih h.2]
    rfl

/-- A function that keeps every item of a list keeps the list. The order in which the items are
    visited decides only which error comes first, and here there is none. -/
theorem eachFromLast_eq_self {α ε : Type} {f : α → Except ε α} {xs : List α}
    (h : ∀ x ∈ xs, f x = .ok x) : eachFromLast f xs = .ok xs := by
  induction xs with
  | nil => rfl
  | cons x xs ih =>
    obtain ⟨hx, hxs⟩ := List.forall_mem_cons.mp h
    rw [eachFromLast, ih hxs, ok_bind, hx]
    rfl

mutual

/-- **Without a merge key** the tree of a value stays as it is. -/
theorem mergeKeysWithin_ofValue : ∀ {v : Value} (height : Nat), MergeFree v →
    Tree.mergeKeysWithin height (Tree.ofValue v) = .ok (Tree.ofValue v)
  | _, 0, _ => rfl
  | .null, _ + 1, _ => rfl
  | .bool _, _ + 1, _ => rfl
  | .number _, _ + 1, _ => rfl
  | .string _, _ + 1, _ => rfl
  | .array items, height + 1, h => by
    have hitems := eachFromLast_eq_self (mergeKeysWithin_ofItems height h.2)
    rw [Tree.ofValue, Tree.mergeKeysWithin, hitems]
    rfl
  | .object entries, height + 1, h => by
    have hfields : mergeFields (Tree.ofEntries entries) = .ok (Tree.ofEntries entries) := by
      rw [mergeFields, takeMergeKey_ofEntries h.1]
    have hentries := eachFromLast_eq_self (mergeKeysWithin_ofEntries height h.2)
    rw [Tree.ofValue, Tree.mergeKeysWithin, hfields, ok_bind, hentries]
    rfl

/-- Without a merge key in them, the trees of items stay as they are. -/
theorem mergeKeysWithin_ofItems : ∀ {items : List Value} (height : Nat),
    Value.EveryItem IsMergeFree items →
    ∀ t ∈ Tree.ofItems items, Tree.mergeKeysWithin height t = .ok t
  | [], _, _, _, ht => by cases ht
  | _ :: _, height, h, t, ht => by
    rcases List.mem_cons.mp ht with rfl | ht
    · exact mergeKeysWithin_ofValue height h.1
    · exact mergeKeysWithin_ofItems height h.2 t ht

/-- Without a merge key in them, the trees of the values of entries stay as they are. -/
theorem mergeKeysWithin_ofEntries : ∀ {entries : List (String × Value)} (height : Nat),
    Value.EveryEntry IsMergeFree entries → ∀ e ∈ Tree.ofEntries entries,
      (Tree.mergeKeysWithin height e.2).map (Prod.mk e.1) = .ok e
  | [], _, _, _, he => by cases he
  | (_, _) :: _, height, h, e, he => by
    rcases List.mem_cons.mp he with rfl | he
    · rw [mergeKeysWithin_ofValue height h.1]
      rfl
    · exact mergeKeysWithin_ofEntries height h.2 e he

end

/-! ### Sizes

The size of a tree counts its nodes and once more each entry. The lemmas follow a merge in the
order in which it happens: the merge key is taken out (`sizeEntries_takeMergeKey`), entries of one
source are taken over (`sizeEntries_absorb`) or those of several (`sizeEntries_absorbAll`), and so
one mapping is done with (`sizeEntries_mergeFields`).
-/

/-- An entry adds its value, its key and itself to the size of a mapping. -/
@[simp] theorem size_ofEntries_cons (k : String) (v : Value) (es : List (String × Value)) :
    Tree.sizeEntries (Tree.ofEntries ((k, v) :: es))
      = (Tree.ofValue v).size + 2 + Tree.sizeEntries (Tree.ofEntries es) := by
  simp only [Tree.ofEntries, Tree.sizeEntries, Tree.size]
  omega

/-- The size of entries in two parts is that of both. -/
@[simp] theorem sizeEntries_append (xs ys : Fields) :
    Tree.sizeEntries (xs ++ ys) = Tree.sizeEntries xs + Tree.sizeEntries ys := by
  induction xs with
  | nil => simp [Tree.sizeEntries]
  | cons x xs ih =>
    obtain ⟨k, v⟩ := x
    simp only [List.cons_append, Tree.sizeEntries, ih]
    omega

/-- Moving the last entry to the head changes no size: the entries are the same but for their
    order. -/
theorem sizeEntries_lastToFront (fields : Fields) :
    Tree.sizeEntries (lastToFront fields) = Tree.sizeEntries fields := by
  rcases List.eq_nil_or_concat fields with rfl | ⟨fields, e, rfl⟩
  · rfl
  · rw [List.concat_eq_append, lastToFront, List.getLast?_concat, List.dropLast_concat]
    obtain ⟨k, v⟩ := e
    simp [Tree.sizeEntries]
    omega

/-- The value of the merge key and the other entries are smaller than all entries, by the key and
    by the entry that the two made. -/
theorem sizeEntries_takeMergeKey {fields others : Fields} {source : Tree}
    (h : takeMergeKey fields = some (source, others)) :
    Tree.sizeEntries others + source.size + 2 ≤ Tree.sizeEntries fields := by
  induction fields generalizing others with
  | nil => cases h
  | cons e rest ih =>
    obtain ⟨k, v⟩ := e
    have hk : 1 ≤ k.size := by cases k <;> simp [Tree.size]
    rw [takeMergeKey] at h
    split at h
    · cases h
      rw [sizeEntries_lastToFront, Tree.sizeEntries]
      omega
    · obtain ⟨⟨source', others'⟩, hrest, heq⟩ := Option.map_eq_some_iff.mp h
      cases heq
      have := ih hrest
      rw [Tree.sizeEntries, Tree.sizeEntries]
      omega

/-- What is taken over is no larger than where it is taken from; it is smaller if a key is there
    already. -/
theorem sizeEntries_absorb (fields source : Fields) :
    Tree.sizeEntries (absorb fields source)
      ≤ Tree.sizeEntries fields + Tree.sizeEntries source := by
  unfold absorb
  induction source generalizing fields with
  | nil => simp [Tree.sizeEntries]
  | cons e source ih =>
    obtain ⟨k, v⟩ := e
    have := ih (if Tree.hasKey k fields then fields else fields ++ [(k, v)])
    -- the entry at hand is left out or put last, and the others follow as before
    rw [List.foldl_cons]
    refine Nat.le_trans this ?_
    split
    · rw [Tree.sizeEntries]
      omega
    · simp [Tree.sizeEntries]
      omega

/-- What is taken over from several mappings is no larger than they are. -/
theorem sizeEntries_absorbAll {fields fields' : Fields} {sources : List Tree}
    (h : absorbAll fields sources = .ok fields') :
    Tree.sizeEntries fields' ≤ Tree.sizeEntries fields + Tree.sizeItems sources := by
  induction sources generalizing fields with
  | nil =>
    cases h
    exact Nat.le_add_right _ _
  | cons t sources ih =>
    cases t with
    | mapping source =>
      have hrest := ih h
      have hsource := sizeEntries_absorb fields source
      rw [Tree.sizeItems, Tree.size]
      omega
    | _ => cases h

/-- **A merge key** takes something away: itself, at least. Either a mapping has none and stays
    as it is, or its entries become smaller. -/
theorem sizeEntries_mergeFields {fields fields' : Fields} (h : mergeFields fields = .ok fields') :
    fields' = fields ∧ takeMergeKey fields = none
      ∨ Tree.sizeEntries fields' < Tree.sizeEntries fields := by
  unfold mergeFields at h
  split at h
  · next hnone =>
    cases h
    exact .inl ⟨rfl, hnone⟩
  · next source others htake =>
    cases h
    have htaken := sizeEntries_takeMergeKey htake
    have habsorbed := sizeEntries_absorb others source
    rw [Tree.size] at htaken
    exact .inr (by omega)
  · next sources others htake =>
    have htaken := sizeEntries_takeMergeKey htake
    have habsorbed := sizeEntries_absorbAll h
    rw [Tree.size] at htaken
    exact .inr (by omega)
  · cases h
  · cases h

/-! ### The parts of a collection

One part of a collection becomes smaller and none of the others becomes larger, so the whole
becomes smaller. This is a statement on sums over lists, for the items of a sequence and for the
entries of a mapping alike.
-/

/-- The size of items is the sum of their sizes, as a sum over a list: so a function on each item
    can be followed through it. -/
theorem sizeItems_eq_sum (items : List Tree) :
    Tree.sizeItems items = (items.map Tree.size).sum := by
  induction items with
  | nil => rfl
  | cons t items ih => rw [Tree.sizeItems, ih, List.map_cons, List.sum_cons]

/-- The size of an entry: its key, its value and itself. -/
def entrySize (e : Tree × Tree) : Nat := e.1.size + e.2.size + 1

/-- The size of entries is the sum of their sizes, for the same reason. -/
theorem sizeEntries_eq_sum (fields : Fields) :
    Tree.sizeEntries fields = (fields.map entrySize).sum := by
  induction fields with
  | nil => rfl
  | cons e fields ih =>
    obtain ⟨k, v⟩ := e
    rw [Tree.sizeEntries, ih, List.map_cons, List.sum_cons, entrySize]

section Sums

variable {α ε : Type} {f : α → Except ε α} {w : α → Nat} {xs ys : List α}

/-- A function that makes no item of a list larger makes the list no larger. -/
theorem sum_eachFromLast_le (h : eachFromLast f xs = .ok ys)
    (hle : ∀ x ∈ xs, ∀ y, f x = .ok y → w y ≤ w x) :
    (ys.map w).sum ≤ (xs.map w).sum := by
  induction xs generalizing ys with
  | nil =>
    cases h
    exact Nat.le_refl _
  | cons x xs ih =>
    obtain ⟨hx, hxs⟩ := List.forall_mem_cons.mp hle
    obtain ⟨ys', hys', h⟩ := bind_eq_ok_iff.mp h
    obtain ⟨y, hy, h⟩ := bind_eq_ok_iff.mp h
    cases h
    exact Nat.add_le_add (hx y hy) (ih hys' hxs)

/-- A function that makes no item of a list larger, and one of them smaller, makes the list
    smaller. -/
theorem sum_eachFromLast_lt (h : eachFromLast f xs = .ok ys)
    (hle : ∀ x ∈ xs, ∀ y, f x = .ok y → w y ≤ w x)
    (hlt : ∃ x ∈ xs, ∀ y, f x = .ok y → w y < w x) :
    (ys.map w).sum < (xs.map w).sum := by
  induction xs generalizing ys with
  | nil =>
    obtain ⟨x, hx, -⟩ := hlt
    cases hx
  | cons x xs ih =>
    obtain ⟨hx, hxs⟩ := List.forall_mem_cons.mp hle
    obtain ⟨ys', hys', h⟩ := bind_eq_ok_iff.mp h
    obtain ⟨y, hy, h⟩ := bind_eq_ok_iff.mp h
    cases h
    obtain ⟨z, hz, hlt⟩ := hlt
    -- the item that becomes smaller is the first one or one of the others
    rcases List.mem_cons.mp hz with rfl | hz
    · exact Nat.add_lt_add_of_lt_of_le (hlt y hy) (sum_eachFromLast_le hys' hxs)
    · exact Nat.add_lt_add_of_le_of_lt (hx y hy) (ih hys' hxs ⟨z, hz, hlt⟩)

end Sums

/-! ### The whole tree -/

/-- Resolving merge keys makes no tree larger, whatever height it goes to. The induction is on
    the height; each node is its own case. -/
theorem size_mergeKeysWithin_le {height : Nat} {t t' : Tree}
    (h : t.mergeKeysWithin height = .ok t') : t'.size ≤ t.size := by
  induction height generalizing t t' with
  | zero =>
    cases h
    exact Nat.le_refl _
  | succ height ih =>
    cases t with
    | sequence items =>
      obtain ⟨items', hitems, rfl⟩ := map_eq_ok_iff.mp h
      have hsum := sum_eachFromLast_le (w := Tree.size) hitems fun x _ y hy => ih hy
      rw [Tree.size, Tree.size, sizeItems_eq_sum, sizeItems_eq_sum]
      omega
    | mapping fields =>
      obtain ⟨merged, hmerged, h⟩ := bind_eq_ok_iff.mp h
      obtain ⟨fields', hfields, h⟩ := bind_eq_ok_iff.mp h
      cases h
      have hsum := sum_eachFromLast_le (w := entrySize) hfields fun e _ e' he => by
        obtain ⟨value, hvalue, rfl⟩ := map_eq_ok_iff.mp he
        exact Nat.succ_le_succ (Nat.add_le_add_left (ih hvalue) _)
      rw [Tree.size, Tree.size, sizeEntries_eq_sum]
      rw [← sizeEntries_eq_sum merged] at hsum
      -- the merge itself, and then the values of what it left
      rcases sizeEntries_mergeFields hmerged with ⟨rfl, -⟩ | hlt <;> omega
    | tagged tag content =>
      obtain ⟨content', hcontent, rfl⟩ := map_eq_ok_iff.mp h
      have := ih hcontent
      rw [Tree.size, Tree.size]
      omega
    | _ =>
      cases h
      exact Nat.le_refl _

/-- A key `<<` among entries is found as a merge key. -/
theorem takeMergeKey_ne_none {es : List (String × Value)} (h : "<<" ∈ Entries.keys es) :
    takeMergeKey (Tree.ofEntries es) ≠ none := by
  induction es with
  | nil => cases h
  | cons e es ih =>
    obtain ⟨k, v⟩ := e
    rw [Tree.ofEntries, takeMergeKey]
    split
    · simp
    · next hkey =>
      have hne : "<<" ≠ k := by
        rintro rfl
        exact hkey rfl
      have hrest := ih ((List.mem_cons.mp h).resolve_left hne)
      rwa [ne_eq, Option.map_eq_none_iff]

mutual

/-- **With a merge key** the tree of a value becomes smaller. It has to be resolved down to its
    leaves, which a height of its own size is enough for. -/
theorem size_mergeKeysWithin_lt : ∀ {v : Value} {height : Nat} {t : Tree}, ¬ MergeFree v →
    (Tree.ofValue v).size ≤ height → Tree.mergeKeysWithin height (Tree.ofValue v) = .ok t →
    t.size < (Tree.ofValue v).size
  | .null, _, _, h, _, _ => absurd trivial h
  | .bool _, _, _, h, _, _ => absurd trivial h
  | .number _, _, _, h, _, _ => absurd trivial h
  | .string _, _, _, h, _, _ => absurd trivial h
  | .array _, 0, _, _, hsize, _ => by simp [Tree.ofValue, Tree.size] at hsize
  | .object _, 0, _, _, hsize, _ => by simp [Tree.ofValue, Tree.size] at hsize
  | .array items, height + 1, t, h, hsize, hmerge => by
    rw [Tree.ofValue, Tree.size] at hsize ⊢
    obtain ⟨items', hitems, rfl⟩ := map_eq_ok_iff.mp hmerge
    have hlt := sum_eachFromLast_lt (w := Tree.size) hitems
      (fun x _ y hy => size_mergeKeysWithin_le hy)
      (exists_item_lt (fun hall => h ⟨trivial, hall⟩) (Nat.le_of_succ_le_succ hsize))
    rw [Tree.size, sizeItems_eq_sum, sizeItems_eq_sum]
    omega
  | .object entries, height + 1, t, h, hsize, hmerge => by
    rw [Tree.ofValue, Tree.size] at hsize ⊢
    obtain ⟨merged, hmerged, hmerge⟩ := bind_eq_ok_iff.mp hmerge
    obtain ⟨fields, hfields, hmerge⟩ := bind_eq_ok_iff.mp hmerge
    cases hmerge
    have hle : ∀ e ∈ merged, ∀ e', (Tree.mergeKeysWithin height e.2).map (Prod.mk e.1) = .ok e' →
        entrySize e' ≤ entrySize e := fun e _ e' he => by
      obtain ⟨value, hvalue, rfl⟩ := map_eq_ok_iff.mp he
      exact Nat.succ_le_succ (Nat.add_le_add_left (size_mergeKeysWithin_le hvalue) _)
    have hsum := sum_eachFromLast_le (w := entrySize) hfields hle
    rw [Tree.size, sizeEntries_eq_sum fields]
    rw [← sizeEntries_eq_sum merged] at hsum
    rcases sizeEntries_mergeFields hmerged with ⟨rfl, hnone⟩ | hlt
    · -- the mapping itself has no merge key, so one is in an entry
      have hkeys : "<<" ∉ Entries.keys entries := fun hmem => takeMergeKey_ne_none hmem hnone
      have hlt := sum_eachFromLast_lt (w := entrySize) hfields hle
        (exists_entry_lt (fun hall => h ⟨hkeys, hall⟩) (Nat.le_of_succ_le_succ hsize))
      rw [← sizeEntries_eq_sum (Tree.ofEntries entries)] at hlt
      omega
    · -- the mapping itself has a merge key, and what follows makes nothing larger
      omega

/-- If items have a merge key in them, the tree of one of them becomes smaller: the first one
    with a merge key. -/
theorem exists_item_lt : ∀ {items : List Value} {height : Nat},
    ¬ Value.EveryItem IsMergeFree items → Tree.sizeItems (Tree.ofItems items) ≤ height →
    ∃ t ∈ Tree.ofItems items, ∀ t', Tree.mergeKeysWithin height t = .ok t' → t'.size < t.size
  | [], _, h, _ => absurd trivial h
  | v :: items, height, h, hsize => by
    rw [Tree.ofItems, Tree.sizeItems] at hsize
    -- the merge key is in this item or in a later one
    by_cases hv : MergeFree v
    · have hitems : Tree.sizeItems (Tree.ofItems items) ≤ height := by omega
      obtain ⟨t, ht, hlt⟩ := exists_item_lt (fun hall => h ⟨hv, hall⟩) hitems
      exact ⟨t, List.mem_cons_of_mem _ ht, hlt⟩
    · exact ⟨_, List.mem_cons_self, fun t' => size_mergeKeysWithin_lt hv (by omega)⟩

/-- If the values of entries have a merge key in them, that of one of them becomes smaller. -/
theorem exists_entry_lt : ∀ {entries : List (String × Value)} {height : Nat},
    ¬ Value.EveryEntry IsMergeFree entries → Tree.sizeEntries (Tree.ofEntries entries) ≤ height →
    ∃ e ∈ Tree.ofEntries entries, ∀ e',
      (Tree.mergeKeysWithin height e.2).map (Prod.mk e.1) = .ok e' → entrySize e' < entrySize e
  | [], _, h, _ => absurd trivial h
  | (k, v) :: entries, height, h, hsize => by
    rw [size_ofEntries_cons] at hsize
    by_cases hv : MergeFree v
    · have hentries : Tree.sizeEntries (Tree.ofEntries entries) ≤ height := by omega
      obtain ⟨e, he, hlt⟩ := exists_entry_lt (fun hall => h ⟨hv, hall⟩) hentries
      exact ⟨e, List.mem_cons_of_mem _ he, hlt⟩
    · refine ⟨_, List.mem_cons_self, fun e' he => ?_⟩
      obtain ⟨t, ht, rfl⟩ := map_eq_ok_iff.mp he
      exact Nat.succ_lt_succ (Nat.add_lt_add_left (size_mergeKeysWithin_lt hv (by omega) ht) _)

end

end SchemaEmbed.Yaml
