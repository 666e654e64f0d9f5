import Mathlib.Data.List.Infix
import Mathlib.Data.List.TakeWhile
import SchemaEmbed.Proofs.Yaml.RoundTrip
import SchemaEmbed.Proofs.Yaml.Scalars

namespace SchemaEmbed.Yaml

/-!
# The order of keys on loading

The merge key is taken from a mapping by moving the last entry into its place, and what is taken
over is appended. So a mapping keeps its own keys in order if nothing comes after the merge key, or
one entry only, which then takes the place; with two entries or more the last one comes to stand
before the others.

* `afterMergeKey` — the entries that follow the merge key of a mapping;
* `own_prefix_iff` — **one merge** keeps a mapping's own keys in order exactly if at most one entry
  follows the merge key;
* `InOrder` — whether every mapping of a merged tree begins with its own keys, as they stand in the
  loaded tree;
* `Displaces` — whether two entries follow the merge key of a mapping somewhere in a tree;
* `inOrder_iff` — **merging** keeps the order except there;
* `parse_in_order` — and nothing after it changes the order;
* `parse_render_keys` — so that a mapping without a merge key is read as it was written.
-/

/-! ### One merge

Keys are compared as trees here, not as strings. The keys of a loaded mapping are different trees,
and this is why two entries or more cannot be in the same order after the last one was moved.
-/

/-- The entries that follow the merge key of a mapping, none where there is no merge key. -/
def afterMergeKey (fields : Fields) : Fields :=
  (fields.dropWhile fun e => ! isMergeKey e.1).tail

/-- Nothing follows a merge key that is not there. -/
theorem afterMergeKey_eq_nil {fields : Fields} (h : ¬ HasMergeKey fields) :
    afterMergeKey fields = [] := by
  have hall : ∀ e ∈ fields, (! isMergeKey e.1) = true := by
    intro e he
    rw [Bool.not_eq_true', ← Bool.not_eq_true]
    exact fun hkey => h ⟨e, he, hkey⟩
  rw [afterMergeKey, List.dropWhile_eq_nil_iff.mpr hall]
  rfl

/-- What stands after an entry with the merge key, before which there is no other one, is what
    follows the merge key. -/
theorem afterMergeKey_append {before rest : Fields} {e : Tree × Tree}
    (hbefore : ¬ HasMergeKey before) (he : isMergeKey e.1 = true) :
    afterMergeKey (before ++ e :: rest) = rest := by
  have hall : ∀ f ∈ before, (! isMergeKey f.1) = true := by
    intro f hf
    rw [Bool.not_eq_true', ← Bool.not_eq_true]
    exact fun hkey => hbefore ⟨f, hf, hkey⟩
  rw [afterMergeKey, List.dropWhile_append_of_pos hall, List.dropWhile_cons_of_neg (by simp [he])]
  rfl

/-- A mapping that takes over the entries of another one begins with its own, as they were. -/
theorem prefix_absorb (fields source : Fields) : fields <+: absorb fields source := by
  unfold absorb
  induction source generalizing fields with
  | nil => exact List.prefix_refl fields
  | cons e rest ih =>
    rw [List.foldl_cons]
    split
    · exact ih fields
    · exact (List.prefix_append fields [e]).trans (ih _)

/-- A mapping that takes over the entries of several others, one after the other, begins with its
    own. -/
theorem prefix_foldl_absorb (fields : Fields) (sources : List Fields) :
    fields <+: sources.foldl absorb fields := by
  induction sources generalizing fields with
  | nil => exact List.prefix_refl fields
  | cons source rest ih => exact (prefix_absorb fields source).trans (ih _)

/-- Moving the last entry to the head changes the order of the keys exactly if there are two
    entries or more. -/
theorem keys_lastToFront_iff {fields : Fields} (hdistinct : Distinct fields) :
    (lastToFront fields).map Prod.fst = fields.map Prod.fst ↔ fields.length < 2 := by
  rcases fields with _ | ⟨e, _ | ⟨f, rest⟩⟩
  · simp [lastToFront]
  · simp [lastToFront]
  · -- otherwise the first and the last key are equal
    have hlast : lastToFront (e :: f :: rest)
        = (f :: rest).getLast (by simp) :: (e :: f :: rest).dropLast := by
      rw [lastToFront, List.getLast?_eq_some_getLast (by simp), List.getLast_cons (by simp)]
    refine iff_of_false (fun heq => ?_) (by simp)
    rw [hlast] at heq
    have hkey : ((f :: rest).getLast (by simp)).1 = e.1 := (List.cons.inj heq).1
    have hne := (List.pairwise_cons.mp hdistinct).1 _ (List.getLast_mem (by simp))
    rw [hkey, same_self] at hne
    cases hne

/-- **One merge** keeps a mapping's own keys in order, before all that are taken over, exactly if
    at most one entry follows the merge key. -/
theorem own_prefix_iff {fields merged : Fields} (hdistinct : Distinct fields)
    (h : mergeFields fields = .ok merged) :
    (ownFields fields).map Prod.fst <+: merged.map Prod.fst
      ↔ (afterMergeKey fields).length < 2 := by
  rcases mergeFields_eq_ok h with ⟨hnone, rfl⟩ | ⟨source, others, htake, rfl⟩
  · have hkey := takeMergeKey_eq_none_iff.mp hnone
    rw [ownFields_eq_self hkey, afterMergeKey_eq_nil hkey]
    exact iff_of_true (List.prefix_refl _) (by simp)
  · obtain ⟨before, k, rest, rfl, hk, hbefore, rfl⟩ := takeMergeKey_eq_some htake
    have hrest : Distinct rest :=
      (List.pairwise_cons.mp (List.pairwise_append.mp hdistinct).2.1).2
    rw [ownFields_append hbefore hk (hdistinct.not_hasMergeKey hk), afterMergeKey_append hbefore hk,
      ← keys_lastToFront_iff hrest]
    have hprefix :=
      (prefix_foldl_absorb (before ++ lastToFront rest) (mappingsOf source)).map Prod.fst
    constructor
    · -- both are the first keys of the merged mapping, and as many
      intro hown
      have hlength : ((before ++ lastToFront rest).map Prod.fst).length
          = ((before ++ rest).map Prod.fst).length := by
        simp only [List.length_map, List.length_append, (lastToFront_perm rest).length_eq]
      have heq := (List.prefix_of_prefix_length_le hprefix hown hlength.le).eq_of_length hlength
      rw [List.map_append, List.map_append] at heq
      exact List.append_cancel_left heq
    · intro heq
      rw [List.map_append, ← heq, ← List.map_append]
      exact hprefix

/-! ### Trees

A mapping is merged before its values are, and the values that are merged are those of the merged
mapping, with what was taken over. So both relations follow the values of the merged mapping, not
those of the loaded one.
-/

/-- Whether every mapping of a merged tree begins with its own keys, in the order of the loaded
    tree, before what it takes over. -/
inductive InOrder : Tree → Tree → Prop
  | scalar {t} (h : t.IsScalar) : InOrder t t
  | sequence {items items'} (h : List.Forall₂ InOrder items items') :
    InOrder (.sequence items) (.sequence items')
  | tagged {tag t t'} (h : InOrder t t') : InOrder (.tagged tag t) (.tagged tag t')
  | mapping {fields merged fields' : Fields} (hmerged : mergeFields fields = .ok merged)
    (own : (ownFields fields).map Prod.fst <+: fields'.map Prod.fst)
    (values : List.Forall₂ InOrder (merged.map Prod.snd) (fields'.map Prod.snd)) :
    InOrder (.mapping fields) (.mapping fields')

/-- Whether two entries follow the merge key of a mapping, somewhere in a tree as far as it takes
    effect. -/
inductive Displaces : Tree → Prop
  | here {fields} (h : 2 ≤ (afterMergeKey fields).length) : Displaces (.mapping fields)
  | item {items t} (ht : t ∈ items) (h : Displaces t) : Displaces (.sequence items)
  | value {fields merged : Fields} {t} (hmerged : mergeFields fields = .ok merged)
    (ht : t ∈ merged.map Prod.snd) (h : Displaces t) : Displaces (.mapping fields)
  | content {tag t} (h : Displaces t) : Displaces (.tagged tag t)

/-- The values of a mapping are merged one by one, each at its place. -/
theorem forall₂_mergedValues {height : Nat} {fields fields' : Fields}
    (h : eachFromLast (fun (key, value) => (Tree.mergeKeysWithin height value).map (Prod.mk key))
      fields = .ok fields') :
    List.Forall₂ (fun t t' => t.mergeKeysWithin height = .ok t') (fields.map Prod.snd)
      (fields'.map Prod.snd) := by
  rw [List.forall₂_map_left_iff, List.forall₂_map_right_iff]
  refine (forall₂_eachFromLast h).imp fun e e' hmerge => ?_
  obtain ⟨v, hv, rfl⟩ := map_eq_ok_iff.mp hmerge
  exact hv

/-- **Merging keeps the order of keys** except where two entries follow a merge key. The
    induction is on the height up to which the merge goes, which is that of the tree at least. -/
theorem inOrder_iff {height : Nat} {t t' : Tree} (hdistinct : t.Every IsDistinct)
    (hsize : t.size ≤ height) (h : t.mergeKeysWithin height = .ok t') :
    InOrder t t' ↔ ¬ Displaces t := by
  induction height generalizing t t' with
  | zero => cases t <;> simp [Tree.size] at hsize
  | succ height ih =>
    cases t with
    | sequence items =>
      obtain ⟨items', hitems, rfl⟩ := map_eq_ok_iff.mp h
      rw [Tree.size] at hsize
      have hitem : ∀ u ∈ items, ∀ u', u.mergeKeysWithin height = .ok u' →
          (InOrder u u' ↔ ¬ Displaces u) := by
        intro u hu u' hmerge
        have hle := size_le_sizeItems hu
        exact ih (Tree.everyItem_iff.mp hdistinct.2 u hu) (by omega) hmerge
      have hall := forall₂_iff_forall (forall₂_eachFromLast hitems) hitem
      constructor
      · rintro (⟨⟨⟩⟩ | horder) (_ | ⟨hu, hdisplaces⟩)
        exact hall.mp horder _ hu hdisplaces
      · exact fun hplain => .sequence (hall.mpr fun u hu hdisplaces => hplain (.item hu hdisplaces))
    | mapping fields =>
      -- its own keys are kept by the one merge, and every value by induction
      obtain ⟨merged, hmerged, h⟩ := bind_eq_ok_iff.mp h
      obtain ⟨fields', hfields, h⟩ := bind_eq_ok_iff.mp h
      cases h
      have hown := own_prefix_iff hdistinct.1 hmerged
      rw [← map_fst_eachFromLast hfields, ← not_le] at hown
      have hvalue : ∀ u ∈ merged.map Prod.snd, ∀ u', u.mergeKeysWithin height = .ok u' →
          (InOrder u u' ↔ ¬ Displaces u) := by
        intro u hu u' hmerge
        obtain ⟨e, he, rfl⟩ := List.mem_map.mp hu
        have hle := size_merged hmerged he
        exact ih (every_merged hdistinct.2 hmerged he).2 (by omega) hmerge
      have hall := forall₂_iff_forall (forall₂_mergedValues hfields) hvalue
      constructor
      · rintro (⟨⟨⟩⟩ | _ | _ | ⟨hmerged', hkeys, hvalues⟩)
        -- a mapping is merged in one way only
        obtain rfl := Except.ok.inj (hmerged.symm.trans hmerged')
        rintro (hhere | _ | ⟨hmerged', hu, hdisplaces⟩)
        · exact hown.mp hkeys hhere
        · obtain rfl := Except.ok.inj (hmerged.symm.trans hmerged')
          exact hall.mp hvalues _ hu hdisplaces
      · intro hplain
        exact .mapping hmerged (hown.mpr fun hhere => hplain (.here hhere))
          (hall.mpr fun u hu hdisplaces => hplain (.value hmerged hu hdisplaces))
    | tagged tag content =>
      obtain ⟨content', hcontent, rfl⟩ := map_eq_ok_iff.mp h
      rw [Tree.size] at hsize
      have hiff := ih hdistinct.2 (by omega) hcontent
      constructor
      · rintro (⟨⟨⟩⟩ | _ | horder) (_ | _ | _ | hdisplaces)
        exact hiff.mp horder hdisplaces
      · exact fun hplain => .tagged (hiff.mpr fun hdisplaces => hplain (.content hdisplaces))
    | _ =>
      cases h
      exact iff_of_true (.scalar trivial) nofun

/-- **Loading keeps the order of keys** except where two entries follow a merge key: the keys of
    a mapping are those of the merged tree, each as a string, in order. -/
theorem parse_in_order {text : String} {v : Value} (h : parse text = .ok v) :
    ∃ t t', load text = .ok t ∧ t.mergeKeys = .ok t' ∧ (InOrder t t' ↔ ¬ Displaces t)
      ∧ Carries true t' v := by
  obtain ⟨t, t', hload, hmerge, -, hvalue⟩ := parse_eq_ok_iff.mp h
  exact ⟨t, t', hload, hmerge, inOrder_iff (load_distinct hload) (Nat.le_refl _) hmerge,
    toValue_carries hvalue nofun⟩

/-! ### Texts that were written -/

/-- The keys of a tree that was made from entries are the keys of the entries, as strings. -/
theorem keys_ofEntries (es : List (String × Value)) :
    (Tree.ofEntries es).map Prod.fst = (Entries.keys es).map .string := by
  induction es with
  | nil => rfl
  | cons e es ih =>
    obtain ⟨k, v⟩ := e
    rw [Tree.ofEntries, List.map_cons, ih]
    rfl

/-- **The text of a mapping** is read with the same keys in the same order, if `<<` is none of
    them. -/
theorem parse_render_keys {es : List (String × Value)} (hv : (Value.object es).WellFormed)
    (hfinite : (Value.object es).FloatsFinite) (hkeys : "<<" ∉ Entries.keys es) {w : Value}
    (h : parse (render (.object es)) = .ok w) :
    ∃ fs, w = .object fs ∧ Entries.keys fs = Entries.keys es := by
  obtain ⟨t, t', hload, hmerge, -, hvalue⟩ := parse_eq_ok_iff.mp h
  rw [load_render hv hfinite] at hload
  split at hload
  · cases hload
    obtain ⟨merged, hmerged, hmerge⟩ := bind_eq_ok_iff.mp hmerge
    obtain ⟨fields, hfields, hmerge⟩ := bind_eq_ok_iff.mp hmerge
    cases hmerge
    obtain ⟨entries, hentries, rfl⟩ := map_eq_ok_iff.mp hvalue
    -- nothing is taken over
    rw [mergeFields, takeMergeKey_ofEntries hkeys] at hmerged
    cases hmerged
    have hsame : Entries.keys entries = Entries.keys es := by
      have hmap := map_keyOf hentries
      rw [← Function.comp_def keyOf Prod.fst, ← List.map_map, map_fst_eachFromLast hfields,
        keys_ofEntries, List.map_map] at hmap
      exact ((List.map_injective_iff.mpr fun _ _ => Except.ok.inj) hmap).symm
    exact ⟨entries, by rw [Entries.ofList_eq_self (hsame ▸ hv.1)], hsame⟩
  · cases hload

end SchemaEmbed.Yaml
