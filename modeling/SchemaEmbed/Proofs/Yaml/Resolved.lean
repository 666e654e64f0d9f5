import Mathlib.Data.List.Forall2
import Mathlib.Tactic.Choose
import SchemaEmbed.Proofs.Yaml.Load
import SchemaEmbed.Proofs.Yaml.Merge
import SchemaEmbed.Proofs.Yaml.Sources

namespace SchemaEmbed.Yaml

/-!
# Merge keys on loading

A merge takes over the entries of a source as they are written. If the source has a merge key
itself, then this key is taken over as an entry, and the entries behind it are not. Merging goes
from the root of a tree down, so the key that was taken over is not looked at again, and stays in
the tree.

* `Chained` — whether this happens somewhere in a tree;
* `Resolves` — what a tree stands for when every merge key takes effect, however long the chains
  are;
* `keepsMergeKey_iff` — a merge key is left over exactly where sources are chained;
* `resolves_of_mergeKeysWithin` — otherwise merging does what it should;
* `merge_keys_resolve` — **loading** does what it should if no sources are chained, and leaves a
  merge key in the tree if some are.

Both main results are inductions on the height up to which trees are merged, with one case for each
kind of tree; what a single mapping provides after its merge is `provides_iff_mem`.
-/

/-! ### What merging should do

The relation `Resolves` knows nothing of how a merge is done. It says of a mapping that its value
has the entries that the mapping provides, by itself or through its sources, and no others.
-/

/-- Whether somewhere in a tree, as far as it takes effect, a mapping takes entries over from one
    that has a merge key itself. -/
inductive Chained : Tree → Prop
  | here {fields source} (hsource : source ∈ sourcesOf fields) (h : HasMergeKey source) :
    Chained (.mapping fields)
  | item {items t} (ht : t ∈ items) (h : Chained t) : Chained (.sequence items)
  | value {fields e} (he : Provides fields e) (h : Chained e.2) : Chained (.mapping fields)
  | content {tag t} (h : Chained t) : Chained (.tagged tag t)

/-- Whether a mapping somewhere in a tree has a merge key. -/
inductive KeepsMergeKey : Tree → Prop
  | here {fields} (h : HasMergeKey fields) : KeepsMergeKey (.mapping fields)
  | item {items t} (ht : t ∈ items) (h : KeepsMergeKey t) : KeepsMergeKey (.sequence items)
  | value {fields e} (he : e ∈ fields) (h : KeepsMergeKey e.2) : KeepsMergeKey (.mapping fields)
  | content {tag t} (h : KeepsMergeKey t) : KeepsMergeKey (.tagged tag t)

/-- Whether a value is what a tree stands for when every merge key takes effect: a mapping has
    what it provides, each key as a string.  Every entry has an origin among the provided ones
    and is what this one stands for; where several keys become one string, one of them is the
    origin. -/
inductive Resolves : Tree → Value → Prop
  | null : Resolves .null .null
  | bool (b) : Resolves (.bool b) (.bool b)
  | number (n) : Resolves (.number n) (numberValue n)
  | string (s) : Resolves (.string s) (.string s)
  | sequence {items : List Tree} {values : List Value} (length : values.length = items.length)
    (each : ∀ (i : Nat) t v, items[i]? = some t → values[i]? = some v → Resolves t v) :
    Resolves (.sequence items) (.array values)
  | mapping {fields entries} (origin : String × Value → Tree × Tree)
    (distinct : (Entries.keys entries).Nodup)
    (complete : ∀ e, Provides fields e → ∃ k, keyOf e.1 = .ok k ∧ k ∈ Entries.keys entries)
    (provided : ∀ f ∈ entries, Provides fields (origin f) ∧ keyOf (origin f).1 = .ok f.1)
    (each : ∀ f ∈ entries, Resolves (origin f).2 f.2) :
    Resolves (.mapping fields) (.object entries)

/-! ### Parts of a tree

What the inductions need of the parts of a tree: that they are smaller, and that what holds
everywhere in the tree holds of them. The values of a mapping are those of the merged mapping, so
this is said of them too.
-/

/-- An item is no larger than all items of a sequence together. -/
theorem size_le_sizeItems {items : List Tree} {t : Tree} (ht : t ∈ items) :
    t.size ≤ Tree.sizeItems items := by
  induction items with
  | nil => cases ht
  | cons u items ih =>
    rw [Tree.sizeItems]
    rcases List.mem_cons.mp ht with rfl | ht
    · exact Nat.le_add_right _ _
    · exact Nat.le_trans (ih ht) (Nat.le_add_left _ _)

/-- The value of an entry is no larger than all entries of a mapping together. -/
theorem size_le_sizeEntries {fields : Fields} {e : Tree × Tree} (he : e ∈ fields) :
    e.2.size ≤ Tree.sizeEntries fields := by
  induction fields with
  | nil => cases he
  | cons f fields ih =>
    obtain ⟨k, v⟩ := f
    rw [Tree.sizeEntries]
    rcases List.mem_cons.mp he with rfl | he
    · show v.size ≤ _
      omega
    · exact Nat.le_trans (ih he) (Nat.le_add_left _ _)

/-- What holds of all trees in a tree holds of the mappings that it consists of. -/
theorem every_mappingsOf {P : Tree → Prop} {t : Tree} {fields : Fields} (h : t.Every P)
    (hfields : fields ∈ mappingsOf t) : (Tree.mapping fields).Every P := by
  unfold mappingsOf at hfields
  split at hfields
  · obtain rfl := List.mem_singleton.mp hfields
    exact h
  · obtain ⟨u, hu, hsome⟩ := List.mem_filterMap.mp hfields
    have hu' := Tree.everyItem_iff.mp h.2 u hu
    split at hsome
    · cases hsome; exact hu'
    · cases hsome
  · cases hfields

/-- What holds of all entries of a mapping and of all trees in them holds of its sources. -/
theorem every_source {P : Tree → Prop} {fields source : Fields} (h : Tree.EveryEntry P fields)
    (hsource : source ∈ sourcesOf fields) : (Tree.mapping source).Every P := by
  unfold sourcesOf at hsource
  split at hsource
  · next e he =>
    exact every_mappingsOf (Tree.everyEntry_iff.mp h e (List.mem_of_find?_eq_some he)).2 hsource
  · cases hsource

/-- What holds of all entries of a mapping and of all trees in them holds of them after a merge. -/
theorem every_merged {P : Tree → Prop} {fields merged : Fields} (h : Tree.EveryEntry P fields)
    (hmerged : mergeFields fields = .ok merged) {e : Tree × Tree} (he : e ∈ merged) :
    e.1.Every P ∧ e.2.Every P := by
  rcases mem_of_mergeFields hmerged he with he | ⟨f, hf, source, hsource, he⟩
  · exact Tree.everyEntry_iff.mp h e he
  · have hvalue := (Tree.everyEntry_iff.mp h f hf).2
    exact Tree.everyEntry_iff.mp (every_mappingsOf hvalue hsource).2 e he

/-- The keys of each source are different, if those of all mappings in the tree are. -/
theorem distinct_sources {fields : Fields} (h : (Tree.mapping fields).Every IsDistinct) :
    ∀ s ∈ sourcesOf fields, Distinct s :=
  fun _ hs => (every_source h.2 hs).1

/-- The values after a merge are smaller than the mapping before it, even those that were taken
    over. -/
theorem size_merged {fields merged : Fields} (hmerged : mergeFields fields = .ok merged)
    {e : Tree × Tree} (he : e ∈ merged) : e.2.size + 1 ≤ (Tree.mapping fields).size := by
  have hle := size_le_sizeEntries he
  rw [Tree.size]
  rcases sizeEntries_mergeFields hmerged with ⟨rfl, -⟩ | hlt <;> omega

/-! ### Function by function

Merging and structuring apply a function to each item or entry, and fail if it fails for one. Where
it does not, items and results stand beside each other.
-/

/-- A function that is applied to all items from the last on, without failing, is applied to
    each: items and results stand beside each other. -/
theorem forall₂_eachFromLast {α β ε : Type} {f : α → Except ε β} {xs : List α} {ys : List β}
    (h : eachFromLast f xs = .ok ys) : List.Forall₂ (fun x y => f x = .ok y) xs ys := by
  induction xs generalizing ys with
  | nil => cases h; exact .nil
  | cons x xs ih =>
    obtain ⟨ys', hys, h⟩ := bind_eq_ok_iff.mp h
    obtain ⟨y, hy, h⟩ := bind_eq_ok_iff.mp h
    cases h
    exact .cons hy (ih hys)

/-- All items of a sequence that has a structured value have one, in order. -/
theorem forall₂_toItems {items : List Tree} {values : List Value}
    (h : Tree.toItems items = .ok values) :
    List.Forall₂ (fun t v => t.toValue = .ok v) items values := by
  induction items generalizing values with
  | nil => cases h; exact .nil
  | cons t items ih =>
    obtain ⟨v, hv, h⟩ := bind_eq_ok_iff.mp h
    obtain ⟨values', hvalues, h⟩ := bind_eq_ok_iff.mp h
    cases h
    exact .cons hv (ih hvalues)

/-- All entries of a mapping that has a structured value have a key that is a string and a
    structured value, in order. -/
theorem forall₂_toEntries {fields : Fields} {entries : List (String × Value)}
    (h : Tree.toEntries fields = .ok entries) :
    List.Forall₂ (fun e f => keyOf e.1 = .ok f.1 ∧ e.2.toValue = .ok f.2) fields entries := by
  induction fields generalizing entries with
  | nil => cases h; exact .nil
  | cons e fields ih =>
    obtain ⟨key, value⟩ := e
    obtain ⟨k, hk, h⟩ := bind_eq_ok_iff.mp h
    obtain ⟨v, hv, h⟩ := bind_eq_ok_iff.mp h
    obtain ⟨entries', hentries, h⟩ := bind_eq_ok_iff.mp h
    cases h
    exact .cons ⟨hk, hv⟩ (ih hentries)

/-- What stands in the first list stands beside something in the second one. -/
theorem exists_right {α β : Type} {R : α → β → Prop} {xs : List α} {ys : List β}
    (h : List.Forall₂ R xs ys) {x : α} (hx : x ∈ xs) : ∃ y ∈ ys, R x y := by
  induction h with
  | nil => cases hx
  | cons hr _ ih =>
    rcases List.mem_cons.mp hx with rfl | hx
    · exact ⟨_, List.mem_cons_self, hr⟩
    · obtain ⟨y, hy, hr⟩ := ih hx
      exact ⟨y, List.mem_cons_of_mem _ hy, hr⟩

/-- What has a place in the first list stands beside what has the same place in the second one. -/
theorem get_right {α β : Type} {R : α → β → Prop} {xs : List α} {ys : List β}
    (h : List.Forall₂ R xs ys) {i : Nat} {x : α} (hx : xs[i]? = some x) :
    ∃ y, ys[i]? = some y ∧ R x y := by
  induction h generalizing i with
  | nil => cases hx
  | cons hr _ ih =>
    cases i with
    | zero => cases hx; exact ⟨_, rfl, hr⟩
    | succ i => exact ih hx

/-- What stands in the second list stands beside something in the first one. -/
theorem exists_left {α β : Type} {R : α → β → Prop} {xs : List α} {ys : List β}
    (h : List.Forall₂ R xs ys) {y : β} (hy : y ∈ ys) : ∃ x ∈ xs, R x y :=
  exists_right h.flip hy

/-- Where only the values of entries are changed, the keys are left as they are. -/
theorem map_fst_eachFromLast {ε : Type} {f : Tree → Except ε Tree} {fields fields' : Fields}
    (h : eachFromLast (fun (key, value) => (f value).map (Prod.mk key)) fields = .ok fields') :
    fields'.map Prod.fst = fields.map Prod.fst := by
  have hall := forall₂_eachFromLast h
  clear h
  induction hall with
  | nil => rfl
  | cons hvalue _ ih =>
    obtain ⟨v, -, rfl⟩ := map_eq_ok_iff.mp hvalue
    rw [List.map_cons, List.map_cons, ih]

/-- Whether a mapping has a merge key depends on its keys only, and not on what stands under
    them. -/
theorem hasMergeKey_iff {fields : Fields} :
    HasMergeKey fields ↔ ∃ k ∈ fields.map Prod.fst, isMergeKey k = true := by
  simp [HasMergeKey]

/-- What stands beside each other in two lists is related exactly if something holds of every
    member of the first one, if this is so for each of them. -/
theorem forall₂_iff_forall {α β : Type} {R S : α → β → Prop} {P : α → Prop} {xs : List α}
    {ys : List β} (hall : List.Forall₂ R xs ys) (h : ∀ x ∈ xs, ∀ y, R x y → (S x y ↔ P x)) :
    List.Forall₂ S xs ys ↔ ∀ x ∈ xs, P x := by
  induction hall with
  | nil => simp
  | cons hxy _ ih =>
    obtain ⟨hx, hxs⟩ := List.forall_mem_cons.mp h
    rw [List.forall₂_cons, List.forall_mem_cons, hx _ hxy, ih hxs]

/-- **What holds everywhere in a merged tree**: what does not depend on the content of a tagged
    tree or of a sequence, and holds of a mapping after a merge, whatever became of its values. -/
theorem every_mergeKeysWithin {P Q : Tree → Prop} (hPQ : ∀ t, P t → Q t)
    (hsequence : ∀ items, Q (.sequence items)) (htagged : ∀ tag t, Q (.tagged tag t))
    (hmapping : ∀ fields merged fields', P (.mapping fields) → mergeFields fields = .ok merged →
      fields'.map Prod.fst = merged.map Prod.fst → Q (.mapping fields'))
    {height : Nat} {t t' : Tree} (hevery : t.Every P) (h : t.mergeKeysWithin height = .ok t') :
    t'.Every Q := by
  induction height generalizing t t' with
  | zero =>
    cases h
    exact hevery.mono hPQ
  | succ height ih =>
    cases t with
    | sequence items =>
      obtain ⟨items', hitems, rfl⟩ := map_eq_ok_iff.mp h
      refine ⟨hsequence _, Tree.everyItem_iff.mpr fun u' hu' => ?_⟩
      obtain ⟨u, hu, hmerge⟩ := exists_left (forall₂_eachFromLast hitems) hu'
      exact ih (Tree.everyItem_iff.mp hevery.2 u hu) hmerge
    | mapping fields =>
      obtain ⟨merged, hmerged, h⟩ := bind_eq_ok_iff.mp h
      obtain ⟨fields', hfields, h⟩ := bind_eq_ok_iff.mp h
      cases h
      refine ⟨hmapping fields merged fields' hevery.1 hmerged (map_fst_eachFromLast hfields),
        Tree.everyEntry_iff.mpr fun e' he' => ?_⟩
      obtain ⟨e, he, hmerge⟩ := exists_left (forall₂_eachFromLast hfields) he'
      obtain ⟨v, hv, rfl⟩ := map_eq_ok_iff.mp hmerge
      obtain ⟨hkey, hvalue⟩ := every_merged hevery.2 hmerged he
      exact ⟨hkey.mono hPQ, ih hvalue hv⟩
    | tagged tag content =>
      obtain ⟨content', hcontent, rfl⟩ := map_eq_ok_iff.mp h
      exact ⟨htagged _ _, ih hevery.2 hcontent⟩
    | _ =>
      cases h
      exact hPQ _ hevery

/-! ### Merge keys that are left over

A merge key that is left over was taken over from a source, since a mapping's own one is taken out
of it.
-/

/-- **A merge key is left over** exactly where sources are chained. The induction is on the
    height up to which the merge goes. -/
theorem keepsMergeKey_iff {height : Nat} {t t' : Tree} (hdistinct : t.Every IsDistinct)
    (hsize : t.size ≤ height) (h : t.mergeKeysWithin height = .ok t') :
    KeepsMergeKey t' ↔ Chained t := by
  induction height generalizing t t' with
  | zero => cases t <;> simp [Tree.size] at hsize
  | succ height ih =>
    cases t with
    | sequence items =>
      obtain ⟨items', hitems, rfl⟩ := map_eq_ok_iff.mp h
      have hall := forall₂_eachFromLast hitems
      rw [Tree.size] at hsize
      -- the same for every item
      have hitem {u u' : Tree} (hu : u ∈ items) (hu' : u.mergeKeysWithin height = .ok u') :
          KeepsMergeKey u' ↔ Chained u := by
        have hle := size_le_sizeItems hu
        exact ih (Tree.everyItem_iff.mp hdistinct.2 u hu) (by omega) hu'
      constructor
      · rintro (_ | ⟨hu', hkeeps⟩)
        obtain ⟨u, hu, hmerge⟩ := exists_left hall hu'
        exact .item hu ((hitem hu hmerge).mp hkeeps)
      · rintro (_ | ⟨hu, hchained⟩)
        obtain ⟨u', hu', hmerge⟩ := exists_right hall hu
        exact .item hu' ((hitem hu hmerge).mpr hchained)
    | mapping fields =>
      obtain ⟨merged, hmerged, h⟩ := bind_eq_ok_iff.mp h
      obtain ⟨fields', hfields, h⟩ := bind_eq_ok_iff.mp h
      cases h
      have hall := forall₂_eachFromLast hfields
      have hsources := distinct_sources hdistinct
      -- keys are left as they are, and values are merged one by one
      have hkeys : HasMergeKey fields' ↔ HasMergeKey merged := by
        rw [hasMergeKey_iff, hasMergeKey_iff, map_fst_eachFromLast hfields]
      by_cases hchained : ∃ s ∈ sourcesOf fields, HasMergeKey s
      · -- the mapping itself takes over a merge key, so both sides hold
        obtain ⟨s, hs, hkey⟩ := hchained
        have hleft := hkeys.mpr
          ((mergeKey_of_source hdistinct.1 hsources hmerged).mpr ⟨s, hs, hkey⟩)
        exact ⟨fun _ => .here hs hkey, fun _ => .here hleft⟩
      · -- no source has one, so what counts is in the values
        have hplain : ∀ s ∈ sourcesOf fields, ¬ HasMergeKey s := fun s hs hkey =>
          hchained ⟨s, hs, hkey⟩
        have hvalue {e : Tree × Tree} {v : Tree} (he : e ∈ merged)
            (hv : e.2.mergeKeysWithin height = .ok v) : KeepsMergeKey v ↔ Chained e.2 := by
          have hle := size_merged hmerged he
          exact ih (every_merged hdistinct.2 hmerged he).2 (by omega) hv
        constructor
        · rintro (hkey | _ | ⟨he', hkeeps⟩)
          · exact absurd ((mergeKey_of_source hdistinct.1 hsources hmerged).mp (hkeys.mp hkey))
              hchained
          · obtain ⟨e, he, hmerge⟩ := exists_left hall he'
            obtain ⟨v, hv, rfl⟩ := map_eq_ok_iff.mp hmerge
            exact .value ((provides_iff_mem hdistinct.1 hsources hmerged hplain).mpr he)
              ((hvalue he hv).mp hkeeps)
        · rintro (⟨hs, hkey⟩ | _ | ⟨he, hchained'⟩)
          · exact absurd hkey (hplain _ hs)
          · have he' := (provides_iff_mem hdistinct.1 hsources hmerged hplain).mp he
            obtain ⟨f, hf, hmerge⟩ := exists_right hall he'
            obtain ⟨v, hv, rfl⟩ := map_eq_ok_iff.mp hmerge
            exact .value hf ((hvalue he' hv).mpr hchained')
    | tagged tag content =>
      obtain ⟨content', hcontent, rfl⟩ := map_eq_ok_iff.mp h
      rw [Tree.size] at hsize
      have hiff := ih hdistinct.2 (by omega) hcontent
      constructor
      · rintro (_ | _ | _ | hkeeps)
        exact .content (hiff.mp hkeeps)
      · rintro (_ | _ | _ | hchained)
        exact .content (hiff.mpr hchained)
    | _ =>
      cases h
      exact iff_of_false (fun h => by cases h) fun h => by cases h

/-! ### Merge keys that take effect

Where no sources are chained, what a mapping provides is what it has after its merge, so the
entries of the value have their origins among the merged ones.
-/

/-- **Merging does what it should** where no sources are chained: a value that the merged tree
    has is one that the tree stands for. -/
theorem resolves_of_mergeKeysWithin {height : Nat} {t t' : Tree} {v : Value}
    (hdistinct : t.Every IsDistinct) (hsize : t.size ≤ height) (hplain : ¬ Chained t)
    (h : t.mergeKeysWithin height = .ok t') (hv : t'.toValue = .ok v) : Resolves t v := by
  induction height generalizing t t' v with
  | zero => cases t <;> simp [Tree.size] at hsize
  | succ height ih =>
    cases t with
    | sequence items =>
      obtain ⟨items', hitems, rfl⟩ := map_eq_ok_iff.mp h
      obtain ⟨values, hvalues, rfl⟩ := map_eq_ok_iff.mp hv
      have hall := forall₂_eachFromLast hitems
      have hall' := forall₂_toItems hvalues
      rw [Tree.size] at hsize
      refine .sequence (hall'.length_eq.symm.trans hall.length_eq.symm) fun i u w hu hw => ?_
      obtain ⟨u', hu', hmerge⟩ := get_right hall hu
      obtain ⟨w', hw', hvalue⟩ := get_right hall' hu'
      obtain rfl : w = w' := Option.some.inj (hw.symm.trans hw')
      have hmem := List.mem_of_getElem? hu
      have hle := size_le_sizeItems hmem
      exact ih (Tree.everyItem_iff.mp hdistinct.2 u hmem) (by omega)
        (fun hchained => hplain (.item hmem hchained)) hmerge hvalue
    | mapping fields =>
      obtain ⟨merged, hmerged, h⟩ := bind_eq_ok_iff.mp h
      obtain ⟨fields', hfields, h⟩ := bind_eq_ok_iff.mp h
      cases h
      obtain ⟨entries, hentries, rfl⟩ := map_eq_ok_iff.mp hv
      have hprovides {e : Tree × Tree} : Provides fields e ↔ e ∈ merged :=
        provides_iff_mem hdistinct.1 (distinct_sources hdistinct) hmerged
          fun s hs hkey => hplain (.here hs hkey)
      have hall := forall₂_eachFromLast hfields
      have hall' := forall₂_toEntries hentries
      -- every entry that is written has an origin, and so have those that are kept of them
      have hwritten : ∀ f ∈ entries, ∃ e, (Provides fields e ∧ keyOf e.1 = .ok f.1) ∧
          Resolves e.2 f.2 := by
        intro f hf
        obtain ⟨e', he', hkey, hvalue⟩ := exists_left hall' hf
        obtain ⟨e, he, hmerge⟩ := exists_left hall he'
        obtain ⟨w, hw, rfl⟩ := map_eq_ok_iff.mp hmerge
        have hle := size_merged hmerged he
        exact ⟨e, ⟨hprovides.mpr he, hkey⟩, ih (every_merged hdistinct.2 hmerged he).2 (by omega)
          (fun hchained => hplain (.value (hprovides.mpr he) hchained)) hw hvalue⟩
      obtain ⟨hnodup, hkept⟩ := Entries.ofList_spec hwritten
      -- an origin is chosen for every entry that is kept
      choose! origin horigin using hkept
      refine .mapping origin hnodup (fun e he => ?_) (fun f hf => (horigin f hf).1)
        fun f hf => (horigin f hf).2
      obtain ⟨e', he', hmerge⟩ := exists_right hall (hprovides.mp he)
      obtain ⟨w, -, rfl⟩ := map_eq_ok_iff.mp hmerge
      obtain ⟨f, hf, hkey, -⟩ := exists_right hall' he'
      exact ⟨f.1, hkey, Entries.mem_keys_ofList.mpr (List.mem_map_of_mem hf)⟩
    | tagged tag content =>
      obtain ⟨content', -, rfl⟩ := map_eq_ok_iff.mp h
      cases hv
    | null => cases h; cases hv; exact .null
    | bool b => cases h; cases hv; exact .bool b
    | number n => cases h; cases hv; exact .number n
    | string s => cases h; cases hv; exact .string s

/-- What a mapping provides is never under the merge key. -/
theorem Provides.not_isMergeKey {fields : Fields} {e : Tree × Tree} (h : Provides fields e) :
    isMergeKey e.1 = false := by
  induction h with
  | own he => simpa using (List.mem_filter.mp he).2
  | taken _ _ _ _ ih => exact ih

/-- Only the merge key becomes the string `<<`: numbers, truth values and null become other
    strings. -/
theorem isMergeKey_of_keyOf {k : Tree} (h : keyOf k = .ok "<<") : isMergeKey k = true := by
  cases k with
  | string s => cases h; rfl
  | bool b => cases b <;> simp [keyOf] at h
  | number n =>
    -- the text of a number begins with a digit or a minus
    have hnot {text : String} (htext : BeginsNumber text.toList) : text ≠ "<<" := by
      rintro rfl
      obtain ⟨c, rest, hc, heq | heq⟩ := htext
      · obtain ⟨rfl, -⟩ := List.cons.inj heq
        exact absurd hc (by decide)
      · exact absurd (List.cons.inj heq).1 (by decide)
    cases n with
    | int i => exact absurd (Except.ok.inj h) (hnot (beginsNumber_toString i))
    | float x =>
      rw [keyOf] at h
      split at h
      · next hfinite =>
        refine absurd (Except.ok.inj h) (hnot ?_)
        rw [FloatLayout.render, String.toList_ofList]
        exact beginsNumber_renderChars _ hfinite
      · cases h
  | _ => cases h

/-- A value in which every merge key took effect has none, at any depth. -/
theorem Resolves.mergeFree {t : Tree} {v : Value} (h : Resolves t v) : MergeFree v := by
  induction h with
  | null | bool | string => trivial
  | number n =>
    cases n with
    | int i => trivial
    | float x =>
      rw [numberValue]
      split <;> trivial
  | sequence length each ih =>
    refine ⟨trivial, Value.everyItem_iff.mpr fun v hv => ?_⟩
    obtain ⟨i, hi, rfl⟩ := List.getElem_of_mem hv
    exact ih i _ _ (List.getElem?_eq_getElem (length ▸ hi)) (List.getElem?_eq_getElem hi)
  | mapping origin distinct complete provided each ih =>
    refine ⟨fun hkey => ?_, Value.everyEntry_iff.mpr fun f hf => ih f hf⟩
    obtain ⟨f, hf, heq⟩ := List.mem_map.mp hkey
    obtain ⟨hprovides, hof⟩ := provided f hf
    rw [heq] at hof
    have hnot := hprovides.not_isMergeKey
    rw [isMergeKey_of_keyOf hof] at hnot
    cases hnot

/-! ### Texts

A text is loaded as a tree, the tree is merged, and the merged tree has a structured value. The
first two steps are where merge keys are treated.
-/

/-- When a text is parsed: it is loaded, merged, and then has a structured value. -/
theorem parse_eq_ok_iff {text : String} {v : Value} :
    parse text = .ok v ↔ ∃ t t', load text = .ok t ∧ t.mergeKeys = .ok t' ∧
      t'.findTag "" = none ∧ t'.toValue = .ok v := by
  rw [parse, mapError_eq_ok_iff, read]
  constructor
  · intro h
    obtain ⟨t, hload, h⟩ := bind_eq_ok_iff.mp h
    obtain ⟨t', hmerge, h⟩ := bind_eq_ok_iff.mp h
    split at h
    · cases h
    · next htag =>
      exact ⟨t, t', mapError_eq_ok_iff.mp hload, mapError_eq_ok_iff.mp hmerge, htag, h⟩
  · rintro ⟨t, t', hload, hmerge, htag, hvalue⟩
    refine bind_eq_ok_iff.mpr ⟨t, mapError_eq_ok_iff.mpr hload, bind_eq_ok_iff.mpr
      ⟨t', mapError_eq_ok_iff.mpr hmerge, ?_⟩⟩
    rw [htag]
    exact hvalue

/-- **Loading resolves merge keys** where no sources are chained: the value is what the text
    stands for when every merge key takes effect, and has no merge key.  Where sources are
    chained, and only there, the tree that the value is made of has a merge key left over. -/
theorem merge_keys_resolve {text : String} {v : Value} (h : parse text = .ok v) :
    ∃ t t', load text = .ok t ∧ t.mergeKeys = .ok t' ∧ t'.toValue = .ok v
      ∧ (¬ Chained t → Resolves t v ∧ MergeFree v) ∧ (KeepsMergeKey t' ↔ Chained t) := by
  obtain ⟨t, t', hload, hmerge, -, hvalue⟩ := parse_eq_ok_iff.mp h
  have hdistinct := load_distinct hload
  refine ⟨t, t', hload, hmerge, hvalue, fun hplain => ?_,
    keepsMergeKey_iff hdistinct (Nat.le_refl _) hmerge⟩
  have hresolves := resolves_of_mergeKeysWithin hdistinct (Nat.le_refl _) hplain hmerge hvalue
  exact ⟨hresolves, hresolves.mergeFree⟩

/-- A mapping with an entry and two sources.  It has a key in common with the first of them,
    and they have one in common with each other. -/
def twoSources : Value :=
  .object [("<<", .array [.object [("x", .number (.int 1)), ("y", .number (.int 2))],
    .object [("x", .number (.int 3)), ("z", .number (.int 4))]]), ("y", .number (.int 5))]

/-- The own entry of that mapping counts first, and then the first source does. -/
theorem merge_keys_resolve_two :
    let v := Value.object
      [("y", .number (.int 5)), ("x", .number (.int 1)), ("z", .number (.int 4))]
    parse (render twoSources) = .ok v
      ∧ ∃ t, load (render twoSources) = .ok t ∧ ¬ Chained t ∧ Resolves t v ∧ MergeFree v := by
  intro v
  have hload : load (render twoSources) = .ok (Tree.ofValue twoSources) :=
    load_render (by decide) (by decide)
  have hmerge : (Tree.ofValue twoSources).mergeKeys = .ok (Tree.ofValue v) := by
    simp [twoSources, v, Tree.ofValue, Tree.ofItems, Tree.ofEntries, Tree.mergeKeys, Tree.size,
      Tree.sizeEntries, Tree.sizeItems, Tree.mergeKeysWithin, mergeFields, takeMergeKey,
      isMergeKey, lastToFront, absorbAll, absorb, Tree.hasKey, Tree.same]
    rfl
  have hparse : parse (render twoSources) = .ok v :=
    parse_eq_ok_iff.mpr ⟨_, _, hload, hmerge, rfl, rfl⟩
  obtain ⟨t, t', ht, ht', -, hresolve, hkeeps⟩ := merge_keys_resolve hparse
  obtain rfl : t = Tree.ofValue twoSources := Except.ok.inj (ht.symm.trans hload)
  obtain rfl : t' = Tree.ofValue v := Except.ok.inj (ht'.symm.trans hmerge)
  -- nothing is left over, so that no sources are chained
  have hplain : ¬ Chained (Tree.ofValue twoSources) := by
    rw [← hkeeps]
    rintro (⟨e, he, hkey⟩ | _ | ⟨he, hkey⟩)
    · simp only [Tree.ofEntries, List.mem_cons, List.not_mem_nil, or_false] at he
      rcases he with rfl | rfl | rfl <;> cases hkey
    · simp only [Tree.ofEntries, List.mem_cons, List.not_mem_nil, or_false] at he
      rcases he with rfl | rfl | rfl <;> cases hkey
  exact ⟨hparse, _, hload, hplain, hresolve hplain⟩

/-- **A source with a merge key of its own**: the key is taken over as an entry, and stays in
    the value. -/
theorem merge_key_left_over :
    parse "<<:\n  <<:\n    x: 1\n"
        = .ok (.object [("<<", .object [("x", .number (.int 1))])])
      ∧ ¬ MergeFree (.object [("<<", .object [("x", .number (.int 1))])]) := by
  have htext : render (.object [("<<", .object [("<<", .object [("x", .number (.int 1))])])])
      = "<<:\n  <<:\n    x: 1\n" := by decide +kernel
  have hload : load "<<:\n  <<:\n    x: 1\n" = .ok (Tree.ofValue
      (.object [("<<", .object [("<<", .object [("x", .number (.int 1))])])])) := by
    rw [← htext]
    exact load_render (by decide) (by decide)
  constructor
  · rw [parse, read, hload]
    rfl
  · decide

end SchemaEmbed.Yaml
