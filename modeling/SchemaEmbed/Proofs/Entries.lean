import Mathlib.Data.List.Induction
import SchemaEmbed.Value

namespace SchemaEmbed.Entries

/-!
# Entries of a mapping

A mapping is a list of entries in the order of the document, and `put` is the only way in which one
is changed. What looking up, setting and removing a key do to each other:

* `find_put` — look-up after an update sees the new value under its key only;
* `put_comm` — updates of two keys can be made in either order, unless both are new;
* `keys_put` — an update keeps the keys in order and appends a new one;
* `ofList_eq_self` — entries with different keys are not changed by being written one after the
  other;
* `keys_ofList` / `find_ofList` — of entries written one after the other, each key is kept in its
  first place and with its last value;
* `ofList_spec` — whatever is written, what is kept of it has different keys.

Nothing here assumes that keys are different unless it is said: the functions are defined on any
list, and lists with a repeated key come up while a document is read.
-/

variable {α : Type}

/-- Look-up after an update finds the new value under the key that was set, and what was there
    before under any other. -/
theorem find_put (k key : String) (v : α) (es : Entries α) :
    find? k (put key v es) = if key = k then some v else find? k es := by
  induction es with
  | nil => simp [put, find?]
  | cons e rest ih =>
    obtain ⟨l, w⟩ := e
    -- the first entry has the key that is set, or it is passed over by both
    by_cases hl : l = key
    · subst hl
      by_cases hk : l = k <;> simp [put, find?, hk]
    · by_cases hk : l = k
      · subst hk
        simp [put, find?, hl, Ne.symm hl]
      · simp [put, find?, hl, hk, ih]

/-- Without the entries of one key, that key is not found and every other one as before, also if
    the key was there more than once. -/
theorem find_filter_ne (k key : String) (es : Entries α) :
    find? k (es.filter fun e => e.1 != key) = if k = key then none else find? k es := by
  induction es with
  | nil => simp [find?]
  | cons e rest ih =>
    obtain ⟨l, w⟩ := e
    by_cases hl : l = key
    · subst hl
      by_cases hk : k = l
      · subst hk
        simpa using ih
      · simpa [find?, hk, Ne.symm hk] using ih
    · by_cases hk : l = k
      · subst hk
        simp [find?, hl]
      · simp [find?, hl, hk, ih]

/-- Look-up after something was made of every value finds what was made of the value. -/
theorem find_map {β : Type} (f : α → β) (k : String) (es : Entries α) :
    find? k (es.map fun e => (e.1, f e.2)) = (find? k es).map f := by
  induction es with
  | nil => rfl
  | cons e rest ih =>
    obtain ⟨l, w⟩ := e
    by_cases hl : l = k
    · simp [find?, hl]
    · simpa [find?, hl] using ih

/-- A key is found exactly if it is among the keys. -/
theorem find_isSome_iff {k : String} {es : Entries α} : (find? k es).isSome ↔ k ∈ keys es := by
  induction es with
  | nil => simp [find?, keys]
  | cons e rest ih =>
    obtain ⟨l, w⟩ := e
    by_cases hl : l = k
    · subst hl
      simp [find?, keys]
    · simp only [find?, hl, ↓reduceIte, ih]
      simp [keys, Ne.symm hl]

/-- A key is not found exactly if it is absent. -/
theorem find_eq_none_iff {k : String} {es : Entries α} : find? k es = none ↔ k ∉ keys es := by
  rw [← find_isSome_iff]
  cases find? k es <;> simp

/-- What is found under a key is an entry of the mapping. -/
theorem mem_of_find {k : String} {v : α} {es : Entries α} (h : find? k es = some v) :
    (k, v) ∈ es := by
  induction es with
  | nil => cases h
  | cons e rest ih =>
    obtain ⟨l, w⟩ := e
    by_cases hl : l = k
    · subst hl
      simp only [find?, ↓reduceIte, Option.some.injEq] at h
      rw [h]
      exact List.mem_cons_self
    · simp only [find?, hl, ↓reduceIte] at h
      exact List.mem_cons_of_mem _ (ih h)

/-- If keys are different, then each entry is found under its key. Otherwise an earlier entry of
    the same key would be found. -/
theorem find_of_mem {k : String} {v : α} {es : Entries α} (hkeys : (keys es).Nodup)
    (h : (k, v) ∈ es) : find? k es = some v := by
  induction es with
  | nil => cases h
  | cons e rest ih =>
    obtain ⟨l, w⟩ := e
    obtain ⟨hl, hrest⟩ := List.nodup_cons.mp hkeys
    rcases List.mem_cons.mp h with heq | h
    · cases heq
      simp [find?]
    · -- the first entry cannot have the key of a later one
      have hne : l ≠ k := by
        rintro rfl
        exact hl (List.mem_map.mpr ⟨_, h, rfl⟩)
      simp only [find?, hne, ↓reduceIte]
      exact ih hrest h

/-- A new key is put at the end, and all other entries stay. -/
theorem put_of_not_mem {key : String} {es : Entries α} (h : key ∉ keys es) (v : α) :
    put key v es = es ++ [(key, v)] := by
  induction es with
  | nil => rfl
  | cons e rest ih =>
    obtain ⟨l, w⟩ := e
    simp only [keys, List.map_cons, List.mem_cons, not_or] at h
    simp only [put, Ne.symm h.1, ↓reduceIte, List.cons_append]
    rw [ih h.2]

/-- Updates of two keys can be made in either order, if one of the keys is present. If both are
    new, the order of the updates is the order in which they are appended. -/
theorem put_comm {k l : String} (hne : k ≠ l) (v w : α) {es : Entries α}
    (h : k ∈ keys es ∨ l ∈ keys es) : put k v (put l w es) = put l w (put k v es) := by
  induction es with
  | nil => simp [keys] at h
  | cons e rest ih =>
    obtain ⟨m, u⟩ := e
    by_cases hk : m = k
    · subst hk
      simp [put, hne]
    · by_cases hl : m = l
      · subst hl
        simp [put, hk]
      · have hrest : k ∈ keys rest ∨ l ∈ keys rest := by
          simpa [keys, Ne.symm hk, Ne.symm hl] using h
        simp only [put, hk, hl, ↓reduceIte]
        rw [ih hrest]

/-- Two new keys are put at the end in the order of the updates. -/
theorem put_put_of_not_mem {k l : String} (hne : l ≠ k) (v w : α) {es : Entries α}
    (hk : k ∉ keys es) (hl : l ∉ keys es) : put l w (put k v es) = es ++ [(k, v), (l, w)] := by
  have hnew : l ∉ keys (es ++ [(k, v)]) := by
    rw [keys, List.map_append, List.mem_append, not_or]
    exact ⟨hl, by simpa using hne⟩
  rw [put_of_not_mem hk, put_of_not_mem hnew, List.append_assoc]
  rfl

/-- An update keeps the keys and their order, and appends the key if it is new. -/
theorem keys_put (key : String) (v : α) (es : Entries α) :
    keys (put key v es) = if key ∈ keys es then keys es else keys es ++ [key] := by
  induction es with
  | nil => simp [put, keys]
  | cons e rest ih =>
    obtain ⟨l, w⟩ := e
    by_cases hl : l = key
    · subst hl
      simp [put, keys]
    · have hput : keys (put key v ((l, w) :: rest)) = l :: keys (put key v rest) := by
        simp [put, hl, keys]
      have hmem : key ∈ keys ((l, w) :: rest) ↔ key ∈ keys rest := by
        simp [keys, Ne.symm hl]
      rw [hput, ih]
      -- the key is looked for after the first entry, which has another one
      by_cases hk : key ∈ keys rest
      · rw [if_pos hk, if_pos (hmem.mpr hk)]; rfl
      · rw [if_neg hk, if_neg (mt hmem.mp hk)]; rfl

/-- If keys are different before an update, they are after it. -/
theorem keys_put_nodup {es : Entries α} (h : (keys es).Nodup) (key : String) (v : α) :
    (keys (put key v es)).Nodup := by
  rw [keys_put]
  split
  · exact h
  · next hk =>
    refine List.nodup_append.mpr ⟨h, by simp, ?_⟩
    intro a ha b hb
    rw [List.mem_singleton] at hb
    subst hb
    exact fun hab => hk (hab ▸ ha)

/-- Every entry after an update is the new one or was there before, so what holds of both holds
    of all. -/
theorem mem_put {e : String × α} {key : String} {v : α} {es : Entries α}
    (h : e ∈ put key v es) : e = (key, v) ∨ e ∈ es := by
  induction es with
  | nil => exact .inl (List.mem_singleton.mp h)
  | cons f rest ih =>
    obtain ⟨l, w⟩ := f
    by_cases hl : l = key
    · subst hl
      simp only [put, ↓reduceIte, List.mem_cons] at h
      rcases h with h | h
      · exact .inl h
      · exact .inr (List.mem_cons_of_mem _ h)
    · simp only [put, hl, ↓reduceIte, List.mem_cons] at h
      rcases h with h | h
      · exact .inr (h ▸ List.mem_cons_self)
      · rcases ih h with h | h
        · exact .inl h
        · exact .inr (List.mem_cons_of_mem _ h)

/-! ### Entries written one after the other

A document may repeat a key. Its entries are then set one after the other, each replacing the value
of an earlier one where that stands. All facts about this come from `ofList_concat`, by induction
from the end.
-/

/-- One more entry is written after the others: it is put into what these have left. -/
theorem ofList_concat (written : List (String × α)) (e : String × α) :
    ofList (written ++ [e]) = put e.1 e.2 (ofList written) := by
  rw [ofList, List.foldl_append]
  rfl

/-- With one more key at the end, that key is among those without repetitions in its first place. -/
theorem eraseDups_concat (keys : List String) (key : String) :
    (keys ++ [key]).eraseDups
      = if key ∈ keys then keys.eraseDups else keys.eraseDups ++ [key] := by
  rw [List.eraseDups_append]
  split
  · next h => simp [List.removeAll, h]
  · next h => simp [List.removeAll, h, List.eraseDups_cons]

/-- Without repetitions no key is there twice. -/
theorem nodup_eraseDups (keys : List String) : keys.eraseDups.Nodup := by
  induction keys using List.reverseRecOn with
  | nil => exact List.nodup_nil
  | append_singleton keys key ih =>
    rw [eraseDups_concat]
    split
    · exact ih
    · next hnew =>
      refine List.nodup_append.mpr ⟨ih, by simp, fun a ha b hb => ?_⟩
      rw [List.mem_singleton.mp hb]
      rintro rfl
      exact hnew (List.mem_eraseDups.mp ha)

/-- If keys are different, then leaving out repetitions changes nothing. -/
theorem eraseDups_of_nodup {keys : List String} (h : keys.Nodup) : keys.eraseDups = keys := by
  induction keys using List.reverseRecOn with
  | nil => rfl
  | append_singleton keys key ih =>
    obtain ⟨hkeys, -, hnew⟩ := List.nodup_append.mp h
    have hkey : key ∉ keys := fun hmem => hnew key hmem key (List.mem_singleton_self key) rfl
    rw [eraseDups_concat, if_neg hkey, ih hkeys]

/-- **The keys that are kept** are those that were written, each in its first place. -/
theorem keys_ofList (written : List (String × α)) :
    keys (ofList written) = (written.map Prod.fst).eraseDups := by
  induction written using List.reverseRecOn with
  | nil => rfl
  | append_singleton written e ih =>
    rw [ofList_concat, keys_put, ih, List.map_append, List.map_singleton, eraseDups_concat]
    -- a key is among those kept exactly if it was written
    simp only [List.mem_eraseDups]

/-- **The value that is kept** under a key is the last one that was written. -/
theorem find_ofList (k : String) (written : List (String × α)) :
    find? k (ofList written) = find? k written.reverse := by
  induction written using List.reverseRecOn with
  | nil => rfl
  | append_singleton written e ih =>
    rw [ofList_concat, find_put, ih, List.reverse_append, List.reverse_singleton,
      List.singleton_append, find?]

/-- Entries with different keys are kept as they were written. -/
theorem ofList_eq_self {es : Entries α} (h : (keys es).Nodup) : ofList es = es := by
  induction es using List.reverseRecOn with
  | nil => rfl
  | append_singleton es e ih =>
    rw [keys, List.map_append] at h
    obtain ⟨hes, -, hnew⟩ := List.nodup_append.mp h
    have he : e.1 ∉ keys es := fun hmem => hnew e.1 hmem e.1 (List.mem_singleton_self _) rfl
    rw [ofList_concat, ih hes, put_of_not_mem he]

/-- What holds of all written entries holds of those that are kept, and these have different
    keys. -/
theorem ofList_spec {P : String × α → Prop} {written : List (String × α)}
    (h : ∀ e ∈ written, P e) :
    (keys (ofList written)).Nodup ∧ ∀ e ∈ ofList written, P e := by
  induction written using List.reverseRecOn with
  | nil => exact ⟨List.nodup_nil, by simp [ofList]⟩
  | append_singleton written e ih =>
    obtain ⟨hwritten, he⟩ := List.forall_mem_append.mp h
    obtain ⟨hnodup, hkept⟩ := ih hwritten
    rw [ofList_concat]
    refine ⟨keys_put_nodup hnodup e.1 e.2, fun f hf => ?_⟩
    rcases mem_put hf with rfl | hf
    · exact he _ (List.mem_singleton_self _)
    · exact hkept f hf

/-- The keys that are kept are those that were written. -/
theorem mem_keys_ofList {written : List (String × α)} {k : String} :
    k ∈ keys (ofList written) ↔ k ∈ written.map Prod.fst := by
  rw [keys_ofList, List.mem_eraseDups]

end SchemaEmbed.Entries
