import Mathlib.Data.List.Nodup
import SchemaEmbed.Proofs.Yaml.Resolved

namespace SchemaEmbed.Yaml

/-!
# Keys that become strings

Keys of YAML can be of any kind, and on loading every key of a mapping becomes a string. Different
keys can become the same string, and then the value of the earlier one is lost:

* `readKey` — the key that a text spells, if it is no string;
* `eq_or_string_of_keyOf` — two keys that become the same string are equal, unless one of them is
  this string and the other one only spells it;
* `Collides` — whether two such keys meet in a mapping somewhere in a tree;
* `KeepsEntries` — whether every mapping of a value has the entries of the tree, one for one;
* `keepsEntries_iff` — entries are lost exactly where keys collide;
* `every_unrepeated` — merging brings no key into a mapping twice;
* `parse_keeps_entries` — **loading** keeps all entries of the merged tree if no keys collide, and
  drops some if keys do.

That no key is there twice is checked while keys are still what they are, and equality of keys is
finer than that of their strings.
-/

/-! ### Keys and their texts

A key becomes the string that JSON would write for it. Truth values, integers and floats have texts
that can be told apart and read back, so two of them become the same string only if they are the
same key; a string may be any of these texts.
-/

/-- The key that a text spells, if it is no string: a truth value, an integer or a float, in this
    order. It is not part of loading, but a way to get back from a string to the key it was made
    of. -/
def readKey (s : List Char) : Option Tree :=
  match readBool s with
  | some b => some (.bool b)
  | none =>
    match integer s with
    | some i => some (.number (.int i))
    | none => (readFloat s).map fun x => .number (.float x)

/-- **The string that a key becomes** spells the key, unless the key is this string itself. A
    null, a collection and a float that is not finite become no string at all. -/
theorem readKey_keyOf {k : Tree} {s : String} (hk : k ≠ .string s) (h : keyOf k = .ok s) :
    readKey s.toList = some k := by
  cases k with
  | string r => cases h; exact absurd rfl hk
  | bool b => cases b <;> cases h <;> rfl
  | number n =>
    cases n with
    | int i =>
      cases h
      rw [readKey, (beginsNumber_toString i).not_word.2, integer_toString]
    | float x =>
      rw [keyOf] at h
      split at h
      · next hfinite =>
        cases h
        obtain ⟨hinteger, -, hfloat⟩ := readFloat_renderChars .json hfinite
        rw [FloatLayout.render, String.toList_ofList, readKey,
          (beginsNumber_renderChars .json hfinite).not_word.2, hinteger, hfloat]
        rfl
      · cases h
  | _ => cases h

/-- **Two keys that become the same string** are equal, unless one is the string itself and the
    other one is not. -/
theorem eq_or_string_of_keyOf {k l : Tree} {s : String} (hk : keyOf k = .ok s)
    (hl : keyOf l = .ok s) :
    k = l ∨ (k = .string s ∧ l ≠ .string s) ∨ (l = .string s ∧ k ≠ .string s) := by
  by_cases hks : k = .string s
  · by_cases hls : l = .string s
    · exact .inl (hks.trans hls.symm)
    · exact .inr (.inl ⟨hks, hls⟩)
  · by_cases hls : l = .string s
    · exact .inr (.inr ⟨hls, hks⟩)
    · exact .inl (Option.some.inj ((readKey_keyOf hks hk).symm.trans (readKey_keyOf hls hl)))

/-! ### Keys that collide

The tree and the value are compared mapping by mapping. An entry that is lost leaves its mapping
with fewer entries, so that it is enough to count them; and as many entries as keys means that the
keys are different as strings.
-/

/-- Whether a mapping has a key that is a string, and another one that is none and becomes this
    string. Which of the two comes first decides only which value is kept. -/
def KeysCollide (fields : Fields) : Prop :=
  ∃ e ∈ fields, ∃ f ∈ fields, ∃ s, e.1 = .string s ∧ f.1 ≠ .string s ∧ keyOf f.1 = .ok s

/-- Whether keys collide in a mapping somewhere in a tree. -/
inductive Collides : Tree → Prop
  | here {fields} (h : KeysCollide fields) : Collides (.mapping fields)
  | item {items t} (ht : t ∈ items) (h : Collides t) : Collides (.sequence items)
  | value {fields e} (he : e ∈ fields) (h : Collides e.2) : Collides (.mapping fields)
  | content {tag t} (h : Collides t) : Collides (.tagged tag t)

/-- Whether a value has all that a tree has: every mapping has as many entries as that of the
    tree, and each of them is made of the one in its place. -/
inductive KeepsEntries : Tree → Value → Prop
  | scalar {t v} (ht : t.IsScalar) (hv : t.toValue = .ok v) : KeepsEntries t v
  | sequence {items values} (h : List.Forall₂ KeepsEntries items values) :
    KeepsEntries (.sequence items) (.array values)
  | mapping {fields : Fields} {entries : List (String × Value)}
    (keys : fields.map (fun e => keyOf e.1) = (Entries.keys entries).map .ok)
    (values : List.Forall₂ KeepsEntries (fields.map Prod.snd) (entries.map Prod.snd)) :
    KeepsEntries (.mapping fields) (.object entries)

/-- Whether no key that equals itself is there twice. Of keys that are equal as trees nothing
    more is asked, so this is kept when entries are put elsewhere. -/
def Unrepeated (fields : Fields) : Prop :=
  (fields.map Prod.fst).Pairwise fun k l => k = l → k.same l = false

/-- Whether a tree itself is no mapping with a key twice. -/
def IsUnrepeated : Tree → Prop
  | .mapping fields => Unrepeated fields
  | _ => True

/-- If nothing is lost of what is written, then the keys are different: what is kept has
    different keys, all of them among those that are written, and is as long. -/
theorem nodup_keys_of_length {written : List (String × Value)}
    (h : (Entries.ofList written).length = written.length) : (Entries.keys written).Nodup := by
  have hkept : (Entries.keys (Entries.ofList written)).Nodup :=
    (Entries.ofList_spec (P := fun _ => True) fun _ _ => trivial).1
  have hsub : List.Subperm (Entries.keys (Entries.ofList written)) (Entries.keys written) :=
    List.subperm_of_subset hkept fun _ => Entries.mem_keys_ofList.mp
  have hperm := hsub.perm_of_length_le (by simp [Entries.keys, h])
  exact hperm.nodup_iff.mp hkept

section Entries

variable {fields : Fields} {entries : List (String × Value)}
  (h : Tree.toEntries fields = .ok entries)

include h

/-- The keys of the entries are those of the fields, each as a string, in the same order. -/
theorem map_keyOf : fields.map (fun e => keyOf e.1) = (Entries.keys entries).map .ok := by
  have hall := forall₂_toEntries h
  clear h
  induction hall with
  | nil => rfl
  | cons hef _ ih => rw [List.map_cons, hef.1, ih, Entries.keys, Entries.keys, List.map_cons,
      List.map_cons]

/-- The values of the entries are those of the fields, each converted. -/
theorem forall₂_values : List.Forall₂ (fun t v => t.toValue = .ok v) (fields.map Prod.snd)
    (entries.map Prod.snd) := by
  rw [List.forall₂_map_left_iff, List.forall₂_map_right_iff]
  exact (forall₂_toEntries h).imp fun _ _ hef => hef.2

/-- **The keys are different as strings** exactly if none of them collide. -/
theorem nodup_keys_iff (hunrepeated : Unrepeated fields) :
    (Entries.keys entries).Nodup ↔ ¬ KeysCollide fields := by
  have hmap := map_keyOf h
  have hnodup : (Entries.keys entries).Nodup ↔ (fields.map fun e => keyOf e.1).Nodup := by
    rw [hmap, List.nodup_map_iff fun _ _ => Except.ok.inj]
  rw [hnodup]
  constructor
  · rintro hnodup ⟨e, he, f, hf, s, hes, hfs, hkey⟩
    have heq : e = f := List.inj_on_of_nodup_map hnodup he hf (by rw [hkey, hes, keyOf])
    exact hfs (heq ▸ hes)
  · intro hplain
    refine List.pairwise_map.mpr ((List.pairwise_map.mp hunrepeated).imp_of_mem
      fun {e f} he hf hne heq => ?_)
    obtain ⟨s, -, hs⟩ : ∃ s ∈ Entries.keys entries, .ok s = keyOf e.1 := by
      rw [← List.mem_map, ← hmap]
      exact List.mem_map_of_mem he
    rcases eq_or_string_of_keyOf hs.symm (heq ▸ hs.symm) with hef | ⟨he', hf'⟩ | ⟨hf', he'⟩
    · -- every key equals itself, and so is not there twice
      have hdiffer := hne hef
      rw [← hef, same_self] at hdiffer
      cases hdiffer
    · exact hplain ⟨e, he, f, hf, s, he', hf', heq ▸ hs.symm⟩
    · exact hplain ⟨f, hf, e, he, s, hf', he', hs.symm⟩

end Entries

mutual

/-- **Entries are lost** exactly where keys collide, by recursion on the tree. In a sequence and
    in the values of a mapping the two sides correspond one by one; at a mapping itself it is a
    question of its keys. -/
theorem keepsEntries_iff : ∀ {t : Tree} {v : Value}, t.Every IsUnrepeated → t.toValue = .ok v →
    (KeepsEntries t v ↔ ¬ Collides t)
  | .null, _, _, hv => iff_of_true (.scalar trivial hv) nofun
  | .bool _, _, _, hv => iff_of_true (.scalar trivial hv) nofun
  | .number _, _, _, hv => iff_of_true (.scalar trivial hv) nofun
  | .string _, _, _, hv => iff_of_true (.scalar trivial hv) nofun
  | .tagged .., _, _, hv => by cases hv
  | .sequence items, v, h, hv => by
    obtain ⟨values, hvalues, rfl⟩ := map_eq_ok_iff.mp hv
    have hitems := forall₂_iff_forall (forall₂_toItems hvalues) (keepsEntries_items h.2)
    constructor
    · rintro (⟨⟨⟩⟩ | hkeeps) (_ | ⟨ht, hcollides⟩)
      exact hitems.mp hkeeps _ ht hcollides
    · exact fun hplain => .sequence (hitems.mpr fun t ht hcollides => hplain (.item ht hcollides))
  | .mapping fields, v, h, hv => by
    obtain ⟨entries, hentries, rfl⟩ := map_eq_ok_iff.mp hv
    have hall := forall₂_toEntries hentries
    have hvalues := forall₂_iff_forall (forall₂_values hentries) (keepsEntries_values h.2)
    have hnodup := nodup_keys_iff hentries h.1
    constructor
    · rintro (⟨⟨⟩⟩ | _ | ⟨hkeys, hkeeps⟩)
      -- as many entries are kept as are written, so that all of them are
      have hlength := congrArg List.length hkeys
      simp only [Entries.keys, List.length_map] at hlength
      have hkeys := nodup_keys_of_length (hlength.symm.trans hall.length_eq)
      rw [Entries.ofList_eq_self hkeys] at hkeeps
      rintro (hhere | _ | ⟨he, hcollides⟩)
      · exact hnodup.mp hkeys hhere
      · exact hvalues.mp hkeeps _ (List.mem_map_of_mem he) hcollides
    · -- no keys collide, so all entries are kept and each value is as it was
      intro hplain
      rw [Entries.ofList_eq_self (hnodup.mpr fun hhere => hplain (.here hhere))]
      refine .mapping (map_keyOf hentries) (hvalues.mpr fun t ht hcollides => ?_)
      obtain ⟨e, he, rfl⟩ := List.mem_map.mp ht
      exact hplain (.value he hcollides)

/-- Entries are lost in an item of a sequence exactly if keys collide in it. -/
theorem keepsEntries_items : ∀ {items : List Tree}, Tree.EveryItem IsUnrepeated items →
    ∀ t ∈ items, ∀ v, t.toValue = .ok v → (KeepsEntries t v ↔ ¬ Collides t)
  | [], _ => by simp
  | _ :: _, h => List.forall_mem_cons.mpr ⟨fun _ => keepsEntries_iff h.1, keepsEntries_items h.2⟩

/-- Entries are lost in a value of a mapping exactly if keys collide in it. -/
theorem keepsEntries_values : ∀ {fields : Fields}, Tree.EveryEntry IsUnrepeated fields →
    ∀ t ∈ fields.map Prod.snd, ∀ v, t.toValue = .ok v → (KeepsEntries t v ↔ ¬ Collides t)
  | [], _ => by simp
  | (_, _) :: _, h =>
    List.forall_mem_cons.mpr ⟨fun _ => keepsEntries_iff h.1.2, keepsEntries_values h.2⟩

end

/-! ### Merging -/

/-- Keys of which none equals an earlier one are not repeated. -/
theorem Distinct.unrepeated {fields : Fields} (h : Distinct fields) : Unrepeated fields :=
  List.pairwise_map.mpr (h.imp fun hsame heq => by rwa [heq] at hsame ⊢)

/-- A mapping that takes entries over repeats no key, as it takes only those whose keys it does
    not have. -/
theorem Unrepeated.absorb {fields : Fields} (h : Unrepeated fields) (source : Fields) :
    Unrepeated (absorb fields source) := by
  unfold Yaml.absorb
  induction source generalizing fields with
  | nil => exact h
  | cons e rest ih =>
    rw [List.foldl_cons]
    split
    · exact ih h
    · next hkey =>
      refine ih ?_
      rw [Unrepeated, List.map_append, List.pairwise_append]
      refine ⟨h, List.pairwise_singleton _ _, fun k hk l hl heq => ?_⟩
      obtain ⟨f, hf, rfl⟩ := List.mem_map.mp hk
      obtain rfl := List.mem_singleton.mp hl
      have hdiffer := hasKey_eq_false_iff.mp (Bool.not_eq_true _ ▸ hkey) f hf
      rwa [← heq] at hdiffer ⊢

/-- A mapping repeats no key after its merge keys were resolved. -/
theorem unrepeated_mergeFields {fields merged : Fields} (hdistinct : Distinct fields)
    (h : mergeFields fields = .ok merged) : Unrepeated merged := by
  obtain ⟨own, hown, rfl⟩ := mergeFields_eq hdistinct h
  have hunrepeated : Unrepeated own := by
    refine ((hown.map Prod.fst).pairwise_iff fun {k l} hkl heq => ?_).mpr
      (hdistinct.unrepeated.sublist (List.filter_sublist.map Prod.fst))
    have hdiffer := hkl heq.symm
    rwa [heq] at hdiffer ⊢
  -- then entries are taken over from one source after the other
  clear hown h
  induction sourcesOf fields generalizing own with
  | nil => exact hunrepeated
  | cons source rest ih => exact ih _ (hunrepeated.absorb source)

/-- **Merging** brings no key into a mapping twice, at any depth. The keys of a mapping are final
    once its own merge key is resolved; what is merged in its values does not change them. -/
theorem every_unrepeated {height : Nat} {t t' : Tree} (hdistinct : t.Every IsDistinct)
    (h : t.mergeKeysWithin height = .ok t') : t'.Every IsUnrepeated := by
  refine every_mergeKeysWithin (fun u hu => ?_) (fun _ => trivial) (fun _ _ => trivial)
    (fun fields merged fields' hfields hmerged hkeys => ?_) hdistinct h
  · cases u with
    | mapping fields => exact Distinct.unrepeated hu
    | _ => trivial
  · rw [IsUnrepeated, Unrepeated, hkeys]
    exact unrepeated_mergeFields hfields hmerged

/-! ### Texts

A text is loaded, merged and converted, and keys become strings only in the last of these steps.
The two texts below differ in one digit: in the first the integer and the string become different
strings, in the second they become the same.
-/

/-- **Loading keeps all entries** of the merged tree if no keys collide in it: every mapping of
    the value has as many entries as that of the tree, one for one.  If a key that is no string
    spells one that is, and only then, entries are lost. -/
theorem parse_keeps_entries {text : String} {v : Value} (h : parse text = .ok v) :
    ∃ t t', load text = .ok t ∧ t.mergeKeys = .ok t' ∧ t'.toValue = .ok v
      ∧ (KeepsEntries t' v ↔ ¬ Collides t') := by
  obtain ⟨t, t', hload, hmerge, -, hvalue⟩ := parse_eq_ok_iff.mp h
  exact ⟨t, t', hload, hmerge, hvalue,
    keepsEntries_iff (every_unrepeated (load_distinct hload) hmerge) hvalue⟩

deriving instance DecidableEq for SyntaxError

/-- A scalar as it is written. -/
abbrev Written := String × Style

/-- The tokens of a mapping of scalars to scalars. -/
def flatTokens (es : List (Written × Written)) : List Token :=
  .blockMappingStart :: es.flatMap (fun e =>
    [.key, .scalar e.1.1 e.1.2, .value, .scalar e.2.1 e.2.2]) ++ [.blockEnd, .streamEnd]

/-- The node of a mapping of scalars to scalars. -/
def flatNode (Ref : Type) (es : List (Written × Written)) : Node Ref :=
  .mapping .empty (es.map fun e => (.scalar .empty e.1.1 e.1.2, .scalar .empty e.2.1 e.2.2))

/-- Whether trees are those of scalars as they are written, one by one. -/
def AreScalars (es : List (Written × Written)) (fields : Fields) : Prop :=
  List.Forall₂ (fun e f => Tree.ofScalar none e.1.1 e.1.2 = .ok f.1
    ∧ Tree.ofScalar none e.2.1 e.2.2 = .ok f.2) es fields

/-- The tree of a text that is a mapping of scalars to scalars. What the scanner and the grammar
    make of it, and how its scalars are resolved, is given. -/
theorem load_flat {text : String} (es : List (Written × Written)) {fields : Fields}
    (htokens : tokenize text.toList = .ok (flatTokens es))
    (hroot : Node.ofTokens? (flatTokens es) = .ok (some (flatNode String es)))
    (hlink : (flatNode String es).link [] = .ok (flatNode Nat es, [], []))
    (hscalars : AreScalars es fields) (hrepeated : findRepeatedKey [] fields = none) :
    load text = .ok (.mapping fields) := by
  have hentries (links : Links) (depth : Nat) :
      (es.map fun e => ((.scalar .empty e.1.1 e.1.2, .scalar .empty e.2.1 e.2.2) :
        Node Nat × Node Nat)).mapM (ofEntryNode links depth) = pure fields := by
    clear htokens hroot hlink hrepeated
    induction hscalars with
    | nil => rfl
    | cons hef _ ih =>
      rw [List.map_cons, List.mapM_cons, ih, ofEntryNode, ofNode_scalar _ _ hef.1,
        ofNode_scalar _ _ hef.2]
      rfl
  rw [load, htokens, ok_bind, hroot, ok_bind]
  show (Node.link [] (flatNode String es) >>= _) = _
  rw [hlink, ok_bind]
  show ((Tree.ofNode _ maxOpen (flatNode Nat es)).run 0 >>= _) = _
  rw [flatNode, maxOpen, ofNode_mapping, hentries, pure_bind, hrepeated]
  rfl

/-- A mapping of scalars without a merge key is not changed by merging. -/
theorem mergeKeys_flat {fields : Fields} (hkeys : ∀ e ∈ fields, isMergeKey e.1 = false)
    (hvalues : ∀ e ∈ fields, e.2.IsScalar) :
    (Tree.mapping fields).mergeKeys = .ok (.mapping fields) := by
  have hscalar {t : Tree} (ht : t.IsScalar) (height : Nat) : t.mergeKeysWithin height = .ok t := by
    cases height with
    | zero => rfl
    | succ height =>
      cases t with
      | sequence | mapping | tagged => exact ht.elim
      | _ => rfl
  have hmerged : mergeFields fields = .ok fields := by
    have hnone : takeMergeKey fields = none := by
      rw [takeMergeKey_eq_none_iff]
      rintro ⟨e, he, hkey⟩
      rw [hkeys e he] at hkey
      cases hkey
    rw [mergeFields, hnone]
  rw [Tree.mergeKeys, Tree.size, Tree.mergeKeysWithin, hmerged, ok_bind, eachFromLast_eq_self]
  · rfl
  · intro e he
    show (Tree.mergeKeysWithin _ e.2).map (Prod.mk e.1) = _
    rw [hscalar (hvalues e he)]
    rfl

/-- The integer one and the string `2` do not collide. -/
theorem parse_keeps_entries_apart :
    let v := Value.object [("1", .string "a"), ("2", .string "b")]
    parse "1: a\n'2': b\n" = .ok v ∧ ∃ t', KeepsEntries t' v ∧ ¬ Collides t' := by
  intro v
  have hload : load "1: a\n'2': b\n"
      = .ok (.mapping [(.number (.int 1), .string "a"), (.string "2", .string "b")]) :=
    load_flat [(("1", .plain), ("a", .plain)), (("2", .singleQuoted), ("b", .plain))]
      (by decide +kernel) rfl rfl (.cons ⟨rfl, rfl⟩ (.cons ⟨rfl, rfl⟩ .nil))
      (by simp [findRepeatedKey, Tree.hasKey, Tree.same])
  have hmerge : (Tree.mapping
      [(.number (.int 1), .string "a"), (.string "2", .string "b")]).mergeKeys
        = .ok (.mapping [(.number (.int 1), .string "a"), (.string "2", .string "b")]) :=
    mergeKeys_flat (by simp [isMergeKey]) (by simp [Tree.IsScalar])
  have hparse : parse "1: a\n'2': b\n" = .ok v :=
    parse_eq_ok_iff.mpr ⟨_, _, hload, hmerge, rfl, rfl⟩
  obtain ⟨t, t', ht, ht', -, hkeeps⟩ := parse_keeps_entries hparse
  obtain rfl := Except.ok.inj (hload.symm.trans ht)
  obtain rfl := Except.ok.inj (hmerge.symm.trans ht')
  have hplain : ¬ Collides
      (.mapping [(.number (.int 1), .string "a"), (.string "2", .string "b")]) := by
    rintro (⟨e, he, f, hf, s, hes, hfs, hkey⟩ | _ | ⟨he, hcollides⟩)
    · simp only [List.mem_cons, List.not_mem_nil, or_false] at he hf
      rcases he with rfl | rfl
      · cases hes
      · rcases hf with rfl | rfl
        · cases hes
          exact absurd (Except.ok.inj hkey) (by decide)
        · exact hfs hes
    · simp only [List.mem_cons, List.not_mem_nil, or_false] at he
      rcases he with rfl | rfl <;> cases hcollides
  exact ⟨hparse, _, hkeeps.mpr hplain, hplain⟩

/-- **The integer one and the string `1` collide**: the tree has both, also after merging, and the
    value has only the later one. -/
theorem parse_drops_entry :
    let t := Tree.mapping [(.number (.int 1), .string "a"), (.string "1", .string "b")]
    load "1: a\n'1': b\n" = .ok t ∧ t.mergeKeys = .ok t
      ∧ parse "1: a\n'1': b\n" = .ok (.object [("1", .string "b")]) := by
  intro t
  have hload : load "1: a\n'1': b\n" = .ok t :=
    load_flat [(("1", .plain), ("a", .plain)), (("1", .singleQuoted), ("b", .plain))]
      (by decide +kernel) rfl rfl (.cons ⟨rfl, rfl⟩ (.cons ⟨rfl, rfl⟩ .nil))
      (by simp [findRepeatedKey, Tree.hasKey, Tree.same])
  have hmerge : t.mergeKeys = .ok t :=
    mergeKeys_flat (by simp [isMergeKey]) (by simp [Tree.IsScalar])
  exact ⟨hload, hmerge, parse_eq_ok_iff.mpr ⟨_, _, hload, hmerge, rfl, rfl⟩⟩

end SchemaEmbed.Yaml
