import SchemaEmbed.Format.Builtin
import SchemaEmbed.Proofs.Reordered
import SchemaEmbed.Proofs.Yaml.Load
import SchemaEmbed.Proofs.Yaml.Merge

namespace SchemaEmbed.Yaml

/-!
# YAML is read as it was written

That the tree of a value is loaded from the text of the value is shown for the scanner and the
reader, in `load_render`. Here the tree is merged and structured again. This gives the value back
if no mapping in it has the key `<<`, which is written like any other key.

* `parse_render` — a value that nests at most 128 deep and has no merge key is read back;
* `parse_render_deep`, `not_same_of_merge` — no other value is;
* `yaml_round_trip` — both together.

That a value with the key `<<` is not read back, not even as a value with its keys in another
order, needs an argument that does not follow what the merge does, since it can do many things. It
is an argument by size: where a merge key takes effect, the tree gets smaller, and structurally
equal values have trees of equal size.
-/

/-! ### From a tree to a value

The tree that is made from a value has strings as keys, all different, and no tags. So nothing is
refused when it is structured, and no entry is lost.
-/

mutual

/-- **The tree of a value** stands for it, if the value is well-formed: only then is no entry
    taken for a later one under the same key. -/
theorem toValue_ofValue : ∀ {v : Value}, v.WellFormed → v.FloatsFinite →
    (Tree.ofValue v).toValue = .ok v
  | .null, _, _ => rfl
  | .bool _, _, _ => rfl
  | .number (.int _), _, _ => rfl
  | .number (.float x), _, hfinite => by
    have hx : x.isFinite = true := hfinite
    rw [Tree.ofValue, Tree.toValue, numberValue, if_pos hx]
  | .string _, _, _ => rfl
  | .array items, hv, hfinite => by
    rw [Tree.ofValue, Tree.toValue, toItems_ofItems hv.2 hfinite.2]
    rfl
  | .object entries, hv, hfinite => by
    rw [Tree.ofValue, Tree.toValue, toEntries_ofEntries hv.2 hfinite.2]
    show Except.ok (Value.object (Entries.ofList entries)) = _
    rw [Entries.ofList_eq_self hv.1]

/-- The trees of items stand for the items, in order. -/
theorem toItems_ofItems : ∀ {items : List Value}, Value.EveryItem Value.IsWellFormed items →
    Value.EveryItem Value.IsFloatFinite items → Tree.toItems (Tree.ofItems items) = .ok items
  | [], _, _ => rfl
  | v :: items, hv, hfinite => by
    rw [Tree.ofItems, Tree.toItems, toValue_ofValue hv.1 hfinite.1, ok_bind,
      toItems_ofItems hv.2 hfinite.2]
    rfl

/-- The trees of entries stand for the entries, with their keys. -/
theorem toEntries_ofEntries : ∀ {entries : List (String × Value)},
    Value.EveryEntry Value.IsWellFormed entries → Value.EveryEntry Value.IsFloatFinite entries →
    Tree.toEntries (Tree.ofEntries entries) = .ok entries
  | [], _, _ => rfl
  | (k, v) :: entries, hv, hfinite => by
    rw [Tree.ofEntries, Tree.toEntries, keyOf, ok_bind, toValue_ofValue hv.1 hfinite.1, ok_bind,
      toEntries_ofEntries hv.2 hfinite.2]
    rfl

end

mutual

/-- The tree of a value has no tag, wherever it is looked for. -/
theorem findTag_ofValue : ∀ (v : Value) (location : String),
    (Tree.ofValue v).findTag location = none
  | .null, _ => rfl
  | .bool _, _ => rfl
  | .number _, _ => rfl
  | .string _, _ => rfl
  | .array items, location => findTag_ofItems items location 0
  | .object entries, location => findTag_ofEntries entries location

/-- The trees of items have no tags, whatever the index of the first one is. -/
theorem findTag_ofItems : ∀ (items : List Value) (location : String) (index : Nat),
    Tree.findTagInItems location index (Tree.ofItems items) = none
  | [], _, _ => rfl
  | v :: items, location, index => by
    rw [Tree.ofItems, Tree.findTagInItems, findTag_ofValue v, findTag_ofItems items]
    rfl

/-- The trees of entries have no tags. -/
theorem findTag_ofEntries : ∀ (entries : List (String × Value)) (location : String),
    Tree.findTagInEntries location (Tree.ofEntries entries) = none
  | [], _ => rfl
  | (k, v) :: entries, location => by
    rw [Tree.ofEntries, Tree.findTagInEntries, findTag_ofValue v, findTag_ofEntries entries]
    rfl

end

/-! ### Values that are read back

The limit is on the depth of the text, which is the depth of the value.
-/

/-- **A value without a merge key** is read back if it nests at most 128 deep: the text is
    loaded, the tree stays as it is, has no tag, and stands for the value. -/
theorem parse_render {v : Value} (hv : v.WellFormed) (hfinite : v.FloatsFinite)
    (hdepth : v.depth ≤ 128) (hmerge : MergeFree v) : parse (render v) = .ok v := by
  refine mapError_eq_ok_iff.mpr ?_
  have hload : load (render v) = .ok (Tree.ofValue v) :=
    (load_render hv hfinite).trans (if_pos hdepth)
  rw [read, hload]
  show (Tree.ofValue v).resolve = _
  have hmerged : (Tree.ofValue v).mergeKeys.mapError ReadError.merge = .ok (Tree.ofValue v) := by
    rw [Tree.mergeKeys, mergeKeysWithin_ofValue _ hmerge]
    rfl
  rw [Tree.resolve, hmerged, ok_bind, findTag_ofValue]
  exact toValue_ofValue hv hfinite

/-- A value that nests deeper is not read: loading its text fails at the limit. -/
theorem parse_render_deep {v : Value} (hv : v.WellFormed) (hfinite : v.FloatsFinite)
    (hdepth : 128 < v.depth) : parse (render v) = .error "recursion limit exceeded" := by
  have hload : load (render v) = .error ⟨"recursion limit exceeded", none⟩ :=
    (load_render hv hfinite).trans (if_neg (by simp [maxOpen]; omega))
  rw [parse, read, hload]
  rfl

/-! ### Values that are not read back

The size of a tree counts its nodes. Structuring a tree never makes it larger, and a merge makes it
smaller if there is a merge key; so what is read from the text of a value with a merge key is
smaller than the value.
-/

/-- The size of entries is the sum of the sizes of their values, with two for each key. -/
theorem sizeEntries_ofEntries (es : List (String × Value)) :
    Tree.sizeEntries (Tree.ofEntries es) = (es.map fun e => (Tree.ofValue e.2).size + 2).sum := by
  induction es with
  | nil => rfl
  | cons e es ih =>
    obtain ⟨k, v⟩ := e
    rw [size_ofEntries_cons, ih, List.map_cons, List.sum_cons]

/-- An update makes entries larger by the size of the new entry at most. If the key is there, the
    old value goes. -/
theorem sizeEntries_put (key : String) (v : Value) (es : List (String × Value)) :
    Tree.sizeEntries (Tree.ofEntries (Entries.put key v es))
      ≤ (Tree.ofValue v).size + 2 + Tree.sizeEntries (Tree.ofEntries es) := by
  induction es with
  | nil => simp [Entries.put, Tree.ofEntries, Tree.sizeEntries, Tree.size]; omega
  | cons e es ih =>
    obtain ⟨k, w⟩ := e
    rw [Entries.put]
    split
    · rw [size_ofEntries_cons, size_ofEntries_cons]
      omega
    · rw [size_ofEntries_cons, size_ofEntries_cons]
      omega

/-- What is kept of written entries, of which several may have one key, is no larger than they
    are. -/
theorem sizeEntries_ofList (es : List (String × Value)) :
    Tree.sizeEntries (Tree.ofEntries (Entries.ofList es))
      ≤ Tree.sizeEntries (Tree.ofEntries es) := by
  -- entries are put one after the other behind those that are done
  have key (rest : List (String × Value)) (done : Entries Value) :
      Tree.sizeEntries (Tree.ofEntries (rest.foldl (fun es e => Entries.put e.1 e.2 es) done))
        ≤ Tree.sizeEntries (Tree.ofEntries rest) + Tree.sizeEntries (Tree.ofEntries done) := by
    induction rest generalizing done with
    | nil => simp [Tree.ofEntries]
    | cons e rest ih =>
      obtain ⟨k, v⟩ := e
      have hrest := ih (done.put k v)
      have hput := sizeEntries_put k v done
      rw [size_ofEntries_cons, List.foldl_cons]
      dsimp only
      omega
  exact key es []

/-- Whether the keys of a value itself are different, if it is a mapping. Whatever is read has
    this property, also where the text had a key twice. -/
def HasDistinctKeys : Value → Prop
  | .object es => (Entries.keys es).Nodup
  | _ => True

mutual

/-- A tree stands for a value that is no larger, and in which all mappings have different keys. A
    key that is a collection is no string, and entries whose keys become one string become one
    entry. -/
theorem toValue_size : ∀ {t : Tree} {v : Value}, t.toValue = .ok v →
    (Tree.ofValue v).size ≤ t.size ∧ Value.Every HasDistinctKeys v
  | .null, _, h => by cases h; exact ⟨Nat.le_refl _, trivial⟩
  | .bool _, _, h => by cases h; exact ⟨Nat.le_refl _, trivial⟩
  | .number (.int _), _, h => by cases h; exact ⟨Nat.le_refl _, trivial⟩
  | .number (.float x), _, h => by
    rw [Tree.toValue, numberValue] at h
    split at h <;> (cases h; exact ⟨Nat.le_refl _, trivial⟩)
  | .string _, _, h => by cases h; exact ⟨Nat.le_refl _, trivial⟩
  | .tagged _ _, _, h => by cases h
  | .sequence items, _, h => by
    rw [Tree.toValue] at h
    obtain ⟨vs, hvs, rfl⟩ := map_eq_ok_iff.mp h
    obtain ⟨hsize, hkeys⟩ := toItems_size hvs
    exact ⟨Nat.succ_le_succ hsize, trivial, hkeys⟩
  | .mapping entries, _, h => by
    rw [Tree.toValue] at h
    obtain ⟨es, hes, rfl⟩ := map_eq_ok_iff.mp h
    obtain ⟨hsize, hkeys⟩ := toEntries_size hes
    -- what is kept of the entries has different keys, and its values are among theirs
    obtain ⟨hnodup, hkeys⟩ := Entries.ofList_spec (Value.everyEntry_iff.mp hkeys)
    exact ⟨Nat.succ_le_succ (Nat.le_trans (sizeEntries_ofList es) hsize), hnodup,
      Value.everyEntry_iff.mpr hkeys⟩

/-- Items stand for values that are no larger altogether. -/
theorem toItems_size : ∀ {ts : List Tree} {vs : List Value}, Tree.toItems ts = .ok vs →
    Tree.sizeItems (Tree.ofItems vs) ≤ Tree.sizeItems ts ∧ Value.EveryItem HasDistinctKeys vs
  | [], _, h => by cases h; exact ⟨Nat.le_refl _, trivial⟩
  | t :: ts, _, h => by
    rw [Tree.toItems] at h
    obtain ⟨v, hv, h⟩ := bind_eq_ok_iff.mp h
    obtain ⟨vs, hvs, h⟩ := bind_eq_ok_iff.mp h
    cases h
    obtain ⟨hsize, hkeys⟩ := toValue_size hv
    obtain ⟨hsizes, hall⟩ := toItems_size hvs
    exact ⟨Nat.add_le_add hsize hsizes, hkeys, hall⟩

/-- Entries stand for entries that are no larger altogether, before those with one key become
    one. -/
theorem toEntries_size : ∀ {ts : List (Tree × Tree)} {es : List (String × Value)},
    Tree.toEntries ts = .ok es → Tree.sizeEntries (Tree.ofEntries es) ≤ Tree.sizeEntries ts
      ∧ Value.EveryEntry HasDistinctKeys es
  | [], _, h => by cases h; exact ⟨Nat.le_refl _, trivial⟩
  | (k, t) :: ts, _, h => by
    rw [Tree.toEntries] at h
    obtain ⟨key, -, h⟩ := bind_eq_ok_iff.mp h
    obtain ⟨v, hv, h⟩ := bind_eq_ok_iff.mp h
    obtain ⟨es, hes, h⟩ := bind_eq_ok_iff.mp h
    cases h
    obtain ⟨hsize, hkeys⟩ := toValue_size hv
    obtain ⟨hsizes, hall⟩ := toEntries_size hes
    have hk : 1 ≤ k.size := by cases k <;> simp [Tree.size]
    rw [size_ofEntries_cons, Tree.sizeEntries]
    exact ⟨by omega, hkeys, hall⟩

end

/-- Entries whose keys are different, each of which has a partner of the same size under its key
    among as many others, are altogether of the same size. -/
theorem sizeEntries_eq_of_partners {xs ys : List (String × Value)} (hxs : (Entries.keys xs).Nodup)
    (hlength : xs.length = ys.length)
    (h : ∀ e ∈ xs, ∃ w, Entries.find? e.1 ys = some w
      ∧ (Tree.ofValue e.2).size = (Tree.ofValue w).size) :
    Tree.sizeEntries (Tree.ofEntries xs) = Tree.sizeEntries (Tree.ofEntries ys) := by
  -- keys with sizes are a permutation of each other
  have hnodup : (xs.map fun e => (e.1, (Tree.ofValue e.2).size)).Nodup := by
    refine List.Nodup.of_map Prod.fst ?_
    rwa [List.map_map]
  have hsubset : (xs.map fun e => (e.1, (Tree.ofValue e.2).size))
      ⊆ ys.map fun e => (e.1, (Tree.ofValue e.2).size) := by
    intro x hx
    obtain ⟨e, he, rfl⟩ := List.mem_map.mp hx
    obtain ⟨w, hw, hsize⟩ := h e he
    exact List.mem_map.mpr ⟨(e.1, w), Entries.mem_of_find hw, by rw [hsize]⟩
  have hperm := (List.subperm_of_subset hnodup hsubset).perm_of_length_le (by simp [hlength])
  have hsum := (hperm.map fun x => x.2 + 2).sum_eq
  rw [List.map_map, List.map_map] at hsum
  rw [sizeEntries_ofEntries, sizeEntries_ofEntries]
  exact hsum

mutual

/-- **Structurally equal values** with different keys have trees of equal size, though their keys
    may be in another order. One side must have different keys: two entries with one key could
    have the same partner. -/
theorem size_eq_of_same : ∀ {v w : Value}, Value.Every HasDistinctKeys v → v.same w = true →
    (Tree.ofValue v).size = (Tree.ofValue w).size
  | .array xs, .array ys, hv, h => by
    rw [Value.same] at h
    exact congrArg (· + 1) (sizeItems_eq_of_same hv.2 h)
  | .object xs, .object ys, hv, h => by
    rw [Value.same] at h
    obtain ⟨hlength, hentries⟩ := Bool.and_eq_true_iff.mp h
    exact congrArg (· + 1) (sizeEntries_eq_of_partners hv.1 (by simpa using hlength)
      (partners_of_same hv.2 hentries))
  | .null, .null, _, _ => rfl
  | .bool _, .bool _, _, _ => rfl
  | .number _, .number _, _, _ => rfl
  | .string _, .string _, _, _ => rfl

/-- Items that are structurally equal one by one have equal sizes altogether. -/
theorem sizeItems_eq_of_same : ∀ {xs ys : List Value}, Value.EveryItem HasDistinctKeys xs →
    Value.sameItems xs ys = true →
    Tree.sizeItems (Tree.ofItems xs) = Tree.sizeItems (Tree.ofItems ys)
  | [], [], _, _ => rfl
  | x :: xs, y :: ys, hxs, h => by
    rw [Value.sameItems] at h
    obtain ⟨hx, hrest⟩ := Bool.and_eq_true_iff.mp h
    exact congrArg₂ (· + ·) (size_eq_of_same hxs.1 hx) (sizeItems_eq_of_same hxs.2 hrest)

/-- Every entry of a mapping has a partner of the same size under its key in a structurally equal
    mapping. -/
theorem partners_of_same : ∀ {xs ys : List (String × Value)},
    Value.EveryEntry HasDistinctKeys xs → Value.sameEntries xs ys = true →
    ∀ e ∈ xs, ∃ w, Entries.find? e.1 ys = some w ∧ (Tree.ofValue e.2).size = (Tree.ofValue w).size
  | [], _, _, _ => by simp
  | (k, v) :: xs, ys, hxs, h => by
    rw [Value.sameEntries] at h
    obtain ⟨hv, hrest⟩ := Bool.and_eq_true_iff.mp h
    refine List.forall_mem_cons.mpr ⟨?_, partners_of_same hxs.2 hrest⟩
    split at hv
    · next w hw => exact ⟨w, hw, size_eq_of_same hxs.1 hv⟩
    · cases hv

end

/-- **A value with a merge key** is not read back: reading fails, or what is read is another
    value, since it is smaller. -/
theorem not_same_of_merge {v w : Value} (hv : v.WellFormed) (hfinite : v.FloatsFinite)
    (hmerge : ¬ MergeFree v) (hparse : parse (render v) = .ok w) : w.same v = false := by
  obtain ⟨t, hload, hresolve⟩ := bind_eq_ok_iff.mp (mapError_eq_ok_iff.mp hparse)
  have hload := mapError_eq_ok_iff.mp hload
  rw [load_render hv hfinite] at hload
  split at hload
  · cases hload
    obtain ⟨t', ht', hvalue⟩ := bind_eq_ok_iff.mp hresolve
    -- merging made the tree smaller, and structuring it made it no larger
    have hlt := size_mergeKeysWithin_lt hmerge (Nat.le_refl _) (mapError_eq_ok_iff.mp ht')
    split at hvalue
    · cases hvalue
    · obtain ⟨hsize, hkeys⟩ := toValue_size hvalue
      refine Bool.eq_false_iff.mpr fun hsame => ?_
      have := size_eq_of_same hkeys hsame
      omega
  · cases hload

/-! ### The round trip -/

/-- **What YAML reads back.** Every value is written. What is read from its text is the value
    exactly if its containers nest at most 128 deep and no mapping in it has the key `<<`;
    otherwise reading fails, as it does at the nesting, or gives a value that is not even
    structurally equal. -/
theorem yaml_round_trip {v : Value} (hv : v.WellFormed) (hfinite : v.FloatsFinite) (path : String) :
    ∃ text, Format.yaml.serializeAt path v = .ok text
      ∧ (Format.yaml.parseAt path text = .ok v ↔ v.depth ≤ 128 ∧ MergeFree v)
      ∧ ((∃ w, Format.yaml.parseAt path text = .ok w ∧ w.same v = true)
        ↔ v.depth ≤ 128 ∧ MergeFree v)
      ∧ (128 < v.depth → Format.yaml.parseAt path text
        = .error (.parseFailed path "yaml" "recursion limit exceeded")) := by
  have hdeep (h : 128 < v.depth) : Format.yaml.parseAt path (render v)
      = .error (.parseFailed path "yaml" "recursion limit exceeded") :=
    mapError_eq_error_iff.mpr ⟨_, parse_render_deep hv hfinite h, rfl⟩
  have hback (h : v.depth ≤ 128 ∧ MergeFree v) : Format.yaml.parseAt path (render v) = .ok v :=
    mapError_eq_ok_iff.mpr (parse_render hv hfinite h.1 h.2)
  have honly {w : Value} (hw : Format.yaml.parseAt path (render v) = .ok w)
      (hsame : w.same v = true) : v.depth ≤ 128 ∧ MergeFree v := by
    constructor
    · refine Decidable.byContradiction fun h => ?_
      rw [hdeep (by omega)] at hw
      cases hw
    · refine Classical.byContradiction fun h => ?_
      rw [not_same_of_merge hv hfinite h (mapError_eq_ok_iff.mp hw)] at hsame
      cases hsame
  have hself := Value.same_self hv.keysDistinct hfinite
  exact ⟨render v, rfl, ⟨fun h => honly h hself, hback⟩,
    ⟨fun ⟨_, hw, hsame⟩ => honly hw hsame, fun h => ⟨v, hback h, hself⟩⟩, hdeep⟩

/-- Strings that look like something else, a text of several lines, a key with two lines, a
    float and empty collections are read back; lists that nest 129 deep are not. -/
theorem yaml_round_trip_lookalikes :
    (let v := Value.object [("null", .array [.string "1e3", .string "~", .string "- a: b #c"]),
        ("k\nl", .string " x\n\n y\n"),
        ("<", .object [("", .number (.float ⟨true, 1⟩)), (".", .array [])])]
      ∃ text, Format.yaml.serializeAt "b.yaml" v = .ok text
        ∧ Format.yaml.parseAt "b.yaml" text = .ok v)
    ∧ ∃ text, Format.yaml.serializeAt "b.yaml" (.nested 129) = .ok text
      ∧ Format.yaml.parseAt "b.yaml" text
        = .error (.parseFailed "b.yaml" "yaml" "recursion limit exceeded") := by
  constructor
  · intro v
    have hv : v.WellFormed := by decide +kernel
    have hfinite : v.FloatsFinite := by decide +kernel
    have hmerge : MergeFree v := by decide +kernel
    obtain ⟨text, hwrite, hread, -⟩ := yaml_round_trip hv hfinite "b.yaml"
    exact ⟨text, hwrite, hread.mpr ⟨by decide, hmerge⟩⟩
  · obtain ⟨text, hwrite, -, -, hdeep⟩ := yaml_round_trip (Value.wellFormed_nested 129)
      (Value.floatFree_nested 129).floatsFinite "b.yaml"
    exact ⟨text, hwrite, hdeep (by rw [Value.depth_nested]; decide)⟩

/-- The key `<<` is written as any other, and what is under it is refused, or taken for what the
    mapping holds itself. -/
theorem yaml_merge_key_not_kept :
    (Format.yaml.serializeAt "b.yaml" (.object [("<<", .number (.int 1))]) = .ok "<<: 1\n"
      ∧ Format.yaml.parseAt "b.yaml" "<<: 1\n" = .error (.parseFailed "b.yaml" "yaml"
        "expected a mapping or list of mappings for merging, but found scalar"))
    ∧ Format.yaml.serializeAt "b.yaml" (.object [("<<", .object [("a", .null)])])
        = .ok "<<:\n  a: null\n"
      ∧ Format.yaml.parseAt "b.yaml" "<<:\n  a: null\n" = .ok (.object [("a", .null)]) := by
  have htext : render (.object [("<<", .number (.int 1))]) = "<<: 1\n" := by decide +kernel
  have htext' : render (.object [("<<", .object [("a", .null)])]) = "<<:\n  a: null\n" := by
    decide +kernel
  have hload : load "<<: 1\n" = .ok (Tree.ofValue (.object [("<<", .number (.int 1))])) := by
    rw [← htext]
    exact load_render (by decide) (by decide)
  have hload' : load "<<:\n  a: null\n"
      = .ok (Tree.ofValue (.object [("<<", .object [("a", .null)])])) := by
    rw [← htext']
    exact load_render (by decide) (by decide)
  refine ⟨⟨congrArg Except.ok htext, ?_⟩, congrArg Except.ok htext', ?_⟩
  · show (parse _).mapError _ = _
    rw [parse, read, hload]
    rfl
  · show (parse _).mapError _ = _
    rw [parse, read, hload']
    rfl

end SchemaEmbed.Yaml
