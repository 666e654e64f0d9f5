import SchemaEmbed.Proofs.Yaml.Grammar
import SchemaEmbed.Yaml.Alias

namespace SchemaEmbed.Yaml

/-!
# A written value is loaded

The node of a value is read as a tree with scalars in the place of texts. Which scalar a text
stands for depends on its style, and the writer has chosen the style such that this comes out
right.

* `ofScalar_string` / `ofScalar_number` — what a scalar stands for, in the style in which it is
  written;
* `link_nodeOf` — the node of a value has no aliases to follow;
* `ofNode_nodeOf` — its meaning is the value, as long as no more than 128 collections are open at
  once;
* `load_render` — the tree of a whole text.
-/

/-! ### Scalars

A key, a string and a number are scalars without a tag; what they mean depends on their text and
style alone. The writer leaves a string plain only where it has tried to read it (`readsAsString`),
so a string that spells a number is quoted.
-/

/-- A plain scalar that stands for a string stands for its text. -/
theorem resolvePlain_string {s : List Char} {t : String} (h : resolvePlain s = some (.string t)) :
    t = String.ofList s := by
  unfold resolvePlain at h
  split at h
  · cases h
  · split at h
    · cases h
    · split at h
      · cases h
      · cases h
      · split at h
        · cases h
          rfl
        · split at h
          · cases h
          · cases h
            rfl

/-- **A string** that is written in its style is read as it is: if it is plain, it spells nothing
    else. -/
theorem ofScalar_string (key : Bool) (s : String) :
    Tree.ofScalar none s (styleOf key s.toList) = .ok (.string s) := by
  show Tree.ofUntagged s (styleOf key s.toList) = _
  unfold Tree.ofUntagged
  split
  · next hplain =>
    -- the plain style is chosen only for what reads as a string
    have hreads : readsAsString s.toList = true := by
      unfold styleOf at hplain
      simp only at hplain
      split at hplain
      · cases hplain
      · split at hplain
        · split at hplain <;> cases hplain
        · split at hplain
          · next h => exact (Bool.and_eq_true_iff.mp h).1
          · split at hplain <;> cases hplain
    unfold readsAsString at hreads
    split at hreads
    · next t ht =>
      rw [ht, resolvePlain_string ht, String.ofList_toList]
    · cases hreads
  · rfl

/-- **A number** in range is read as it is: an integer by its digits, a float by a decimal. -/
theorem ofScalar_number {n : Number} (hn : Value.IsWellFormed (.number n))
    (hfinite : Value.IsFloatFinite (.number n)) :
    Tree.ofScalar none (String.ofList (numberChars n)) .plain = .ok (.number n) := by
  have hplain : resolvePlain (numberChars n) = some (.number n) := by
    cases n with
    | int i => exact resolvePlain_int hn.1 hn.2
    | float x =>
      have htext : numberChars (.float x) = FloatLayout.yaml.renderChars x := if_pos hfinite
      rw [htext]
      exact resolvePlain_float _ hfinite
  show Tree.ofUntagged (String.ofList (numberChars n)) .plain = _
  rw [Tree.ofUntagged, if_pos rfl, String.toList_ofList, hplain]

/-! ### Aliases

The writer makes no anchors, so linking goes through the nodes and finds nothing to do.
-/

mutual

/-- The node of a value has no anchors and no aliases, so linking leaves it as it is. -/
theorem link_nodeOf (anchors : Anchors) : ∀ v : Value,
    Node.link anchors (nodeOf v) = .ok (nodeOf v, [], anchors)
  | .null => rfl
  | .bool _ => rfl
  | .number _ => rfl
  | .string _ => rfl
  | .array items => by
    show (Node.linkItems anchors (itemNodes items) >>= _) = _
    rw [linkItems_itemNodes anchors items]
    rfl
  | .object entries => by
    show (Node.linkEntries anchors (entryNodes entries) >>= _) = _
    rw [linkEntries_entryNodes anchors entries]
    rfl

/-- The nodes of items have no anchors and no aliases. -/
theorem linkItems_itemNodes (anchors : Anchors) : ∀ items : List Value,
    Node.linkItems anchors (itemNodes items) = .ok (itemNodes items, [], anchors)
  | [] => rfl
  | v :: items => by
    rw [itemNodes, Node.linkItems, link_nodeOf anchors v, ok_bind]
    show (Node.linkItems anchors (itemNodes items) >>= _) = _
    rw [linkItems_itemNodes anchors items]
    rfl

/-- The nodes of keys and values have no anchors and no aliases. -/
theorem linkEntries_entryNodes (anchors : Anchors) : ∀ entries : List (String × Value),
    Node.linkEntries anchors (entryNodes entries) = .ok (entryNodes entries, [], anchors)
  | [] => rfl
  | (k, v) :: entries => by
    rw [entryNodes, Node.linkEntries]
    show (Node.link anchors (nodeOf v) >>= _) = _
    rw [link_nodeOf anchors v, ok_bind]
    show (Node.linkEntries anchors (entryNodes entries) >>= _) = _
    rw [linkEntries_entryNodes anchors entries]
    rfl

end

/-! ### Meaning

How deep collections may nest is counted down from the root. Where a collection would be one too
many the reading fails, whatever follows; so the meaning of a node is an equation with one
condition, on the depth of its value.
-/

/-- No key is repeated in a mapping whose keys are different, and none is one from before.
    Strings are the same key exactly if they are equal. -/
theorem findRepeatedKey_ofEntries {before : List (Tree × Tree)} {entries : List (String × Value)}
    (h : (Entries.keys entries).Nodup)
    (hbefore : ∀ k ∈ Entries.keys entries, Tree.hasKey (.string k) before = false) :
    findRepeatedKey before (Tree.ofEntries entries) = none := by
  induction entries generalizing before with
  | nil => rfl
  | cons e entries ih =>
    obtain ⟨k, v⟩ := e
    obtain ⟨hk, hkeys⟩ := List.nodup_cons.mp h
    rw [Tree.ofEntries, findRepeatedKey, hbefore k List.mem_cons_self, if_neg (by decide)]
    refine ih hkeys fun k' hk' => ?_
    rw [Tree.hasKey, List.any_cons, Bool.or_eq_false_iff]
    refine ⟨?_, hbefore k' (List.mem_cons_of_mem _ hk')⟩
    rw [Tree.same, beq_eq_false_iff_ne]
    rintro rfl
    exact hk hk'

/-- What is read where too many collections would be open: an error without a place. -/
def tooDeep {α : Type} : Reading α := unreadable "recursion limit exceeded"

section Meaning

variable (links : Links) (depth : Nat)

/-- A scalar without tags stands for what its text does, at any depth. -/
theorem ofNode_scalar {text : String} {style : Style} {t : Tree}
    (h : Tree.ofScalar none text style = .ok t) :
    Tree.ofNode links depth (.scalar .empty text style) = pure t := by
  funext used
  unfold Tree.ofNode
  show (Tree.ofScalar none text style >>= _) = _
  rw [h]
  rfl

/-- A collection is too much where no more may be open, whatever is in it. -/
theorem ofNode_zero (items : List (Node Nat)) (entries : List (Node Nat × Node Nat)) :
    Tree.ofNode links 0 (.sequence .empty items) = tooDeep
      ∧ Tree.ofNode links 0 (.mapping .empty entries) = tooDeep := by
  constructor
  · funext used
    unfold Tree.ofNode
    rfl
  · funext used
    unfold Tree.ofNode
    rfl

/-- A sequence stands for what its items do, with one collection more that is open. -/
theorem ofNode_sequence (items : List (Node Nat)) :
    Tree.ofNode links (depth + 1) (.sequence .empty items)
      = (items.mapM (Tree.ofNode links depth) >>= fun ts => pure (.sequence ts)) := by
  funext used
  unfold Tree.ofNode
  rfl

/-- The meaning of a key and of its value, in this order. -/
def ofEntryNode (e : Node Nat × Node Nat) : Reading (Tree × Tree) := do
  let key ← Tree.ofNode links depth e.1
  let value ← Tree.ofNode links depth e.2
  return (key, value)

/-- A mapping stands for what its keys and values do, with one collection more that is open,
    unless a key is repeated. -/
theorem ofNode_mapping (entries : List (Node Nat × Node Nat)) :
    Tree.ofNode links (depth + 1) (.mapping .empty entries)
      = (entries.mapM (ofEntryNode links depth) >>= fun ts =>
        match findRepeatedKey [] ts with
        | some _ => unreadable "duplicate entry"
        | none => pure (.mapping ts)) := by
  funext used
  rw [Tree.ofNode]
  rfl

end Meaning

mutual

/-- **The meaning of the node of a value** is the value, if enough collections may be open at
    once. The recursion is on the value, and the depth that is left goes down by one in a
    collection. -/
theorem ofNode_nodeOf (links : Links) : ∀ {v : Value} (depth : Nat), v.WellFormed → v.FloatsFinite →
    Tree.ofNode links depth (nodeOf v) = if v.depth ≤ depth then pure (Tree.ofValue v) else tooDeep
  | .null, depth, _, _ =>
    (ofNode_scalar links depth rfl).trans (if_pos (Nat.zero_le depth)).symm
  | .bool b, depth, _, _ =>
    (ofNode_scalar links depth (by cases b <;> rfl)).trans (if_pos (Nat.zero_le depth)).symm
  | .number n, depth, hn, hfinite =>
    (ofNode_scalar links depth (ofScalar_number hn hfinite)).trans (if_pos (Nat.zero_le depth)).symm
  | .string s, depth, _, _ =>
    (ofNode_scalar links depth (ofScalar_string false s)).trans (if_pos (Nat.zero_le depth)).symm
  | .array items, 0, _, _ => by
    rw [if_neg (by simp [Value.depth])]
    exact (ofNode_zero links _ []).1
  | .array items, depth + 1, hn, hfinite => by
    rw [nodeOf, ofNode_sequence, mapM_itemNodes links depth hn.2 hfinite.2]
    by_cases hdepth : Value.depthItems items ≤ depth
    · rw [if_pos hdepth, if_pos (by simpa [Value.depth] using hdepth)]
      rfl
    · rw [if_neg hdepth, if_neg (by simpa [Value.depth] using hdepth)]
      rfl
  | .object entries, 0, _, _ => by
    rw [if_neg (by simp [Value.depth])]
    exact (ofNode_zero links [] _).2
  | .object entries, depth + 1, hn, hfinite => by
    rw [nodeOf, ofNode_mapping, mapM_entryNodes links depth hn.2 hfinite.2]
    by_cases hdepth : Value.depthEntries entries ≤ depth
    · rw [if_pos hdepth, if_pos (by simpa [Value.depth] using hdepth), pure_bind,
        findRepeatedKey_ofEntries hn.1 fun _ _ => rfl]
      rfl
    · rw [if_neg hdepth, if_neg (by simpa [Value.depth] using hdepth)]
      rfl

/-- The meaning of the nodes of items is the items, if enough collections may be open at once. If
    one of them is too deep, the reading fails there, after those before it have been read. -/
theorem mapM_itemNodes (links : Links) : ∀ {items : List Value} (depth : Nat),
    Value.EveryItem Value.IsWellFormed items → Value.EveryItem Value.IsFloatFinite items →
    (itemNodes items).mapM (Tree.ofNode links depth)
      = if Value.depthItems items ≤ depth then pure (Tree.ofItems items) else tooDeep
  | [], depth, _, _ => (if_pos (Nat.zero_le depth)).symm
  | v :: items, depth, hn, hfinite => by
    have hmax : Value.depthItems (v :: items) ≤ depth
        ↔ v.depth ≤ depth ∧ Value.depthItems items ≤ depth := Nat.max_le
    rw [itemNodes, List.mapM_cons, ofNode_nodeOf links depth hn.1 hfinite.1,
      mapM_itemNodes links depth hn.2 hfinite.2]
    by_cases hv : v.depth ≤ depth
    · by_cases hitems : Value.depthItems items ≤ depth
      · rw [if_pos hv, if_pos hitems, if_pos (hmax.mpr ⟨hv, hitems⟩)]
        rfl
      · rw [if_pos hv, if_neg hitems, if_neg fun h => hitems (hmax.mp h).2]
        rfl
    · rw [if_neg hv, if_neg fun h => hv (hmax.mp h).1]
      rfl

/-- The meaning of the nodes of entries is the entries, if enough collections may be open at
    once. -/
theorem mapM_entryNodes (links : Links) : ∀ {entries : List (String × Value)} (depth : Nat),
    Value.EveryEntry Value.IsWellFormed entries → Value.EveryEntry Value.IsFloatFinite entries →
    (entryNodes entries).mapM (ofEntryNode links depth)
      = if Value.depthEntries entries ≤ depth then pure (Tree.ofEntries entries) else tooDeep
  | [], depth, _, _ => (if_pos (Nat.zero_le depth)).symm
  | (k, v) :: entries, depth, hn, hfinite => by
    have hmax : Value.depthEntries ((k, v) :: entries) ≤ depth
        ↔ v.depth ≤ depth ∧ Value.depthEntries entries ≤ depth := Nat.max_le
    rw [entryNodes, List.mapM_cons, mapM_entryNodes links depth hn.2 hfinite.2]
    -- the key is a string, which is never too deep
    have hkey : ofEntryNode links depth
        (.scalar .empty k (styleOf (Tree.string k).isSimpleKey k.toList), nodeOf v)
        = (if v.depth ≤ depth then pure (.string k, Tree.ofValue v) else tooDeep) := by
      rw [ofEntryNode, ofNode_scalar links depth (ofScalar_string _ k),
        ofNode_nodeOf links depth hn.1 hfinite.1]
      split <;> rfl
    rw [hkey]
    by_cases hv : v.depth ≤ depth
    · by_cases hentries : Value.depthEntries entries ≤ depth
      · rw [if_pos hv, if_pos hentries, if_pos (hmax.mpr ⟨hv, hentries⟩)]
        rfl
      · rw [if_pos hv, if_neg hentries, if_neg fun h => hentries (hmax.mp h).2]
        rfl
    · rw [if_neg hv, if_neg fun h => hv (hmax.mp h).1]
      rfl

end

/-! ### Whole texts -/

/-- **A written value is loaded** as it is if its containers nest at most 128 deep, and not at
    all if they nest deeper. -/
theorem load_render {v : Value} (hv : v.WellFormed) (hfinite : v.FloatsFinite) :
    load (render v) = if v.depth ≤ maxOpen then .ok (Tree.ofValue v)
      else .error ⟨"recursion limit exceeded", none⟩ := by
  unfold load
  rw [tokenize_render hfinite, ok_bind, ofTokens_tokens, ok_bind]
  show (Node.link [] (nodeOf v) >>= _) = _
  rw [link_nodeOf, ok_bind]
  show ((Tree.ofNode _ maxOpen (nodeOf v)).run 0 >>= _) = _
  rw [ofNode_nodeOf _ _ hv hfinite]
  split <;> rfl

end SchemaEmbed.Yaml
