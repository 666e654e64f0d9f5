import SchemaEmbed.Proofs.Yaml.Tokens
import SchemaEmbed.Yaml.Node

namespace SchemaEmbed.Yaml

/-!
# The nodes of a written value

The writer indents the items of a sequence except in a mapping, where their dashes stand below the
key. The grammar has a rule of its own for these, which has no token for the end of the sequence.
So the tokens of a value depend on where it stands, and its node does not.

* `nodeOf` — the node that a value is written as, without anchors, aliases and tags;
* `node_tokens` — the grammar reads the tokens of a value as its node, whatever comes after;
* `ofTokens_tokens` — the document of the token stream of a value is its node.
-/

/-! ### Nodes of a value -/

mutual

/-- The node that a value is written as. What the references of aliases are does not matter, as
    there are none; before linking they are names, and after it numbers. -/
def nodeOf {Ref : Type} : Value → Node Ref
  | .null => .scalar .empty "null" .plain
  | .bool b => .scalar .empty (if b then "true" else "false") .plain
  | .number n => .scalar .empty (String.ofList (numberChars n)) .plain
  | .string s => .scalar .empty s (styleOf false s.toList)
  | .array items => .sequence .empty (itemNodes items)
  | .object entries => .mapping .empty (entryNodes entries)

/-- The nodes of the items of a sequence. -/
def itemNodes {Ref : Type} : List Value → List (Node Ref)
  | [] => []
  | v :: rest => nodeOf v :: itemNodes rest

/-- The nodes of the keys and values of a mapping. -/
def entryNodes {Ref : Type} : List (String × Value) → List (Node Ref × Node Ref)
  | [] => []
  | (k, v) :: rest =>
    (.scalar .empty k (styleOf (Tree.string k).isSimpleKey k.toList), nodeOf v) :: entryNodes rest

end

/-! ### One step of the grammar

The grammar looks at the first token and decides. For the tokens that a written value can begin
with there is one equation each, in which the parts are read by the other functions; they hold by
the definition of the grammar.
-/

section Steps

variable (handles : Handles) (fuel : Nat) (dashes : Bool) (rest : List Token)

/-- A scalar is read as a node with nothing around it. -/
theorem node_scalar (text : String) (style : Style) :
    node handles (fuel + 1) true dashes (.scalar text style :: rest)
      = .ok (.scalar .empty text style, rest) := rfl

/-- The beginning of a sequence is read with its items after it. -/
theorem node_sequence :
    node handles (fuel + 1) true dashes (.blockSequenceStart :: rest)
      = (blockItems handles fuel rest).map fun r => (.sequence .empty r.1, r.2) := rfl

/-- A dash where dashes may stand without indentation is read as the first one of a sequence. -/
theorem node_dashes :
    node handles (fuel + 1) true true (.blockEntry :: rest)
      = (dashItems handles fuel (.blockEntry :: rest)).map
        fun r => (.sequence .empty r.1, r.2) := rfl

/-- The beginning of a mapping is read with its entries after it. -/
theorem node_mapping :
    node handles (fuel + 1) true dashes (.blockMappingStart :: rest)
      = (blockEntries handles fuel rest).map fun r => (.mapping .empty r.1, r.2) := rfl

end Steps

/-- The first token of a value ends no part of a mapping; unless the dashes of a sequence are not
    indented, it ends no item either. So no value is taken for one that is missing. -/
theorem head_tokens (dashes : Bool) (v : Value) (rest : List Token) :
    endsBlockPart (tokens dashes v ++ rest) = false
      ∧ (dashes = false → endsItem (tokens dashes v ++ rest) = false) := by
  cases v with
  | array items =>
    cases items with
    | nil => exact ⟨rfl, fun _ => rfl⟩
    | cons w items =>
      cases dashes with
      | true => exact ⟨rfl, fun h => by cases h⟩
      | false => exact ⟨rfl, fun _ => rfl⟩
  | object entries => cases entries <;> exact ⟨rfl, fun _ => rfl⟩
  | _ => exact ⟨rfl, fun _ => rfl⟩

section Items

variable {handles : Handles} {fuel : Nat} {ts rest rest' : List Token} {n : Node String}
  {ns : List (Node String)}

/-- An item of an indented sequence is read behind its dash, and then the items after it. What
    the item is read as is given. -/
theorem blockItems_cons (hts : endsItem ts = false)
    (hnode : node handles fuel true false ts = .ok (n, rest))
    (hrest : blockItems handles fuel rest = .ok (ns, rest')) :
    blockItems handles (fuel + 1) (.blockEntry :: ts) = .ok (n :: ns, rest') := by
  unfold blockItems
  split
  · next heq =>
    cases heq
    split
    · -- neither the next dash nor the end follows, so the item is there
      cases hts
    · cases hts
    · rw [hnode]
      show (blockItems handles fuel rest >>= _) = _
      rw [hrest]
      rfl
  · next heq => cases heq
  · next hne _ => exact absurd rfl (hne _)

/-- An item of a sequence whose dashes are not indented is read behind its dash, and then the
    items after it. -/
theorem dashItems_cons (hts : endsItem ts = false)
    (hnode : node handles fuel true false ts = .ok (n, rest))
    (hrest : dashItems handles fuel rest = .ok (ns, rest')) :
    dashItems handles (fuel + 1) (.blockEntry :: ts) = .ok (n :: ns, rest') := by
  unfold dashItems
  simp only [hts, Bool.false_eq_true, ↓reduceIte, hnode, ok_bind, hrest]
  rfl

/-- A sequence whose dashes are not indented ends where there is no dash, and leaves the token
    that is there. -/
theorem dashItems_nil (hts : ts.head? ≠ some .blockEntry) :
    dashItems handles (fuel + 1) ts = .ok ([], ts) := by
  unfold dashItems
  split
  · exact absurd rfl hts
  · rfl

/-- An entry of a mapping is read, its key and then its value, and then the entries after it. -/
theorem blockEntries_cons {k : String} {style : Style} {es : List (Node String × Node String)}
    (hfuel : 0 < fuel) (hts : endsBlockPart ts = false)
    (hnode : node handles fuel true true ts = .ok (n, rest))
    (hrest : blockEntries handles fuel rest = .ok (es, rest')) :
    blockEntries handles (fuel + 1) (.key :: .scalar k style :: .value :: ts)
      = .ok ((.scalar .empty k style, n) :: es, rest') := by
  obtain ⟨fuel, rfl⟩ : ∃ m, fuel = m + 1 := ⟨fuel - 1, by omega⟩
  unfold blockEntries
  have hkey : endsBlockPart (.scalar k style :: .value :: ts) = false := rfl
  simp only [hkey, Bool.false_eq_true, ↓reduceIte, node_scalar, ok_bind, hts, hnode, hrest]
  rfl

end Items

/-! ### The tokens of a value

The recursion is on the value, and the fuel is counted in tokens: every call of the grammar takes
one of the fuel, and no more calls are nested than there are tokens left.
-/

mutual

/-- **The tokens of a value** are read as its node, whatever comes after. A sequence whose
    dashes are not indented is read only where one can stand, and up to what is no dash. -/
theorem node_tokens {handles : Handles} : ∀ {v : Value} {dashes flag : Bool} {fuel : Nat}
    {rest : List Token}, (dashes = true → flag = true ∧ rest.head? ≠ some .blockEntry) →
    (tokens dashes v).length + 1 + dashes.toNat ≤ fuel →
    node handles fuel true flag (tokens dashes v ++ rest) = .ok (nodeOf v, rest)
  | v, dashes, _, 0, _, _, hfuel => by omega
  | .null, _, _, _ + 1, _, _, _ => rfl
  | .bool _, _, _, _ + 1, _, _, _ => rfl
  | .number _, _, _, _ + 1, _, _, _ => rfl
  | .string _, _, _, _ + 1, _, _, _ => rfl
  | .array [], _, _, 1, _, _, hfuel => by simp [tokens] at hfuel; omega
  | .array [], _, _, _ + 2, _, _, _ => rfl
  | .object [], _, _, 1, _, _, hfuel => by simp [tokens] at hfuel; omega
  | .object [], _, _, _ + 2, _, _, _ => rfl
  | .array (v :: items), true, flag, fuel + 1, rest, hrest, hfuel => by
    obtain ⟨rfl, hdash⟩ := hrest rfl
    have hitems : dashItems handles fuel (itemTokens (v :: items) ++ rest)
        = .ok (itemNodes (v :: items), rest) :=
      dashItems_tokens hdash (by simpa [tokens] using hfuel)
    show node handles (fuel + 1) true true (itemTokens (v :: items) ++ rest) = _
    rw [itemTokens, List.cons_append, node_dashes, ← List.cons_append, ← itemTokens, hitems]
    rfl
  | .array (v :: items), false, flag, fuel + 1, rest, _, hfuel => by
    have hitems : blockItems handles fuel (itemTokens (v :: items) ++ .blockEnd :: rest)
        = .ok (itemNodes (v :: items), rest) :=
      blockItems_tokens (by simp [tokens] at hfuel; omega)
    show node handles (fuel + 1) true flag
      (.blockSequenceStart :: (itemTokens (v :: items) ++ [.blockEnd]) ++ rest) = _
    rw [List.cons_append, node_sequence, List.append_assoc, List.singleton_append, hitems]
    rfl
  | .object (e :: entries), dashes, flag, fuel + 1, rest, _, hfuel => by
    have hentries : blockEntries handles fuel (entryTokens (e :: entries) ++ .blockEnd :: rest)
        = .ok (entryNodes (e :: entries), rest) :=
      blockEntries_tokens (by simp [tokens] at hfuel; omega)
    show node handles (fuel + 1) true flag
      (.blockMappingStart :: (entryTokens (e :: entries) ++ [.blockEnd]) ++ rest) = _
    rw [List.cons_append, node_mapping, List.append_assoc, List.singleton_append, hentries]
    rfl

/-- The tokens of the items of an indented sequence are read as their nodes, up to the end of the
    block. -/
theorem blockItems_tokens {handles : Handles} : ∀ {items : List Value} {fuel : Nat}
    {rest : List Token}, (itemTokens items).length + 1 ≤ fuel →
    blockItems handles fuel (itemTokens items ++ .blockEnd :: rest) = .ok (itemNodes items, rest)
  | _, 0, _, hfuel => by omega
  | [], _ + 1, _, _ => rfl
  | v :: items, fuel + 1, rest, hfuel => by
    have hfuel : (tokens false v).length + (itemTokens items).length + 1 ≤ fuel := by
      simp only [itemTokens, List.length_cons, List.length_append] at hfuel
      omega
    rw [itemTokens, List.cons_append, List.append_assoc]
    exact blockItems_cons ((head_tokens false v _).2 rfl) (node_tokens (by simp) (by simp; omega))
      (blockItems_tokens (by omega))

/-- The tokens of the items of a sequence whose dashes are not indented are read as their nodes,
    up to what is no dash. -/
theorem dashItems_tokens {handles : Handles} : ∀ {items : List Value} {fuel : Nat}
    {rest : List Token}, rest.head? ≠ some .blockEntry → (itemTokens items).length + 1 ≤ fuel →
    dashItems handles fuel (itemTokens items ++ rest) = .ok (itemNodes items, rest)
  | _, 0, _, _, hfuel => by omega
  | [], _ + 1, _, hrest, _ => dashItems_nil hrest
  | v :: items, fuel + 1, rest, hrest, hfuel => by
    have hfuel : (tokens false v).length + (itemTokens items).length + 1 ≤ fuel := by
      simp only [itemTokens, List.length_cons, List.length_append] at hfuel
      omega
    rw [itemTokens, List.cons_append, List.append_assoc]
    exact dashItems_cons ((head_tokens false v _).2 rfl) (node_tokens (by simp) (by simp; omega))
      (dashItems_tokens hrest (by omega))

/-- The tokens of the entries of a mapping are read as the nodes of their keys and values, up to
    the end of the block. -/
theorem blockEntries_tokens {handles : Handles} : ∀ {entries : List (String × Value)} {fuel : Nat}
    {rest : List Token}, (entryTokens entries).length + 1 ≤ fuel →
    blockEntries handles fuel (entryTokens entries ++ .blockEnd :: rest)
      = .ok (entryNodes entries, rest)
  | _, 0, _, hfuel => by omega
  | [], _ + 1, _, _ => rfl
  | (k, v) :: entries, fuel + 1, rest, hfuel => by
    have hfuel : (tokens (Tree.string k).isSimpleKey v).length
        + (entryTokens entries).length + 3 ≤ fuel := by
      simp only [entryTokens, List.length_cons, List.length_append] at hfuel
      omega
    have hsimple := Bool.toNat_le (Tree.string k).isSimpleKey
    rw [entryTokens, List.cons_append, List.cons_append, List.cons_append, List.append_assoc]
    refine blockEntries_cons (by omega) (head_tokens _ v _).1
      (node_tokens (fun _ => ⟨rfl, ?_⟩) (by omega))
      (blockEntries_tokens (by omega))
    -- the next entry begins with a key, and no entry with the end of the block
    cases entries with
    | nil => simp [entryTokens]
    | cons e entries => simp [entryTokens]

end

/-! ### Whole documents -/

/-- **The document** of the tokens of a value is its node. No directive and no indicator stands
    before it, and the stream ends behind it. -/
theorem ofTokens_tokens (v : Value) :
    Node.ofTokens? (tokens false v ++ [.streamEnd]) = .ok (some (nodeOf v)) := by
  have hnode : node Handles.standard (grammarFuel (tokens false v ++ [.streamEnd])) true false
      (tokens false v ++ [.streamEnd]) = .ok (nodeOf v, [.streamEnd]) :=
    node_tokens (by simp) (by simp [grammarFuel]; omega)
  -- the document begins with a node
  have hfirst : firstDocument (tokens false v ++ [.streamEnd]) = .ok (nodeOf v, [.streamEnd]) := by
    rw [← hnode]
    cases v with
    | array items => cases items <;> rfl
    | object entries => cases entries <;> rfl
    | _ => rfl
  have hne : tokens false v ≠ [] := fun h => by
    cases v with
    | array items => cases items <;> cases h
    | object entries => cases entries <;> cases h
    | _ => cases h
  unfold Node.ofTokens?
  split
  · next heq => exact absurd (by simpa using heq) hne
  · rw [hfirst]
    rfl

end SchemaEmbed.Yaml
