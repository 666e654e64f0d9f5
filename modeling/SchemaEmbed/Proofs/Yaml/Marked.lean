import SchemaEmbed.Proofs.Yaml.Resolved

namespace SchemaEmbed.Yaml

/-!
# Reading with all tags kept

A tree keeps only the tags of the document's own. To say what becomes of the other ones, a text is
read once more with all properties of its nodes kept, step by step as it is read without them:

* `Marked` — a tree in which every node has its properties, and `Marked.tree`, the tree that is
  read;
* `Marked.ofNode` / `Marked.load` — the marked tree of a node and of a text;
* `Marked.mergeKeys` — merging, where an entry that is taken over keeps its properties;
* `ofNode_tree` / `load_tree` / `mergeKeys_tree` — **what is read** is the tree of the marked tree,
  at each of these steps, and an error in one is the same error in the other.

So statements about marked trees are about what is read: each marked tree that they speak of is
there whenever the tree is.
-/

/-- A tree in which every node has the properties that the text gives it. -/
inductive Marked where
  | scalar (p : Properties) (t : Tree) (h : t.IsScalar)
  | sequence (p : Properties) (items : List Marked)
  | mapping (p : Properties) (entries : List (Marked × Marked))

namespace Marked

/-- The properties of a node, which say its anchor and its tag. -/
def properties : Marked → Properties
  | .scalar p .. | .sequence p _ | .mapping p _ => p

/-- The entries of a mapping with marked keys and values. -/
abbrev Fields := List (Marked × Marked)

mutual

/-- The tree that is read. -/
def tree : Marked → Tree
  | .scalar p t _ => p.wrap t
  | .sequence p items => p.wrap (.sequence (treeItems items))
  | .mapping p fields => p.wrap (.mapping (treeFields fields))

/-- The items of a sequence as they are read. -/
def treeItems : List Marked → List Tree
  | [] => []
  | m :: items => m.tree :: treeItems items

/-- The entries of a mapping as they are read. -/
def treeFields : Fields → Yaml.Fields
  | [] => []
  | (k, v) :: fields => (k.tree, v.tree) :: treeFields fields

end

/-- The tree within the tag of the root. -/
def content : Marked → Tree
  | .scalar _ t _ => t
  | .sequence _ items => .sequence (treeItems items)
  | .mapping _ fields => .mapping (treeFields fields)

/-- An entry of a mapping, as it is read. -/
def treeEntry (e : Marked × Marked) : Tree × Tree := (e.1.tree, e.2.tree)

/-- Items are read one by one, so that lemmas on `List.map` apply. -/
theorem treeItems_eq (items : List Marked) : treeItems items = items.map tree := by
  induction items with
  | nil => rfl
  | cons m items ih => rw [treeItems, ih, List.map_cons]

/-- Entries are read one by one, for the same reason. -/
theorem treeFields_eq (fields : Fields) : treeFields fields = fields.map treeEntry := by
  induction fields with
  | nil => rfl
  | cons e fields ih =>
    obtain ⟨k, v⟩ := e
    rw [treeFields, ih, List.map_cons, treeEntry]

/-! ### Nodes

A marked tree is read from the same nodes and with the same links. Every error is raised at the
same place: the limit of depth and the count of aliases know nothing of properties, and whether a
key is repeated is decided on the trees that are read.
-/

/-- A scalar with its properties, if it can be read. The second argument is what makes it a
    scalar, which the marked tree carries with it. -/
def ofTree (p : Properties) :
    (x : Except SyntaxError Tree) → (∀ t, x = .ok t → t.IsScalar) → Except SyntaxError Marked
  | .ok t, h => .ok (.scalar p t (h t rfl))
  | .error e, _ => .error e

/-- The meaning of a scalar with its properties. A tag of the document's own keeps the scalar
    from being resolved as that tag says; any other tag is part of what it means. -/
def ofScalar (p : Properties) (text : String) (style : Style) : Except SyntaxError Marked :=
  match p.ownTag? with
  | some _ => ofTree p (Tree.ofUntagged text style) fun _ => isScalar_ofUntagged
  | none => ofTree p (Tree.ofScalar p.tag text style) fun _ => isScalar_ofScalar

/-- The meaning of a node with all properties in it. -/
def ofNode (links : Links) : (depth : Nat) → Node Nat → Reading Marked
  | depth, node => do
    match ← links.follow node with
    | .alias _ => unreadable "unresolved alias"
    | .scalar p text style => ofScalar p text style
    | .sequence p items =>
      match depth with
      | 0 => unreadable "recursion limit exceeded"
      | depth + 1 =>
        let items ← items.mapM (ofNode links depth)
        return .sequence p items
    | .mapping p entries =>
      match depth with
      | 0 => unreadable "recursion limit exceeded"
      | depth + 1 =>
        let fields ← entries.mapM fun (key, value) => do
          let key ← ofNode links depth key
          let value ← ofNode links depth value
          return (key, value)
        match findRepeatedKey [] (treeFields fields) with
        | some _ => unreadable "duplicate entry"
        | none => return .mapping p fields

/-- The marked tree of a text. A text without a document is a null that has no properties. -/
def load (text : String) : Except SyntaxError Marked := do
  match ← Node.ofTokens? (← tokenize text.toList) with
  | none => return .scalar .empty .null trivial
  | some root =>
    let (root, targets, _) ← root.link []
    let links : Links := ⟨targets, aliasesPerEvent * root.events⟩
    let (m, _) ← (ofNode links maxOpen root).run 0
    return m

/-! ### The tree of a marked tree

At each step it is shown that the two readings are one, up to `tree`: first for a scalar, then for
a node, then for a text. A reading can fail and counts aliases on the way, so these are equations
between actions and not between results.
-/

/-- A reading that is the same for each item, up to what is made of its result, is so for all of
    them: the readings are done in the same order and stop at the same item. -/
theorem mapM_map {m : Type → Type} [Monad m] [LawfulMonad m] {α β γ : Type} {f : α → m γ}
    {g : α → m β} {h : β → γ} (hfg : ∀ x, f x = h <$> g x) (xs : List α) :
    xs.mapM f = List.map h <$> xs.mapM g := by
  induction xs with
  | nil => simp
  | cons x xs ih => simp [List.mapM_cons, hfg, ih]

/-- A scalar as it is read, within its tag. On the left stands what `Tree.ofNode` does with a
    scalar. -/
theorem ofScalar_tree (p : Properties) (text : String) (style : Style) :
    (match p.ownTag? with
      | some tag => do return .tagged tag (← Tree.ofUntagged text style)
      | none => Tree.ofScalar p.tag text style : Reading Tree)
    = tree <$> (ofScalar p text style : Reading Marked) := by
  -- an error is the same on both sides, and a scalar is put within its tag
  have hof {x : Except SyntaxError Tree} (h : ∀ t, x = .ok t → t.IsScalar) :
      (tree <$> (ofTree p x h : Reading Marked)) = p.wrap <$> (x : Reading Tree) := by
    cases x <;> rfl
  unfold ofScalar
  split
  · next tag hp =>
    rw [hof]
    have hwrap : p.wrap = Tree.tagged tag := by
      funext t
      rw [Properties.wrap, hp]
    rw [hwrap, map_eq_pure_bind]
  · next hp =>
    rw [hof]
    have hwrap : p.wrap = id := by
      funext t
      rw [Properties.wrap, hp, id]
    rw [hwrap, id_map]

/-- **What is read** of a node is the tree of what is read of it with all properties. The
    induction is on the depth that is left; within one depth the links are followed alike. -/
theorem ofNode_tree (links : Links) (depth : Nat) (node : Node Nat) :
    Tree.ofNode links depth node = tree <$> ofNode links depth node := by
  induction depth generalizing node with
  | zero =>
    unfold Tree.ofNode ofNode
    rw [map_bind]
    refine bind_congr fun node => ?_
    cases node with
    | scalar p text style => exact ofScalar_tree p text style
    | _ => rfl
  | succ depth ih =>
    unfold Tree.ofNode ofNode
    rw [map_bind]
    refine bind_congr fun node => ?_
    cases node with
    | scalar p text style => exact ofScalar_tree p text style
    | sequence p items =>
      simp only [mapM_map ih items, map_bind, bind_map_left, map_pure, tree, treeItems_eq]
    | mapping p entries =>
      have hentry (e : Node Nat × Node Nat) :
          (do
            let key ← Tree.ofNode links depth e.1
            let value ← Tree.ofNode links depth e.2
            return (key, value) : Reading (Tree × Tree))
          = treeEntry <$> (do
            let key ← ofNode links depth e.1
            let value ← ofNode links depth e.2
            return (key, value)) := by
        simp only [ih, map_bind, bind_map_left, map_pure, treeEntry]
      simp only [mapM_map hentry entries, map_bind, bind_map_left]
      refine bind_congr fun fields => ?_
      -- a key is repeated in one exactly if it is in the other
      rw [← treeFields_eq]
      cases findRepeatedKey [] (treeFields fields) with
      | some k => rfl
      | none => rw [map_pure, tree]
    | _ => rfl

/-- **What is loaded** is the tree of what is loaded with all properties. -/
theorem load_tree (text : String) : Yaml.load text = (load text).map tree := by
  unfold Yaml.load load
  cases tokenize text.toList with
  | error e => rfl
  | ok tokens =>
    simp only [ok_bind]
    rcases Node.ofTokens? tokens with e | _ | root
    · rfl
    · rfl
    · simp only [ok_bind]
      rcases root.link [] with e | ⟨root, targets, anchors⟩
      · rfl
      · simp only [ok_bind, ofNode_tree, StateT.run_map]
        cases (ofNode _ maxOpen root).run 0 <;> rfl

/-! ### Merge keys

The functions of merging once more, on marked entries. Each looks at the same things as the one
that it follows: keys are compared as they are read, and what makes a source unfit is that there is
a tag of the document's own around it.
-/

/-- The entries after the last one, if there is one, has moved to the head. -/
def lastToFront (fields : Fields) : Fields :=
  match fields.getLast? with
  | some e => e :: fields.dropLast
  | none => []

/-- The value of the merge key, and the entries without it, the last one in its place. -/
def takeMergeKey : Fields → Option (Marked × Fields)
  | [] => none
  | (k, v) :: rest =>
    if isMergeKey k.tree then some (v, lastToFront rest)
    else (takeMergeKey rest).map fun (source, others) => (source, (k, v) :: others)

/-- Appends those entries whose keys are absent. -/
def absorb (fields source : Fields) : Fields :=
  source.foldl
    (fun fields e => if Tree.hasKey e.1.tree (treeFields fields) then fields else fields ++ [e])
    fields

/-- Whether a node has a tag of the document's own: then it is no source of a merge. -/
def isTagged (m : Marked) : Bool := m.properties.ownTag?.isSome

/-- Takes over the entries of every mapping of a list. -/
def absorbAll (fields : Fields) : List Marked → Except MergeError Fields
  | [] => .ok fields
  | m :: rest =>
    if m.isTagged then .error .taggedValue
    else
      match m with
      | .mapping _ source => absorbAll (absorb fields source) rest
      | .sequence .. => .error .sequenceItem
      | .scalar .. => .error .scalarItem

/-- The entries of a mapping after its merge key, if it has one, took effect. -/
def mergeFields (fields : Fields) : Except MergeError Fields :=
  match takeMergeKey fields with
  | none => .ok fields
  | some (m, others) =>
    if m.isTagged then .error .taggedValue
    else
      match m with
      | .mapping _ source => .ok (absorb others source)
      | .sequence _ sources => absorbAll others sources
      | .scalar .. => .error .scalar

/-- Resolves the merge keys of a marked tree of at most this height. -/
def mergeKeysWithin : (height : Nat) → Marked → Except MergeError Marked
  | 0, m => .ok m
  | height + 1, m =>
    match m with
    | .scalar p t h => .ok (.scalar p t h)
    | .sequence p items => (eachFromLast (mergeKeysWithin height) items).map (.sequence p)
    | .mapping p fields => do
      let fields ← mergeFields fields
      let fields ← eachFromLast
        (fun (key, value) => (mergeKeysWithin height value).map (Prod.mk key)) fields
      return .mapping p fields

/-- Resolves the merge keys of a marked tree. -/
def mergeKeys (m : Marked) : Except MergeError Marked := m.mergeKeysWithin m.tree.size

/-! ### Merging with and without properties

Whether an entry is taken over depends on keys and not on properties, and whether a source can be
taken from depends on the tag around it, which both forms have. Only the height, that is the fuel
of merging, differs: a tag around a tree is one more. So a greater height than is needed must
change nothing.
-/

/-- A tree is its content within the tag of the root. -/
theorem tree_eq_wrap (m : Marked) : m.tree = m.properties.wrap m.content := by
  cases m <;> rfl

/-- A tag of the document's own stands around the tree. -/
theorem tree_of_tagged {m : Marked} (h : m.isTagged = true) :
    ∃ tag, m.tree = .tagged tag m.content := by
  obtain ⟨tag, htag⟩ := Option.isSome_iff_exists.mp h
  exact ⟨tag, by rw [tree_eq_wrap, Properties.wrap, htag]⟩

/-- Without a tag of the document's own nothing stands around the tree. -/
theorem tree_of_not_tagged {m : Marked} (h : ¬ m.isTagged = true) : m.tree = m.content := by
  rw [tree_eq_wrap, Properties.wrap, Option.not_isSome_iff_eq_none.mp h]

/-- With properties and without, the same entry is moved to the head. -/
theorem lastToFront_tree (fields : Fields) :
    Yaml.lastToFront (fields.map treeEntry) = (lastToFront fields).map treeEntry := by
  rw [Yaml.lastToFront, lastToFront, List.getLast?_map]
  cases fields.getLast? with
  | none => rfl
  | some e => rw [Option.map_some, List.map_cons, List.map_dropLast]

/-- With properties and without, the same entry is that of the merge key. -/
theorem takeMergeKey_tree (fields : Fields) :
    Yaml.takeMergeKey (fields.map treeEntry)
      = (takeMergeKey fields).map fun (m, others) => (m.tree, others.map treeEntry) := by
  induction fields with
  | nil => rfl
  | cons e fields ih =>
    obtain ⟨k, v⟩ := e
    rw [List.map_cons, treeEntry, Yaml.takeMergeKey, takeMergeKey]
    split
    · rw [lastToFront_tree, Option.map_some]
    · rw [ih, Option.map_map, Option.map_map]
      rfl

/-- With properties and without, the same keys are absent, and so the same entries are taken
    over. -/
theorem absorb_tree (fields source : Fields) :
    Yaml.absorb (fields.map treeEntry) (source.map treeEntry)
      = (absorb fields source).map treeEntry := by
  unfold Yaml.absorb absorb
  induction source generalizing fields with
  | nil => rfl
  | cons e source ih =>
    rw [List.map_cons, List.foldl_cons, List.foldl_cons, ← ih, treeFields_eq]
    show List.foldl _ (if Tree.hasKey e.1.tree (fields.map treeEntry) = true then _ else _) _ = _
    -- the entry is taken over on both sides or on neither
    by_cases hkey : Tree.hasKey e.1.tree (fields.map treeEntry) = true
    · rw [if_pos hkey, if_pos hkey]
    · rw [if_neg hkey, if_neg hkey, List.map_append, List.map_singleton]

/-- Each mapping of a list is taken over, and what is none is the same error. A tag of the
    document's own is looked for before the kind of the node is. -/
theorem absorbAll_tree (fields : Fields) (sources : List Marked) :
    Yaml.absorbAll (fields.map treeEntry) (sources.map tree)
      = (absorbAll fields sources).map (List.map treeEntry) := by
  induction sources generalizing fields with
  | nil => rfl
  | cons m sources ih =>
    rw [List.map_cons]
    by_cases h : m.isTagged = true
    · -- what is tagged is no source, whatever it is
      obtain ⟨tag, htree⟩ := tree_of_tagged h
      rw [htree]
      cases m <;>
      · rw [absorbAll, if_pos h]
        rfl
    · rw [tree_of_not_tagged h]
      cases m with
      | scalar p t ht =>
        rw [absorbAll, if_neg h]
        cases t with
        | sequence | mapping | tagged => exact ht.elim
        | _ => rfl
      | sequence p items =>
        rw [absorbAll, if_neg h]
        rfl
      | mapping p source =>
        rw [absorbAll, if_neg h, content, treeFields_eq, Yaml.absorbAll, absorb_tree, ih]

/-- **A merge** takes over the same entries, or is the same error. -/
theorem mergeFields_tree (fields : Fields) :
    Yaml.mergeFields (fields.map treeEntry)
      = (mergeFields fields).map (List.map treeEntry) := by
  rw [Yaml.mergeFields, mergeFields, takeMergeKey_tree]
  rcases takeMergeKey fields with _ | ⟨m, others⟩
  · rfl
  · rw [Option.map_some]
    dsimp only
    by_cases h : m.isTagged = true
    · -- what is tagged is no source, whatever it is
      obtain ⟨tag, htree⟩ := tree_of_tagged h
      rw [if_pos h, htree]
      rfl
    · rw [if_neg h, tree_of_not_tagged h]
      cases m with
      | scalar p t ht =>
        cases t with
        | sequence | mapping | tagged => exact ht.elim
        | _ => rfl
      | sequence p items =>
        rw [content, treeItems_eq]
        exact absorbAll_tree others items
      | mapping p source =>
        rw [content, treeFields_eq]
        exact congrArg Except.ok (absorb_tree others source)

/-! ### A height that is enough

What resolves the merge keys of a tree is given a height, and one that is at least the size of the
tree is as good as any greater one.
-/

/-- A function that is the same for each item, up to what is made of its result, is so for all of
    them from the last on. -/
theorem eachFromLast_map {α β α' β' ε : Type} {f : α' → Except ε β'} {g : α → Except ε β}
    {a : α → α'} {b : β → β'} {xs : List α} (h : ∀ x ∈ xs, f (a x) = (g x).map b) :
    eachFromLast f (xs.map a) = (eachFromLast g xs).map (List.map b) := by
  induction xs with
  | nil => rfl
  | cons x xs ih =>
    obtain ⟨hx, hxs⟩ := List.forall_mem_cons.mp h
    rw [List.map_cons, eachFromLast, eachFromLast, ih hxs, hx]
    cases eachFromLast g xs with
    | error e => rfl
    | ok ys => cases g x <;> rfl

/-- Functions that are the same for each item are so for all of them from the last on. -/
theorem eachFromLast_congr {α β ε : Type} {f g : α → Except ε β} {xs : List α}
    (h : ∀ x ∈ xs, f x = g x) : eachFromLast f xs = eachFromLast g xs := by
  induction xs with
  | nil => rfl
  | cons x xs ih =>
    obtain ⟨hx, hxs⟩ := List.forall_mem_cons.mp h
    rw [eachFromLast, eachFromLast, ih hxs, hx]

/-- **A height that is enough** leaves nothing to do for a greater one. The values of a mapping
    are smaller than it even after a merge, since a merge makes no value that was not there
    (`size_merged`). -/
theorem mergeKeysWithin_succ {height : Nat} {t : Tree} (h : t.size ≤ height) :
    t.mergeKeysWithin (height + 1) = t.mergeKeysWithin height := by
  induction height generalizing t with
  | zero => cases t <;> simp [Tree.size] at h
  | succ height ih =>
    cases t with
    | sequence items =>
      rw [Tree.size] at h
      have hitems : eachFromLast (Tree.mergeKeysWithin (height + 1)) items
          = eachFromLast (Tree.mergeKeysWithin height) items :=
        eachFromLast_congr fun t ht => ih ((size_le_sizeItems ht).trans (by omega))
      rw [Tree.mergeKeysWithin, hitems]
      rfl
    | mapping fields =>
      rw [Tree.mergeKeysWithin, Tree.mergeKeysWithin]
      refine bind_congr_of_ok fun merged hmerged => ?_
      rw [eachFromLast_congr fun e he => ?_]
      have hle := size_merged hmerged he
      show (Tree.mergeKeysWithin _ e.2).map _ = (Tree.mergeKeysWithin _ e.2).map _
      rw [ih (by omega)]
    | tagged tag content =>
      rw [Tree.size] at h
      rw [Tree.mergeKeysWithin, ih (by omega)]
      rfl
    | _ => rfl

/-- A tree is no larger than it is within a tag. -/
theorem size_le_wrap (p : Properties) (t : Tree) : t.size ≤ (p.wrap t).size := by
  unfold Properties.wrap
  split
  · rw [Tree.size]
    omega
  · exact Nat.le_refl _

/-- The tree within a tag is merged as it is without it. The tag costs one of the height, which
    is why a greater height must change nothing. -/
theorem mergeKeysWithin_wrap {height : Nat} (p : Properties) {t : Tree}
    (h : (p.wrap t).size ≤ height) :
    (p.wrap t).mergeKeysWithin height = (t.mergeKeysWithin height).map p.wrap := by
  by_cases hp : p.ownTag?.isSome = true
  · obtain ⟨tag, htag⟩ := Option.isSome_iff_exists.mp hp
    have hwrap : p.wrap = Tree.tagged tag := by
      funext t
      rw [Properties.wrap, htag]
    rw [hwrap] at h ⊢
    rw [Tree.size] at h
    cases height with
    | zero => omega
    | succ height => rw [Tree.mergeKeysWithin, mergeKeysWithin_succ (by omega)]
  · have hwrap : p.wrap = id := by
      funext t
      rw [Properties.wrap, Option.not_isSome_iff_eq_none.mp hp, id]
    -- no tag stands around the tree
    rw [hwrap, id]
    cases t.mergeKeysWithin height <;> rfl

/-! ### What is merged -/

/-- Resolves the merge keys of the value of an entry. -/
def mergeValue (height : Nat) (e : Tree × Tree) : Except MergeError (Tree × Tree) :=
  (e.2.mergeKeysWithin height).map (Prod.mk e.1)

/-- Resolves the merge keys of the value of a marked entry. -/
def mergeEntry (height : Nat) (e : Marked × Marked) : Except MergeError (Marked × Marked) :=
  (e.2.mergeKeysWithin height).map (Prod.mk e.1)

/-- A mapping is merged, and then its values are. -/
theorem mergeKeysWithin_mapping (height : Nat) (fields : Yaml.Fields) :
    Tree.mergeKeysWithin (height + 1) (.mapping fields)
      = Yaml.mergeFields fields >>= fun merged =>
        (eachFromLast (mergeValue height) merged).map .mapping :=
  rfl

/-- A marked mapping is merged, and then its values are. -/
theorem mergeKeysWithin_fields (height : Nat) (p : Properties) (fields : Fields) :
    mergeKeysWithin (height + 1) (.mapping p fields)
      = mergeFields fields >>= fun merged =>
        (eachFromLast (mergeEntry height) merged).map (.mapping p) :=
  rfl

/-- The items of a sequence are smaller than it, whatever tag it has. -/
theorem size_tree_of_item {height : Nat} {p : Properties} {items : List Marked} {m : Marked}
    (h : (sequence p items).tree.size ≤ height + 1) (hm : m ∈ items) : m.tree.size ≤ height := by
  have hwrap := size_le_wrap p (.sequence (treeItems items))
  have hitem : m.tree.size ≤ Tree.sizeItems (treeItems items) := by
    rw [treeItems_eq]
    exact size_le_sizeItems (List.mem_map_of_mem hm)
  rw [tree] at h
  rw [Tree.size] at hwrap
  omega

/-- The values of a mapping are smaller than it, also after a merge. -/
theorem size_tree_of_merged {height : Nat} {p : Properties} {fields merged : Fields}
    {e : Marked × Marked} (h : (mapping p fields).tree.size ≤ height + 1)
    (hmerged : mergeFields fields = .ok merged) (he : e ∈ merged) : e.2.tree.size ≤ height := by
  have hmerged' : Yaml.mergeFields (treeFields fields) = .ok (merged.map treeEntry) := by
    rw [treeFields_eq, mergeFields_tree, hmerged]
    rfl
  have hle : e.2.tree.size < (Tree.mapping (treeFields fields)).size :=
    size_merged hmerged' (List.mem_map_of_mem he)
  have hwrap := size_le_wrap p (.mapping (treeFields fields))
  rw [tree] at h
  omega

/-- **What is merged** is the tree of what is merged with all properties, if the height is enough
    for the tree. The induction is on the height; that it is enough for the parts is
    `size_tree_of_item` and `size_tree_of_merged`. -/
theorem mergeKeysWithin_tree {height : Nat} {m : Marked} (h : m.tree.size ≤ height) :
    m.tree.mergeKeysWithin height = (m.mergeKeysWithin height).map tree := by
  induction height generalizing m with
  | zero => rfl
  | succ height ih =>
    cases m with
    | scalar p t ht =>
      rw [tree, mergeKeysWithin_wrap p h]
      cases t with
      | sequence | mapping | tagged => exact ht.elim
      | _ => rfl
    | sequence p items =>
      have hitems : eachFromLast (Tree.mergeKeysWithin height) (items.map tree)
          = (eachFromLast (mergeKeysWithin height) items).map (List.map tree) :=
        eachFromLast_map fun m hm => ih (size_tree_of_item h hm)
      rw [tree, mergeKeysWithin_wrap p h, Tree.mergeKeysWithin, treeItems_eq, hitems,
        mergeKeysWithin]
      cases eachFromLast (mergeKeysWithin height) items with
      | error e => rfl
      | ok items' =>
        show Except.ok (p.wrap (.sequence (items'.map tree))) = _
        rw [← treeItems_eq]
        rfl
    | mapping p fields =>
      -- each value of a merged mapping, by the induction
      have hentry : ∀ merged, mergeFields fields = .ok merged → ∀ e ∈ merged,
          mergeValue height (treeEntry e) = (mergeEntry height e).map treeEntry := by
        intro merged hmerged e he
        rw [mergeValue, mergeEntry, treeEntry, ih (size_tree_of_merged h hmerged he)]
        cases e.2.mergeKeysWithin height <;> rfl
      rw [tree, mergeKeysWithin_wrap p h, mergeKeysWithin_mapping, mergeKeysWithin_fields,
        treeFields_eq, mergeFields_tree]
      cases hmerged : mergeFields fields with
      | error e => rfl
      | ok merged =>
        show ((eachFromLast (mergeValue height) (merged.map treeEntry)).map Tree.mapping).map p.wrap
          = ((eachFromLast (mergeEntry height) merged).map (Marked.mapping p)).map tree
        rw [eachFromLast_map (hentry merged hmerged)]
        cases eachFromLast (mergeEntry height) merged with
        | error e => rfl
        | ok fields' =>
          show Except.ok (p.wrap (.mapping (fields'.map treeEntry))) = _
          rw [← treeFields_eq]
          rfl

/-- **What is merged** of a tree is the tree of what is merged with all properties. -/
theorem mergeKeys_tree (m : Marked) : m.tree.mergeKeys = m.mergeKeys.map tree :=
  mergeKeysWithin_tree (Nat.le_refl _)

end Marked

end SchemaEmbed.Yaml
