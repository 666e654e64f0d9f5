import SchemaEmbed.Proofs.Yaml.Collisions
import SchemaEmbed.Proofs.Yaml.Marked

namespace SchemaEmbed.Yaml

/-!
# Tags that are refused and tags that are lost

A node can have a tag of any kind, but in the tree that is read only those of the document's own
are left, which begin with an exclamation mark. The search for a tag goes through this tree, so it
cannot see the others: a text in which every tag is of another kind is read as if it had none.

* `findTag_eq_none_iff` — the search for a tag finds one if there is one;
* `TagName.IsLocal` — whether a tag begins with an exclamation mark, and so is one of the
  document's own; `resolve_isLocal_iff` — how such a tag can be written;
* `Marked.Bears` — whether a node somewhere in a marked tree has a tag of a kind;
* `Marked.read` — the marked tree of a text, after merging;
* `read_settles` — **reading** refuses a text in which a node has a tag of the document's own, and
  otherwise gives what is there without any tags.

A marked tree is a loaded tree that keeps the properties of every node; the tree itself is obtained
from it by `Marked.tree`, so both are about the same reading.
-/

/-! ### The search for a tag

The search goes through a tree in document order and stops at the first tag. Here only whether it
stops matters.
-/

/-- Whether a tree itself has no tag around it. Of what it contains nothing is said. -/
def IsUntagged : Tree → Prop
  | .tagged .. => False
  | _ => True

mutual

/-- **The search for a tag** finds nothing exactly if there is nothing to be found, at any depth.
    The location only words the result. -/
theorem findTag_eq_none_iff : ∀ {t : Tree} {location : String},
    t.findTag location = none ↔ t.Every IsUntagged
  | .null, _ | .bool _, _ | .number _, _ | .string _, _ => iff_of_true rfl trivial
  | .tagged .., _ => iff_of_false nofun fun h => h.1
  | .sequence items, location => by
    rw [Tree.findTag, findTagInItems_eq_none_iff, Tree.Every]
    exact (and_iff_right trivial).symm
  | .mapping fields, location => by
    rw [Tree.findTag, findTagInEntries_eq_none_iff, Tree.Every]
    exact (and_iff_right trivial).symm

/-- The search finds nothing in the items of a sequence exactly if there is no tag in any of
    them. -/
theorem findTagInItems_eq_none_iff : ∀ {items : List Tree} {location : String} {index : Nat},
    Tree.findTagInItems location index items = none ↔ Tree.EveryItem IsUntagged items
  | [], _, _ => iff_of_true rfl trivial
  | t :: items, location, index => by
    rw [Tree.findTagInItems, Option.or_eq_none_iff, findTag_eq_none_iff,
      findTagInItems_eq_none_iff, Tree.EveryItem]

/-- The search finds nothing in the entries of a mapping exactly if there is no tag in any of
    them, key or value. -/
theorem findTagInEntries_eq_none_iff : ∀ {fields : Fields} {location : String},
    Tree.findTagInEntries location fields = none ↔ Tree.EveryEntry IsUntagged fields
  | [], _ => iff_of_true rfl trivial
  | (k, v) :: fields, location => by
    rw [Tree.findTagInEntries, Option.or_eq_none_iff, Option.or_eq_none_iff, findTag_eq_none_iff,
      findTag_eq_none_iff, findTagInEntries_eq_none_iff, Tree.EveryEntry]

end

/-! ### Kinds of tags

A tag is written with a handle and a suffix, and the handle stands for the beginning of the tag. So
whether it begins with an exclamation mark is a question about what the handle stands for, and not
about what is written: `!!str` stands for a tag of the core schema, and `!e!t` for one of the kind
that its directive gives.
-/

/-- Whether a tag is one of the document's own: whether it begins with an exclamation mark. A tag
    whose octets are no text is none. -/
def TagName.IsLocal : TagName → Prop
  | .text name => name.toList.head? = some '!'
  | .unreadable _ => False

instance : DecidablePred TagName.IsLocal
  | .text name => inferInstanceAs (Decidable (name.toList.head? = some '!'))
  | .unreadable _ => .isFalse id

/-- The tags of the core schema, none of which is one of a document's own. -/
def coreTags : List TagName :=
  ["str", "int", "float", "bool", "null", "seq", "map"].map
    fun name => .text ("tag:yaml.org,2002:" ++ name)

/-- What the tree keeps of a tag, which is nothing unless the tag is one of the document's own. -/
def TagName.own? (τ : TagName) : Option String := (Properties.mk none (some τ)).ownTag?

/-- What the tree keeps of properties is what it keeps of their tag. -/
theorem ownTag_eq_some_iff {p : Properties} {tag : String} :
    p.ownTag? = some tag ↔ ∃ τ, p.tag = some τ ∧ τ.own? = some tag := by
  obtain ⟨anchor, τ⟩ := p
  cases τ with
  | none => exact iff_of_false nofun nofun
  | some τ =>
    refine ⟨fun h => ⟨τ, rfl, h⟩, ?_⟩
    rintro ⟨_, ⟨⟩, h⟩
    exact h

/-- The tree keeps something of properties exactly if their tag is one of the document's own. An
    anchor alone leaves nothing in the tree. -/
theorem ownTag_isSome_iff {p : Properties} :
    p.ownTag?.isSome = true ↔ ∃ τ, p.tag = some τ ∧ τ.IsLocal := by
  obtain ⟨anchor, tag⟩ := p
  rcases tag with _ | name | isLocal
  · exact iff_of_false nofun nofun
  · -- a tag that is a text, and so may begin with an exclamation mark
    unfold Properties.ownTag?
    constructor
    · intro h
      refine ⟨.text name, rfl, ?_⟩
      show name.toList.head? = some '!'
      dsimp only at h
      split at h
      · next hname => rw [hname, List.head?_cons]
      · next hname => rw [hname, List.head?_cons]
      · cases h
    · rintro ⟨_, ⟨⟩, h⟩
      obtain ⟨rest, hname⟩ := List.head?_eq_some_iff.mp h
      dsimp only
      rw [hname]
      cases rest <;> rfl
  · refine iff_of_false nofun ?_
    rintro ⟨_, ⟨⟩, h⟩
    exact h

/-- The two parts of a tag together are one of the document's own exactly if both are a text, and
    that text begins with an exclamation mark. The first part may be empty, and then it is the
    second one that begins so. -/
theorem append_isLocal_iff (target suffix : TagName) :
    (target.append suffix).IsLocal ↔ ∃ before name, target = .text before ∧ suffix = .text name
      ∧ (before ++ name).toList.head? = some '!' := by
  cases target with
  | text before =>
    cases suffix with
    | text name => simp [TagName.append, TagName.IsLocal]
    | unreadable isLocal => exact iff_of_false id fun ⟨_, _, _, hsuffix, _⟩ => nomatch hsuffix
  | unreadable isLocal => exact iff_of_false id fun ⟨_, _, htarget, _⟩ => nomatch htarget

/-- **How a tag of the document's own is written**: what its handle stands for, which is nothing
    if the tag is written out, begins together with the suffix with an exclamation mark. -/
theorem resolve_isLocal_iff {handles : Handles} {handle : String} {suffix τ : TagName}
    (h : handles.resolve? handle suffix = some τ) :
    τ.IsLocal ↔ ∃ before name, (if handle = "" then before = "" else
      handles.lookup handle = some (.text before)) ∧ suffix = .text name ∧
      (before ++ name).toList.head? = some '!' := by
  unfold Handles.resolve? at h
  by_cases hhandle : handle = ""
  · -- a tag that is written out, or an exclamation mark alone
    rw [if_pos hhandle, Option.some.injEq] at h
    rw [h]
    cases τ with
    | text name => simp [hhandle, TagName.IsLocal]
    | unreadable isLocal => exact iff_of_false id fun ⟨_, _, _, hsuffix, _⟩ => nomatch hsuffix
  · rw [if_neg hhandle] at h
    obtain ⟨target, hlookup, happend⟩ := Option.map_eq_some_iff.mp h
    rw [← happend, append_isLocal_iff]
    simp [hhandle, hlookup]

/-! ### Tags in a marked tree

Without tags of the document's own, the tree that is read is the marked tree with all properties
left out, and the search finds nothing in it. With one, the tag is around a tree somewhere, and the
search stops at it or before.
-/

namespace Marked

/-- Whether a node somewhere in a marked tree has a tag of a kind: a key, a value or an item, or
    the whole tree. -/
inductive Bears (P : TagName → Prop) : Marked → Prop
  | here {m τ} (hτ : m.properties.tag = some τ) (h : P τ) : Bears P m
  | item {p items m} (hm : m ∈ items) (h : Bears P m) : Bears P (.sequence p items)
  | key {p fields e} (he : e ∈ fields) (h : Bears P e.1) : Bears P (.mapping p fields)
  | value {p fields e} (he : e ∈ fields) (h : Bears P e.2) : Bears P (.mapping p fields)

mutual

/-- The tree that is there without any tags: every node with its content only. -/
def bare : Marked → Tree
  | .scalar _ t _ => t
  | .sequence _ items => .sequence (bareItems items)
  | .mapping _ fields => .mapping (bareFields fields)

/-- The items of a sequence without any tags. -/
def bareItems : List Marked → List Tree
  | [] => []
  | m :: items => m.bare :: bareItems items

/-- The entries of a mapping without any tags. -/
def bareFields : Fields → Yaml.Fields
  | [] => []
  | (k, v) :: fields => (k.bare, v.bare) :: bareFields fields

end

/-- Where the root has no tag of the document's own, nothing stands around the tree. -/
theorem tree_eq_content {m : Marked} (h : ¬ m.Bears TagName.IsLocal) : m.tree = m.content :=
  tree_of_not_tagged fun htagged =>
    have ⟨_, hτ, hlocal⟩ := ownTag_isSome_iff.mp htagged
    h (.here hτ hlocal)

mutual

/-- **Without a tag of the document's own** what is read is what is there without any tags. -/
theorem tree_eq_bare : ∀ {m : Marked}, ¬ m.Bears TagName.IsLocal → m.tree = m.bare
  | .scalar p t ht, h => tree_eq_content h
  | .sequence p items, h => by
    rw [tree_eq_content h, content, bare, treeItems_eq_bare fun m hm hlocal => h (.item hm hlocal)]
  | .mapping p fields, h => by
    rw [tree_eq_content h, content, bare, treeFields_eq_bare fun e he =>
      ⟨fun hlocal => h (.key he hlocal), fun hlocal => h (.value he hlocal)⟩]

/-- Items without a tag of the document's own are read as what is there without any tags. -/
theorem treeItems_eq_bare : ∀ {items : List Marked}, (∀ m ∈ items, ¬ m.Bears TagName.IsLocal) →
    treeItems items = bareItems items
  | [], _ => rfl
  | m :: items, h => by
    obtain ⟨hm, hitems⟩ := List.forall_mem_cons.mp h
    rw [treeItems, bareItems, tree_eq_bare hm, treeItems_eq_bare hitems]

/-- Entries without a tag of the document's own are read as what is there without any tags. -/
theorem treeFields_eq_bare : ∀ {fields : Fields},
    (∀ e ∈ fields, ¬ e.1.Bears TagName.IsLocal ∧ ¬ e.2.Bears TagName.IsLocal) →
    treeFields fields = bareFields fields
  | [], _ => rfl
  | (k, v) :: fields, h => by
    obtain ⟨⟨hk, hv⟩, hfields⟩ := List.forall_mem_cons.mp h
    rw [treeFields, bareFields, tree_eq_bare hk, tree_eq_bare hv, treeFields_eq_bare hfields]

end

mutual

/-- In a tree without any tags no tree has a tag around it. -/
theorem every_bare : ∀ m : Marked, m.bare.Every IsUntagged
  | .scalar _ t ht => by
    cases t with
    | sequence | mapping | tagged => exact ht.elim
    | _ => trivial
  | .sequence _ items => ⟨trivial, everyItem_bare items⟩
  | .mapping _ fields => ⟨trivial, everyEntry_bare fields⟩

/-- In items without any tags no tree has a tag around it. -/
theorem everyItem_bare : ∀ items : List Marked, Tree.EveryItem IsUntagged (bareItems items)
  | [] => trivial
  | m :: items => ⟨every_bare m, everyItem_bare items⟩

/-- In entries without any tags no tree has a tag around it. -/
theorem everyEntry_bare : ∀ fields : Fields, Tree.EveryEntry IsUntagged (bareFields fields)
  | [] => trivial
  | (k, v) :: fields => ⟨⟨every_bare k, every_bare v⟩, everyEntry_bare fields⟩

end

/-- What holds of all trees in a tree with the tag around it holds of those in the tree. -/
theorem every_of_wrap {P : Tree → Prop} {p : Properties} {t : Tree} (h : (p.wrap t).Every P) :
    t.Every P := by
  unfold Properties.wrap at h
  split at h
  · exact h.2
  · exact h

/-- If a node has a tag of the document's own, a tag stands somewhere in the tree that is read.
    The induction is on where the node is. -/
theorem not_every_of_bears {m : Marked} (h : m.Bears TagName.IsLocal) :
    ¬ m.tree.Every IsUntagged := by
  induction h with
  | @here m τ hτ hlocal =>
    intro hevery
    obtain ⟨tag, htree⟩ := tree_of_tagged (ownTag_isSome_iff.mpr ⟨τ, hτ, hlocal⟩)
    rw [htree] at hevery
    exact hevery.1
  | item hm _ ih =>
    intro hevery
    -- the item stands in the sequence, also if that has a tag around it
    have hitems := (every_of_wrap hevery).2
    rw [treeItems_eq] at hitems
    exact ih (Tree.everyItem_iff.mp hitems _ (List.mem_map_of_mem hm))
  | key he _ ih =>
    intro hevery
    have hfields := (every_of_wrap hevery).2
    rw [treeFields_eq] at hfields
    exact ih (Tree.everyEntry_iff.mp hfields _ (List.mem_map_of_mem he)).1
  | value he _ ih =>
    intro hevery
    have hfields := (every_of_wrap hevery).2
    rw [treeFields_eq] at hfields
    exact ih (Tree.everyEntry_iff.mp hfields _ (List.mem_map_of_mem he)).2

/-- **A tag is found** in the tree that is read exactly if a node has one of the document's
    own. -/
theorem findTag_tree_eq_none_iff {m : Marked} {location : String} :
    m.tree.findTag location = none ↔ ¬ m.Bears TagName.IsLocal := by
  rw [findTag_eq_none_iff]
  constructor
  · exact fun hevery hlocal => not_every_of_bears hlocal hevery
  · intro h
    rw [tree_eq_bare h]
    exact every_bare m

mutual

/-- **What is found** is the tag of a node, or what the tree keeps of it. The recursion is that
    of the search. -/
theorem bears_of_findTag : ∀ {m : Marked} {location : String} {f : Finding},
    m.tree.findTag location = some f → m.Bears fun τ => τ.own? = some f.tag
  | m, location, f, h => by
    by_cases htagged : m.isTagged = true
    · -- the tag of the root itself
      obtain ⟨tag, htag⟩ := Option.isSome_iff_exists.mp htagged
      rw [tree_eq_wrap, Properties.wrap, htag] at h
      cases h
      obtain ⟨τ, hτ, hown⟩ := ownTag_eq_some_iff.mp htag
      exact .here hτ hown
    · -- a tag further in
      rw [tree_of_not_tagged htagged] at h
      match m with
      | .scalar _ t ht =>
        cases t with
        | sequence | mapping | tagged => exact ht.elim
        | _ => cases h
      | .sequence p items =>
        obtain ⟨m, hm, hbears⟩ := bears_of_findTagInItems h
        exact .item hm hbears
      | .mapping p fields =>
        obtain ⟨e, he, hbears | hbears⟩ := bears_of_findTagInEntries h
        · exact .key he hbears
        · exact .value he hbears

/-- What is found in the items of a sequence is the tag of a node in one of them. -/
theorem bears_of_findTagInItems : ∀ {items : List Marked} {location : String} {index : Nat}
    {f : Finding}, Tree.findTagInItems location index (treeItems items) = some f →
    ∃ m ∈ items, m.Bears fun τ => τ.own? = some f.tag
  | [], _, _, _, h => by cases h
  | m :: items, _, _, _, h => by
    rcases Option.or_eq_some_iff.mp h with h | ⟨-, h⟩
    · exact ⟨m, List.mem_cons_self, bears_of_findTag h⟩
    · obtain ⟨m', hm', hbears⟩ := bears_of_findTagInItems h
      exact ⟨m', List.mem_cons_of_mem _ hm', hbears⟩

/-- What is found in the entries of a mapping is the tag of a node in one of them, in the key or
    in the value. -/
theorem bears_of_findTagInEntries : ∀ {fields : Fields} {location : String} {f : Finding},
    Tree.findTagInEntries location (treeFields fields) = some f →
    ∃ e ∈ fields, (e.1.Bears fun τ => τ.own? = some f.tag)
      ∨ e.2.Bears fun τ => τ.own? = some f.tag
  | [], _, _, h => by cases h
  | (k, v) :: fields, _, _, h => by
    rcases Option.or_eq_some_iff.mp h with h | ⟨-, h⟩
    · rcases Option.or_eq_some_iff.mp h with h | ⟨-, h⟩
      · exact ⟨(k, v), List.mem_cons_self, .inl (bears_of_findTag h)⟩
      · exact ⟨(k, v), List.mem_cons_self, .inr (bears_of_findTag h)⟩
    · obtain ⟨e, he, hbears⟩ := bears_of_findTagInEntries h
      exact ⟨e, List.mem_cons_of_mem _ he, hbears⟩

end

/-! ### Texts

What is said of marked trees is carried over to texts: a text is loaded and merged as a marked
tree, and what is read from it is the search for a tag and then the value.
-/

/-- The marked tree of a text, after merging: what a mapping took over has the tags that it had
    where it came from. -/
def read (text : String) : Except ReadError Marked := do
  let m ← (load text).mapError .syntactic
  m.mergeKeys.mapError .merge

/-- **Reading** is the search for a tag and the structured value, after what can be read with all
    properties. An error before the search is the same in both. -/
theorem read_eq (text : String) :
    Yaml.read text = read text >>= fun m =>
      match m.tree.findTag "" with
      | some f => .error (.tag f)
      | none => m.tree.toValue := by
  rw [Yaml.read, read, load_tree]
  cases load text with
  | error e => rfl
  | ok m =>
    show m.tree.resolve = (m.mergeKeys.mapError ReadError.merge >>= _)
    rw [Tree.resolve, mergeKeys_tree]
    cases m.mergeKeys <;> rfl

end Marked

/-- **Reading refuses** a text in which a node has a tag of the document's own, and otherwise
    gives what is there without any tags. -/
theorem read_settles {text : String} {m : Marked} (h : Marked.read text = .ok m) :
    (m.Bears TagName.IsLocal →
      ∃ f, (m.Bears fun τ => τ.own? = some f.tag) ∧ read text = .error (.tag f))
    ∧ (¬ m.Bears TagName.IsLocal → read text = m.bare.toValue) := by
  rw [Marked.read_eq, h, ok_bind]
  constructor
  · intro hlocal
    -- the search finds something, and what it finds is the tag of a node
    have hsome : m.tree.findTag "" ≠ none := fun hnone =>
      Marked.findTag_tree_eq_none_iff.mp hnone hlocal
    obtain ⟨f, hf⟩ := Option.ne_none_iff_exists'.mp hsome
    refine ⟨f, Marked.bears_of_findTag hf, ?_⟩
    rw [hf]
  · intro hplain
    rw [Marked.findTag_tree_eq_none_iff.mpr hplain, Marked.tree_eq_bare hplain]

namespace Marked

/-- The node of a mapping with one entry, whose value is a scalar with a tag. -/
def pairNode (Ref : Type) (τ : TagName) (text : String) : Node Ref :=
  .mapping .empty [(.scalar .empty "a" .plain, .scalar ⟨none, some τ⟩ text .plain)]

/-- The marked tree of a mapping with one entry, whose value is a string with a tag. -/
def pair (τ : TagName) (text : String) : Marked :=
  .mapping .empty [(.scalar .empty (.string "a") trivial,
    .scalar ⟨none, some τ⟩ (.string text) trivial)]

/-- The meaning of a scalar is the same at any depth. -/
theorem ofNode_scalar (links : Links) (depth : Nat) {p : Properties} {text : String} {style : Style}
    {m : Marked} (h : ofScalar p text style = .ok m) :
    ofNode links depth (.scalar p text style) = pure m := by
  funext used
  unfold ofNode
  show (ofScalar p text style >>= _) = _
  rw [h]
  rfl

/-- A text that is such a mapping is read as its marked tree: no alias is to be followed, and
    there is nothing to merge. -/
theorem read_pair {text value : String} {tokens : List Token} {τ : TagName}
    (htokens : tokenize text.toList = .ok tokens)
    (hroot : Node.ofTokens? tokens = .ok (some (pairNode String τ value)))
    (hvalue : ofScalar ⟨none, some τ⟩ value .plain
      = .ok (.scalar ⟨none, some τ⟩ (.string value) trivial)) :
    read text = .ok (pair τ value) := by
  have hlink : (pairNode String τ value).link [] = .ok (pairNode Nat τ value, [], []) := rfl
  have hnode (links : Links) (depth : Nat) :
      ofNode links (depth + 1) (pairNode Nat τ value) = pure (pair τ value) := by
    have hkey : ofScalar .empty "a" .plain = .ok (.scalar .empty (.string "a") trivial) := rfl
    rw [pairNode, ofNode]
    simp only [Links.follow, pure_bind, List.mapM_cons, List.mapM_nil,
      ofNode_scalar links depth hkey, ofNode_scalar links depth hvalue]
    rfl
  have hload : load text = .ok (pair τ value) := by
    rw [load, htokens, ok_bind, hroot, ok_bind]
    show (Node.link [] (pairNode String τ value) >>= _) = _
    rw [hlink, ok_bind]
    show ((ofNode _ maxOpen (pairNode Nat τ value)).run 0 >>= _) = _
    rw [maxOpen, hnode]
    rfl
  have hmerge : (pair τ value).mergeKeys = .ok (pair τ value) := rfl
  rw [read, hload, mapError_ok, ok_bind, hmerge]
  rfl

end Marked

end SchemaEmbed.Yaml
