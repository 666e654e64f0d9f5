import Mathlib.Data.List.DropRight
import SchemaEmbed.Format.Builtin
import SchemaEmbed.Proofs.Location
import SchemaEmbed.Proofs.Yaml.Tags

namespace SchemaEmbed.Yaml

/-!
# The first tag of a tree

A tag that is not one of the core schema cannot be kept when a document is written again, so that a
text with such a tag is refused. The message names the tag and its location, and the tags are
looked for in the merged tree, also in keys.

* `Names` — how a location shows a key: a string as it is, any other key by its text without white
  space at the end;
* `Tree.Occurs` — where trees occur in a tree: as items, as values, in keys, and in tagged trees;
* `Tree.nodes` — the same in document order, a key before its value;
* `findTag_eq` — **the search** finds the first tagged tree in this order, with its location;
* `findTag_finds_first` — so that no text with a tagged tree in it is converted.
-/

open Location (behind first? firstAt? follow)

/-! ### Keys in locations

The message shows a location as a path, and a key in it by a text. That text is made by the writer
of documents, which ends every document with a break, and loses the white space at its end.
-/

/-- How a location shows a key: a string by itself, another key by its text up to the white space
    at its end. A key that cannot be written is not shown. -/
inductive Names : Tree → String → Prop
  | string (s) : Names (.string s) s
  | text {t name blanks} (hstring : ∀ s, t ≠ .string s) (hwritable : t.isWritable = true)
    (htext : t.chars = name.toList ++ blanks) (hblanks : ∀ c ∈ blanks, Text.isWhiteSpace c = true)
    (hlast : ∀ c ∈ name.toList.getLast?, Text.isWhiteSpace c = false) : Names t name
  | unwritable {t} (hwritable : t.isWritable = false) : Names t ""

/-- White space behind the last other character of a text is cut off. -/
theorem trimEnd_append {body blanks : List Char}
    (hblanks : ∀ c ∈ blanks, Text.isWhiteSpace c = true)
    (hlast : ∀ c ∈ body.getLast?, Text.isWhiteSpace c = false) :
    Text.trimEnd (body ++ blanks) = body := by
  have hreverse : ∀ c ∈ blanks.reverse, Text.isWhiteSpace c = true := fun c hc =>
    hblanks c (List.mem_reverse.mp hc)
  rw [Text.trimEnd, List.reverse_append, Text.trimStart, List.dropWhile_append_of_pos hreverse,
    List.reverse_eq_iff]
  cases hbody : body.reverse with
  | nil => rfl
  | cons c rest =>
    have hc := hlast c (by rw [List.getLast?_eq_head?_reverse, hbody]; rfl)
    rw [List.dropWhile_cons_of_neg (by rw [hc]; decide)]

/-- What is cut off from the end of a text is white space, and what is left ends with another
    character. So the text without its end can be described, and not only computed. -/
theorem exists_trimEnd (s : List Char) : ∃ blanks, s = Text.trimEnd s ++ blanks
    ∧ (∀ c ∈ blanks, Text.isWhiteSpace c = true)
    ∧ ∀ c ∈ (Text.trimEnd s).getLast?, Text.isWhiteSpace c = false := by
  refine ⟨(s.reverse.takeWhile Text.isWhiteSpace).reverse, ?_, fun c hc => ?_, fun c hc => ?_⟩
  · rw [Text.trimEnd, Text.trimStart, ← List.reverse_append, List.takeWhile_append_dropWhile,
      List.reverse_reverse]
  · exact List.mem_takeWhile_imp (List.mem_reverse.mp hc)
  · rw [Text.trimEnd, List.getLast?_reverse, Option.mem_def] at hc
    have hhead := List.head?_dropWhile_not Text.isWhiteSpace s.reverse
    rw [← Text.trimStart, hc] at hhead
    exact hhead

/-- A key that is no string is shown by its text, if it has one. The writer refuses a tag around
    a tag, and a key with one in it is not shown. -/
theorem keyText_of_not_string {t : Tree} (h : ∀ s, t ≠ .string s) :
    keyText t = if t.isWritable then String.ofList (Text.trimEnd t.chars) else "" := by
  cases t with
  | string s => exact absurd rfl (h s)
  | _ => rfl

/-- **A key** is shown by its text in locations: the relation and the function are the same. -/
theorem names_iff {t : Tree} {name : String} : Names t name ↔ keyText t = name := by
  constructor
  · rintro (_ | ⟨hstring, hwritable, htext, hblanks, hlast⟩ | hwritable)
    · rfl
    · rw [keyText_of_not_string hstring, if_pos hwritable, htext, trimEnd_append hblanks hlast,
        String.ofList_toList]
    · have hstring : ∀ s, t ≠ .string s := by
        rintro s rfl
        cases hwritable
      rw [keyText_of_not_string hstring, hwritable]
      rfl
  · -- the text of a key names it, in the way that its kind has
    rintro rfl
    by_cases hstring : ∃ s, t = .string s
    · obtain ⟨s, rfl⟩ := hstring
      exact .string s
    · have hstring : ∀ s, t ≠ .string s := fun s hs => hstring ⟨s, hs⟩
      rw [keyText_of_not_string hstring]
      cases hwritable : t.isWritable with
      | false => exact .unwritable hwritable
      | true =>
        obtain ⟨blanks, htext, hblanks, hlast⟩ := exists_trimEnd t.chars
        rw [if_pos rfl]
        exact .text hstring hwritable (by rwa [String.toList_ofList]) hblanks
          (by rwa [String.toList_ofList])

/-! ### Where trees occur

A location is made of steps from the root, one for each collection that is entered; a tag around a
tree is no step of its own. Document order is defined once more as a list, which has every tree
that occurs, and the search is compared with that list.
-/

/-- Whether a tree occurs in another one, where steps lead from the root: at the root, among the
    items of a sequence, in a key or a value of a mapping, or with a tag around it. -/
inductive Tree.Occurs : Tree → List Location.Step → Tree → Prop
  | root {t} : Occurs t [] t
  | item {items i item steps t} (hi : items[i]? = some item) (h : Occurs item steps t) :
    Occurs (.sequence items) (.item i :: steps) t
  | key {fields k v name steps t} (he : (k, v) ∈ fields) (hname : Names k name)
    (h : Occurs k steps t) : Occurs (.mapping fields) (.entry name :: steps) t
  | value {fields k v name steps t} (he : (k, v) ∈ fields) (hname : Names k name)
    (h : Occurs v steps t) : Occurs (.mapping fields) (.entry name :: steps) t
  | content {tag content steps t} (h : Occurs content steps t) :
    Occurs (.tagged tag content) steps t

mutual

/-- The trees that occur in a tree in document order, each with the steps that lead to it: a tree
    comes before what is inside it, and a key before its value. -/
def Tree.nodes : Tree → List (List Location.Step × Tree)
  | .sequence items => ([], .sequence items) :: Tree.nodesOfItems 0 items
  | .mapping fields => ([], .mapping fields) :: Tree.nodesOfEntries fields
  | .tagged tag content => ([], .tagged tag content) :: content.nodes
  | t => [([], t)]

/-- The trees that occur in the items of a sequence, whose indices are counted from the one that
    is given. -/
def Tree.nodesOfItems (index : Nat) : List Tree → List (List Location.Step × Tree)
  | [] => []
  | t :: rest => behind (.item index) t.nodes ++ Tree.nodesOfItems (index + 1) rest

/-- The trees that occur in the entries of a mapping, in a key and then in its value, both behind
    the key. -/
def Tree.nodesOfEntries : List (Tree × Tree) → List (List Location.Step × Tree)
  | [] => []
  | (k, v) :: rest =>
    behind (.entry (keyText k)) k.nodes
      ++ (behind (.entry (keyText k)) v.nodes ++ Tree.nodesOfEntries rest)

end

/-- What occurs behind a step occurs where the other steps lead, after this one. -/
theorem mem_behind {step : Location.Step} {nodes : List (List Location.Step × Tree)}
    {n : List Location.Step × Tree} :
    n ∈ behind step nodes ↔ ∃ steps, n.1 = step :: steps ∧ (steps, n.2) ∈ nodes := by
  rw [behind, List.mem_map]
  constructor
  · rintro ⟨⟨steps, t⟩, hm, rfl⟩
    exact ⟨steps, rfl, hm⟩
  · rintro ⟨steps, hsteps, hm⟩
    exact ⟨_, hm, Prod.ext hsteps.symm rfl⟩

mutual

/-- **What occurs in a tree** are its nodes, with the steps that lead to them. The recursion is
    on the tree, and both directions are by the cases of `Tree.Occurs`. -/
theorem mem_nodes : ∀ {t u : Tree} {steps : List Location.Step},
    (steps, u) ∈ t.nodes ↔ t.Occurs steps u
  | .null, u, steps | .bool _, u, steps | .number _, u, steps | .string _, u, steps => by
    rw [Tree.nodes, List.mem_singleton, Prod.mk.injEq]
    · constructor
      · rintro ⟨rfl, rfl⟩
        exact .root
      · rintro ⟨⟩
        exact ⟨rfl, rfl⟩
    all_goals nofun
  | .tagged tag content, u, steps => by
    rw [Tree.nodes, List.mem_cons, mem_nodes, Prod.mk.injEq]
    constructor
    · rintro (⟨rfl, rfl⟩ | h)
      · exact .root
      · exact .content h
    · rintro (_ | _ | _ | _ | h)
      · exact .inl ⟨rfl, rfl⟩
      · exact .inr h
  | .sequence items, u, steps => by
    rw [Tree.nodes, List.mem_cons, mem_nodesOfItems, Prod.mk.injEq]
    constructor
    · rintro (⟨rfl, rfl⟩ | ⟨i, item, rest, hi, rfl, h⟩)
      · exact .root
      · rw [Nat.zero_add]
        exact .item hi h
    · rintro (_ | ⟨hi, h⟩)
      · exact .inl ⟨rfl, rfl⟩
      · exact .inr ⟨_, _, _, hi, by rw [Nat.zero_add], h⟩
  | .mapping fields, u, steps => by
    rw [Tree.nodes, List.mem_cons, mem_nodesOfEntries, Prod.mk.injEq]
    constructor
    · rintro (⟨rfl, rfl⟩ | ⟨k, v, rest, he, rfl, h | h⟩)
      · exact .root
      · exact .key he (names_iff.mpr rfl) h
      · exact .value he (names_iff.mpr rfl) h
    · rintro (_ | _ | ⟨he, hname, h⟩ | ⟨he, hname, h⟩)
      · exact .inl ⟨rfl, rfl⟩
      · exact .inr ⟨_, _, _, he, by rw [names_iff.mp hname], .inl h⟩
      · exact .inr ⟨_, _, _, he, by rw [names_iff.mp hname], .inr h⟩

/-- What occurs in the items of a sequence occurs in one of them, behind its index. -/
theorem mem_nodesOfItems : ∀ {items : List Tree} {index : Nat} {u : Tree}
    {steps : List Location.Step}, (steps, u) ∈ Tree.nodesOfItems index items
      ↔ ∃ i item rest, items[i]? = some item
      ∧ steps = .item (index + i) :: rest ∧ item.Occurs rest u
  | [], _, _, _ => by simp [Tree.nodesOfItems]
  | t :: items, index, u, steps => by
    rw [Tree.nodesOfItems, List.mem_append, mem_behind, mem_nodesOfItems]
    simp only [mem_nodes]
    constructor
    · rintro (⟨rest, rfl, h⟩ | ⟨i, item, rest, hi, rfl, h⟩)
      · exact ⟨0, t, rest, rfl, rfl, h⟩
      · exact ⟨i + 1, item, rest, hi, by rw [Nat.add_right_comm, Nat.add_assoc], h⟩
    · rintro ⟨i, item, rest, hi, rfl, h⟩
      -- the item is the first one, or one of the others with an index that is one less
      cases i with
      | zero => cases hi; exact .inl ⟨rest, rfl, h⟩
      | succ i => exact .inr ⟨i, item, rest, hi, by rw [Nat.add_right_comm, Nat.add_assoc], h⟩

/-- What occurs in the entries of a mapping occurs in a key or in its value, behind the key. -/
theorem mem_nodesOfEntries : ∀ {fields : Fields} {u : Tree} {steps : List Location.Step},
    (steps, u) ∈ Tree.nodesOfEntries fields ↔ ∃ k v rest, (k, v) ∈ fields
      ∧ steps = .entry (keyText k) :: rest ∧ (k.Occurs rest u ∨ v.Occurs rest u)
  | [], _, _ => by simp [Tree.nodesOfEntries]
  | (k, v) :: fields, u, steps => by
    rw [Tree.nodesOfEntries, List.mem_append, List.mem_append, mem_behind, mem_behind,
      mem_nodesOfEntries]
    simp only [mem_nodes]
    constructor
    · rintro (⟨rest, rfl, h⟩ | ⟨rest, rfl, h⟩ | ⟨k', v', rest, he, rfl, h⟩)
      · exact ⟨k, v, rest, List.mem_cons_self, rfl, .inl h⟩
      · exact ⟨k, v, rest, List.mem_cons_self, rfl, .inr h⟩
      · exact ⟨k', v', rest, List.mem_cons_of_mem _ he, rfl, h⟩
    · rintro ⟨k', v', rest, he, rfl, h⟩
      rcases List.mem_cons.mp he with heq | he
      · cases heq
        exact h.elim (fun h => .inl ⟨rest, rfl, h⟩) fun h => .inr (.inl ⟨rest, rfl, h⟩)
      · exact .inr (.inr ⟨k', v', rest, he, rfl, h⟩)

end

/-! ### The search

The search is a recursion that stops at the first tag. It is the first tagged tree of a list once
for a tree, once for items and once for entries, where the location grows along with the steps.
-/

/-- The tag around a tree, if there is one; tags further in do not count here. -/
def tagOf? : Tree → Option String
  | .tagged tag _ => some tag
  | _ => none

mutual

/-- **The search** finds the first tagged tree, at the location that it was given and the steps
    from there. -/
theorem findTag_eq : ∀ (t : Tree) (location : String),
    t.findTag location = firstAt? tagOf? Finding.mk location t.nodes
  | .null, _ | .bool _, _ | .number _, _ | .string _, _ | .tagged .., _ => rfl
  | .sequence items, location => findTagInItems_eq items location 0
  | .mapping fields, location => findTagInEntries_eq fields location

/-- The search in items finds the first tagged tree among those that occur in them. -/
theorem findTagInItems_eq : ∀ (items : List Tree) (location : String) (index : Nat),
    Tree.findTagInItems location index items
      = firstAt? tagOf? Finding.mk location (Tree.nodesOfItems index items)
  | [], _, _ => rfl
  | t :: rest, location, index => by
    rw [Tree.findTagInItems, Tree.nodesOfItems, Location.firstAt?_append fun _ => rfl,
      findTag_eq t, findTagInItems_eq rest]

/-- The search in entries finds the first tagged tree among those that occur in them. -/
theorem findTagInEntries_eq : ∀ (fields : Fields) (location : String),
    Tree.findTagInEntries location fields
      = firstAt? tagOf? Finding.mk location (Tree.nodesOfEntries fields)
  | [], _ => rfl
  | (k, v) :: rest, location => by
    rw [Tree.findTagInEntries, Tree.nodesOfEntries, Location.firstAt?_append fun _ => rfl,
      Location.firstAt?_append fun _ => rfl, findTag_eq k, findTag_eq v, findTagInEntries_eq rest,
      Option.or_assoc]

end

/-- A tree with a tag around it is a tagged one. -/
theorem tagOf_eq_some_iff {t : Tree} {tag : String} :
    tagOf? t = some tag ↔ ∃ content, t = .tagged tag content := by
  cases t <;> simp [tagOf?]

/-- A tree without a tag around it is no tagged one. -/
theorem tagOf_eq_none_iff {t : Tree} :
    tagOf? t = none ↔ ∀ tag content, t ≠ .tagged tag content := by
  cases t <;> simp [tagOf?]

/-- **Nothing is found** exactly if no tagged tree occurs, wherever the search has begun. -/
theorem findTag_eq_none_iff_occurs {t : Tree} {location : String} : t.findTag location = none ↔
    ∀ steps tag content, ¬ t.Occurs steps (.tagged tag content) := by
  rw [findTag_eq, firstAt?, Option.map_eq_none_iff, Location.first?_eq_none_iff]
  simp only [tagOf_eq_none_iff]
  constructor
  · intro h steps tag content hoccurs
    exact h _ (mem_nodes.mpr hoccurs) tag content rfl
  · rintro h ⟨steps, u⟩ hn tag content rfl
    exact h steps tag content (mem_nodes.mp hn)

/-- **What is found** is the first tagged tree in document order: all trees before it are without
    a tag, and the location is made of the steps to it. -/
theorem findTag_eq_some_iff {t : Tree} {location : String} {f : Finding} :
    t.findTag location = some f ↔ ∃ before steps content after,
      t.nodes = before ++ (steps, .tagged f.tag content) :: after
        ∧ (∀ n ∈ before, ∀ tag content, n.2 ≠ .tagged tag content)
        ∧ f.location = follow location steps := by
  rw [findTag_eq, firstAt?, Option.map_eq_some_iff]
  simp only [Prod.exists, Location.first?_eq_some_iff, tagOf_eq_some_iff, tagOf_eq_none_iff]
  constructor
  · rintro ⟨steps, tag, ⟨before, u, after, hnodes, ⟨content, rfl⟩, hbefore⟩, rfl⟩
    exact ⟨before, steps, content, after, hnodes, hbefore, rfl⟩
  · rintro ⟨before, steps, content, after, hnodes, hbefore, hlocation⟩
    refine ⟨steps, f.tag, ⟨before, _, after, hnodes, ⟨content, rfl⟩, hbefore⟩, ?_⟩
    rw [← hlocation]

/-- **The search for a tag** finds nothing in a tree exactly if no tagged tree occurs in it, and
    otherwise the first one in document order, with the location that the steps to it make.  So a
    text is not converted if a tagged tree occurs in what it loads as, after merging; the message
    names the first one. -/
theorem findTag_finds_first (t : Tree) :
    (∀ steps u, (steps, u) ∈ t.nodes ↔ t.Occurs steps u)
    ∧ (∀ location, t.findTag location = none ↔
      ∀ steps tag content, ¬ t.Occurs steps (.tagged tag content))
    ∧ (∀ location f, t.findTag location = some f ↔ ∃ before steps content after,
      t.nodes = before ++ (steps, .tagged f.tag content) :: after
        ∧ (∀ n ∈ before, ∀ tag content, n.2 ≠ .tagged tag content)
        ∧ f.location = follow location steps)
    ∧ ∀ path text loaded, load text = .ok loaded → loaded.mergeKeys = .ok t →
      (∀ v, Format.yaml.parseAt path text = .ok v →
        t.toValue = .ok v ∧ ∀ steps tag content, ¬ t.Occurs steps (.tagged tag content))
      ∧ ∀ steps tag content, t.Occurs steps (.tagged tag content) → ∃ f, t.findTag "" = some f
        ∧ Format.yaml.parseAt path text = .error (.parseFailed path "yaml" f.message) := by
  refine ⟨fun _ _ => mem_nodes, fun _ => findTag_eq_none_iff_occurs, fun _ _ => findTag_eq_some_iff,
    fun path text loaded hload hmerge => ⟨fun v hv => ?_, fun steps tag content hoccurs => ?_⟩⟩
  · obtain ⟨s, s', hs, hs', htag, hvalue⟩ := parse_eq_ok_iff.mp (mapError_eq_ok_iff.mp hv)
    cases hload.symm.trans hs
    cases hmerge.symm.trans hs'
    exact ⟨hvalue, findTag_eq_none_iff_occurs.mp htag⟩
  · have hsome : t.findTag "" ≠ none := fun hnone =>
      findTag_eq_none_iff_occurs.mp hnone steps tag content hoccurs
    obtain ⟨f, hf⟩ := Option.ne_none_iff_exists'.mp hsome
    -- the message is made of what the search found
    have hread : read text = .error (.tag f) := by
      rw [read, hload, mapError_ok, ok_bind, Tree.resolve, hmerge, mapError_ok, ok_bind, hf]
      rfl
    exact ⟨f, hf, mapError_eq_error_iff.mpr ⟨_, mapError_eq_error_iff.mpr ⟨_, hread, rfl⟩, rfl⟩⟩

/-- A scalar with a tag of the document's own. -/
def ownScalar (Ref : Type) (name text : String) : Node Ref :=
  .scalar ⟨none, some (.text ("!" ++ name))⟩ text .plain

/-- A mapping of which the key and the value have tags: the key comes first in document order. -/
theorem load_ownTags : load "!y k: !x b\n"
    = .ok (.mapping [(.tagged "y" (.string "k"), .tagged "x" (.string "b"))]) := by
  let root (Ref : Type) : Node Ref :=
    .mapping .empty [(ownScalar Ref "y" "k", ownScalar Ref "x" "b")]
  let tokens : List Token := [.blockMappingStart, .key, .tag "!" (.text "y"), .scalar "k" .plain,
    .value, .tag "!" (.text "x"), .scalar "b" .plain, .blockEnd, .streamEnd]
  have htokens : tokenize "!y k: !x b\n".toList = .ok tokens := by decide +kernel
  have hroot : Node.ofTokens? tokens = .ok (some (root String)) := rfl
  have hlink : (root String).link [] = .ok (root Nat, [], []) := rfl
  have hnode (links : Links) (depth : Nat) : Tree.ofNode links (depth + 1) (root Nat)
      = pure (.mapping [(.tagged "y" (.string "k"), .tagged "x" (.string "b"))]) := by
    have hkey : Tree.ofNode links depth (ownScalar Nat "y" "k")
        = pure (.tagged "y" (.string "k")) := by
      funext used
      unfold Tree.ofNode
      rfl
    have hvalue : Tree.ofNode links depth (ownScalar Nat "x" "b")
        = pure (.tagged "x" (.string "b")) := by
      funext used
      unfold Tree.ofNode
      rfl
    rw [Tree.ofNode]
    simp only [root, Links.follow, pure_bind, List.mapM_cons, List.mapM_nil, hkey, hvalue]
    rfl
  rw [load, htokens, ok_bind, hroot, ok_bind]
  show (Node.link [] (root String) >>= _) = _
  rw [hlink, ok_bind]
  show ((Tree.ofNode _ maxOpen (root Nat)).run 0 >>= _) = _
  rw [maxOpen, hnode]
  rfl

/-- Of a tag in a key and one in the value behind it, the one in the key is reported. -/
theorem findTag_finds_first_key :
    let t : Tree := .mapping [(.tagged "y" (.string "k"), .tagged "x" (.string "b"))]
    load "!y k: !x b\n" = .ok t ∧ t.mergeKeys = .ok t
      ∧ t.Occurs [.entry "!y k"] (.tagged "x" (.string "b"))
      ∧ t.findTag "" = some ⟨"y", "!y k"⟩
      ∧ Format.yaml.parseAt "doc" "!y k: !x b\n" = .error (.parseFailed "doc" "yaml"
        "tagged value `!y` at `!y k` is not supported") := by
  intro t
  have hmerge : t.mergeKeys = .ok t := rfl
  have hkey : keyText (.tagged "y" (.string "k")) = "!y k" := by decide +kernel
  have hoccurs : t.Occurs [.entry "!y k"] (.tagged "x" (.string "b")) :=
    .value List.mem_cons_self (names_iff.mpr hkey) .root
  obtain ⟨-, -, hfirst, htext⟩ := findTag_finds_first t
  obtain ⟨f, hf, hparse⟩ := (htext "doc" "!y k: !x b\n" t load_ownTags hmerge).2 _ _ _ hoccurs
  have hfind : t.findTag "" = some ⟨"y", "!y k"⟩ := by
    -- the root comes before the key, and has no tag
    refine (hfirst "" _).mpr ⟨[([], t)], [.entry "!y k"], .string "k",
      behind (.entry "!y k") (Tree.string "k").nodes
        ++ behind (.entry "!y k") (Tree.tagged "x" (.string "b")).nodes, ?_,
      List.forall_mem_singleton.mpr nofun, rfl⟩
    rw [← hkey]
    rfl
  cases hf.symm.trans hfind
  exact ⟨load_ownTags, hmerge, hoccurs, hfind, hparse⟩

end SchemaEmbed.Yaml
