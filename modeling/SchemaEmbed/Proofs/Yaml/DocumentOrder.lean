import Mathlib.Data.List.Forall2
import Mathlib.Data.List.TakeWhile
import SchemaEmbed.Proofs.Yaml.Distinct

namespace SchemaEmbed.Yaml

/-!
# Trees in the order of the document

The grammar reads tokens from first to last, and what it makes of them stands in this order:

* `Leaf` — a scalar or an alias, of which collections are made;
* `Spans` — whether the tokens that were read have certain leaves;
* `node_spans` — **a node has the leaves of its tokens**, in the order of the tokens, whichever
  part of the grammar reads them;
* `ofTokens_leaves` / `leaves_link` — so has a document, and its aliases are settled in place;
* `Means` — whether a tree has the items and entries of a node, one by one, or those of the node
  that an alias refers to;
* `load_in_order` — so **a loaded tree** stands in the order of its text.

Where a tree has an item or an entry that is not written, its text has nothing there; so such
leaves are left out on both sides. Aliases are leaves by themselves, as what they refer to was read
before.
-/

/-! ### Leaves

Tokens, nodes with names of anchors and nodes with links are compared by what they all have: their
scalars and aliases from first to last. Anchors, tags and indicators are between them and are not
leaves.
-/

/-- What collections are made of: a scalar, or an alias, whatever it refers to. -/
inductive Leaf where
  | alias
  | scalar (text : String) (style : Style)
  deriving DecidableEq, Repr

/-- The leaf of a scalar, unless it is the empty one that stands where nothing is written. A
    quoted scalar that is empty is written, and is a leaf. -/
def Leaf.ofScalar (text : String) (style : Style) : List Leaf :=
  if text = "" ∧ style = .plain then [] else [.scalar text style]

/-- The leaves of a token: that of a scalar or of an alias, and of no other. -/
def Token.leaves : Token → List Leaf
  | .alias _ => [.alias]
  | .scalar text style => Leaf.ofScalar text style
  | _ => []

mutual

/-- The leaves of a node in the order of the document. -/
def Node.leaves {Ref : Type} : Node Ref → List Leaf
  | .alias _ => [.alias]
  | .scalar _ text style => Leaf.ofScalar text style
  | .sequence _ items => Node.leavesOfItems items
  | .mapping _ entries => Node.leavesOfEntries entries

/-- The leaves of items, one after the other. -/
def Node.leavesOfItems {Ref : Type} : List (Node Ref) → List Leaf
  | [] => []
  | node :: rest => node.leaves ++ Node.leavesOfItems rest

/-- The leaves of entries, one after the other, the key before the value. -/
def Node.leavesOfEntries {Ref : Type} : List (Node Ref × Node Ref) → List Leaf
  | [] => []
  | (key, value) :: rest => key.leaves ++ value.leaves ++ Node.leavesOfEntries rest

end

/-! ### Tokens that were read

The functions of the grammar take tokens from the front and return those that are left. What one of
them has read is described by the leaves of the tokens in between, and this composes as the
functions call each other.
-/

/-- Whether these are the leaves of the tokens up to those that are left. The tokens that were
    read are said to exist and not computed, so that two such facts can be put together. -/
def Spans (ts rest : List Token) (leaves : List Leaf) : Prop :=
  ∃ read, ts = read ++ rest ∧ read.flatMap Token.leaves = leaves

namespace Spans

variable {ts mid rest : List Token} {leaves more : List Leaf}

/-- If no token was read, no leaf was. -/
theorem nil (ts : List Token) : Spans ts ts [] := ⟨[], rfl, rfl⟩

/-- Leaves that were read in two parts are those of the first part and then those of the second. -/
theorem append (h : Spans ts mid leaves) (h' : Spans mid rest more) :
    Spans ts rest (leaves ++ more) := by
  obtain ⟨read, rfl, rfl⟩ := h
  obtain ⟨read', rfl, rfl⟩ := h'
  exact ⟨read ++ read', (List.append_assoc _ _ _).symm, List.flatMap_append⟩

/-- Tokens without leaves that were read first add none. -/
theorem before (h : Spans ts mid []) (h' : Spans mid rest leaves) : Spans ts rest leaves :=
  h.append h'

/-- A token that was read first comes with its leaves before the others. -/
theorem cons (t : Token) (h : Spans ts rest leaves) :
    Spans (t :: ts) rest (t.leaves ++ leaves) := by
  obtain ⟨read, rfl, rfl⟩ := h
  exact ⟨t :: read, rfl, rfl⟩

/-- A token without leaves that was read first adds none. -/
theorem skip {t : Token} (ht : t.leaves = []) (h : Spans ts rest leaves) :
    Spans (t :: ts) rest leaves := by
  simpa [ht] using h.cons t

/-- A key that was read and then a value are the leaves of a mapping with this entry. -/
theorem entry {key value : Node String} (hkey : Spans ts mid key.leaves)
    (hvalue : Spans mid rest value.leaves) :
    Spans ts rest (Node.leaves (.mapping .empty [(key, value)] : Node String)) := by
  have hboth := hkey.append hvalue
  rwa [Node.leaves, Node.leavesOfEntries, Node.leavesOfEntries, List.append_nil]

/-- One token that was read comes with its leaves. -/
theorem single (t : Token) (ts : List Token) : Spans (t :: ts) ts t.leaves := by
  simpa using (nil ts).cons t

section Others

variable {ε : Type}

/-- An item that was read and then others are the leaves of all these items. The last hypothesis
    is how each of the functions below ends. -/
theorem items {item : Node String} {all : List (Node String)}
    {others : Except ε (List (Node String) × List Token)} (hitem : Spans ts mid item.leaves)
    (hothers : ∀ {items left}, others = .ok (items, left) →
      Spans mid left (Node.leavesOfItems items))
    (h : (others >>= fun r => .ok (item :: r.1, r.2)) = .ok (all, rest)) :
    Spans ts rest (Node.leavesOfItems all) := by
  obtain ⟨⟨items, left⟩, hread, heq⟩ := bind_eq_ok_iff.mp h
  cases heq
  exact hitem.append (hothers hread)

/-- A key and a value that were read and then other entries are the leaves of all these entries.
    This is the end of the functions on entries. -/
theorem entries {key value : Node String} {all : List (Node String × Node String)}
    {others : Except ε (List (Node String × Node String) × List Token)}
    (hentry : Spans ts mid (key.leaves ++ value.leaves))
    (hothers : ∀ {entries left}, others = .ok (entries, left) →
      Spans mid left (Node.leavesOfEntries entries))
    (h : (others >>= fun r => .ok ((key, value) :: r.1, r.2)) = .ok (all, rest)) :
    Spans ts rest (Node.leavesOfEntries all) := by
  obtain ⟨⟨entries, left⟩, hread, heq⟩ := bind_eq_ok_iff.mp h
  cases heq
  exact hentry.append (hothers hread)

end Others

end Spans

/-- Resolving a tag reads no token: the tokens that are left are those before it. -/
theorem eq_of_resolve {handles : Handles} {anchor : Option String} {handle : String}
    {suffix : TagName} {left rest : List Token} {p : Properties}
    (h : (match handles.resolve? handle suffix with
      | some tag => .ok (⟨anchor, some tag⟩, left)
      | none => misplaced "found undefined tag handle") = Except.ok (p, rest)) : left = rest := by
  split at h
  · cases h
    rfl
  · cases h

/-- Anchors and tags that are read have no leaves, in whichever order the two stand. -/
theorem properties_spans {handles : Handles} {ts rest : List Token} {p : Properties}
    (h : properties handles ts = .ok (p, rest)) : Spans ts rest [] := by
  unfold properties at h
  split at h
  · obtain rfl := eq_of_resolve h
    exact ((Spans.nil _).cons _).cons _
  · cases h
    exact (Spans.nil _).cons _
  · obtain rfl := eq_of_resolve h
    exact ((Spans.nil _).cons _).cons _
  · obtain rfl := eq_of_resolve h
    exact (Spans.nil _).cons _
  · cases h
    exact .nil _

section Flow

variable {handles : Handles} {fuel : Nat} {ts : List Token}

/-- Items after another are read as the first ones are, at their end or after a comma. With this
    the flag for the first item has to be followed only once. -/
theorem flowItems_after {r : List (Node String) × List Token}
    (h : flowItems handles (fuel + 1) false ts = .ok r) :
    flowItems handles (fuel + 1) true ts = .ok r
      ∨ ∃ after, ts = .flowEntry :: after ∧ flowItems handles (fuel + 1) true after = .ok r := by
  have hcomma (after : List Token) : flowItems handles (fuel + 1) false (.flowEntry :: after)
      = flowItems handles (fuel + 1) true after := by
    cases after with
    | nil => rfl
    | cons t after => cases t <;> rfl
  -- without a token, or with one that is neither the end nor a comma, nothing is read
  cases ts with
  | nil => cases h
  | cons t ts =>
    cases t with
    | flowSequenceEnd => exact .inl h
    | flowEntry => exact .inr ⟨ts, rfl, (hcomma ts).symm.trans h⟩
    | _ => cases h

/-- Entries after another are read as the first ones are, at their end or after a comma. -/
theorem flowEntries_after {r : List (Node String × Node String) × List Token}
    (h : flowEntries handles (fuel + 1) false ts = .ok r) :
    flowEntries handles (fuel + 1) true ts = .ok r
      ∨ ∃ after, ts = .flowEntry :: after ∧ flowEntries handles (fuel + 1) true after = .ok r := by
  have hcomma (after : List Token) : flowEntries handles (fuel + 1) false (.flowEntry :: after)
      = flowEntries handles (fuel + 1) true after := by
    cases after with
    | nil => rfl
    | cons t after => cases t <;> rfl
  -- without a token, or with one that is neither the end nor a comma, nothing is read
  cases ts with
  | nil => cases h
  | cons t ts =>
    cases t with
    | flowMappingEnd => exact .inl h
    | flowEntry => exact .inr ⟨ts, rfl, (hcomma ts).symm.trans h⟩
    | _ => cases h

end Flow

mutual

/-- **A node has the leaves of its tokens.** The recursion is that of the grammar, by its fuel,
    and each function is read in the order of its cases: what it takes from the tokens, what it
    calls with those that are left, and what it makes of both. -/
theorem node_spans {handles : Handles} : ∀ {fuel : Nat} {block dashes : Bool} {ts rest : List Token}
    {n : Node String}, node handles fuel block dashes ts = .ok (n, rest) → Spans ts rest n.leaves
  | 0, _, _, _, _, _, h => by cases h
  | fuel + 1, block, dashes, ts, rest, n, h => by
    -- an alias, or properties and then dashes, a scalar, a flow collection, a block collection,
    -- or nothing, for which an empty scalar stands
    rw [node.eq_def] at h
    dsimp only at h
    split at h
    · cases h
      exact .single _ _
    · obtain ⟨⟨p, left⟩, hp, h⟩ := bind_eq_ok_iff.mp h
      have hempty {p : Properties} : Node.leaves (.scalar p "" .plain : Node String) = [] := rfl
      refine (properties_spans hp).before ?_
      dsimp only at h
      split at h
      · split at h
        · obtain ⟨⟨items, left'⟩, hitems, h⟩ := bind_eq_ok_iff.mp h
          cases h
          exact dashItems_spans hitems
        · split at h
          · cases h
          · cases h
            exact hempty ▸ .nil _
      · cases h
        exact .single _ _
      · obtain ⟨⟨items, left'⟩, hitems, h⟩ := bind_eq_ok_iff.mp h
        cases h
        exact (flowItems_spans hitems).cons _
      · obtain ⟨⟨entries, left'⟩, hentries, h⟩ := bind_eq_ok_iff.mp h
        cases h
        exact (flowEntries_spans hentries).cons _
      · split at h
        · obtain ⟨⟨items, left'⟩, hitems, h⟩ := bind_eq_ok_iff.mp h
          cases h
          exact (blockItems_spans hitems).cons _
        · split at h
          · cases h
          · cases h
            exact hempty ▸ .nil _
      · split at h
        · obtain ⟨⟨entries, left'⟩, hentries, h⟩ := bind_eq_ok_iff.mp h
          cases h
          exact (blockEntries_spans hentries).cons _
        · split at h
          · cases h
          · cases h
            exact hempty ▸ .nil _
      · split at h
        · cases h
        · cases h
          exact hempty ▸ .nil _

/-- The items of an indented block sequence have the leaves of their tokens. After a dash there
    is an item, or the next dash or the end, and then the item is empty. -/
theorem blockItems_spans {handles : Handles} : ∀ {fuel : Nat} {ts rest : List Token}
    {items : List (Node String)}, blockItems handles fuel ts = .ok (items, rest) →
    Spans ts rest (Node.leavesOfItems items)
  | 0, _, _, _, h => by cases h
  | fuel + 1, ts, rest, items, h => by
    rw [blockItems.eq_def] at h
    dsimp only at h
    split at h
    · next tail =>
      refine Spans.skip rfl ?_
      split at h
      · exact .items (.nil _) blockItems_spans h
      · exact .items (.nil _) blockItems_spans h
      · obtain ⟨⟨item, left⟩, hnode, h⟩ := bind_eq_ok_iff.mp h
        exact .items (node_spans hnode) blockItems_spans h
    · cases h
      exact .single _ _
    · cases h

/-- The items of a block sequence whose dashes are not indented have the leaves of their tokens.
    It has no token at its end: what ends the block around it ends it too. -/
theorem dashItems_spans {handles : Handles} : ∀ {fuel : Nat} {ts rest : List Token}
    {items : List (Node String)}, dashItems handles fuel ts = .ok (items, rest) →
    Spans ts rest (Node.leavesOfItems items)
  | 0, _, _, _, h => by cases h
  | fuel + 1, ts, rest, items, h => by
    rw [dashItems.eq_def] at h
    dsimp only at h
    split at h
    · next tail =>
      refine Spans.skip rfl ?_
      split at h
      · exact .items (.nil _) dashItems_spans h
      · obtain ⟨⟨item, left⟩, hnode, h⟩ := bind_eq_ok_iff.mp h
        exact .items (node_spans hnode) dashItems_spans h
    · cases h
      exact .nil _

/-- The entries of a block mapping have the leaves of their tokens, each key before its value. -/
theorem blockEntries_spans {handles : Handles} : ∀ {fuel : Nat} {ts rest : List Token}
    {entries : List (Node String × Node String)},
    blockEntries handles fuel ts = .ok (entries, rest) →
    Spans ts rest (Node.leavesOfEntries entries)
  | 0, _, _, _, h => by cases h
  | fuel + 1, ts, rest, entries, h => by
    rw [blockEntries.eq_def] at h
    dsimp only at h
    split at h
    · next tail =>
      refine Spans.skip rfl ?_
      -- a key is read, or nothing; then a value, or nothing
      split at h
      · rw [pure_bind] at h
        dsimp only at h
        split at h
        · split at h
          · exact .entries ((Spans.nil _).cons _) blockEntries_spans h
          · obtain ⟨⟨value, left⟩, hnode, h⟩ := bind_eq_ok_iff.mp h
            exact .entries ((node_spans hnode).cons _) blockEntries_spans h
        · exact .entries (.nil _) blockEntries_spans h
      · obtain ⟨⟨key, left⟩, hkey, h⟩ := bind_eq_ok_iff.mp h
        dsimp only at h
        split at h
        · split at h
          · exact .entries ((node_spans hkey).append ((Spans.nil _).cons _)) blockEntries_spans h
          · obtain ⟨⟨value, left⟩, hnode, h⟩ := bind_eq_ok_iff.mp h
            exact .entries ((node_spans hkey).append ((node_spans hnode).cons _))
              blockEntries_spans h
        · exact .entries ((node_spans hkey).append (.nil _)) blockEntries_spans h
    · cases h
      exact .single _ _
    · cases h

/-- The items of a flow sequence have the leaves of their tokens, also if they are single
    entries. -/
theorem flowItems_spans {handles : Handles} : ∀ {fuel : Nat} {first : Bool} {ts rest : List Token}
    {items : List (Node String)}, flowItems handles fuel first ts = .ok (items, rest) →
    Spans ts rest (Node.leavesOfItems items)
  | 0, _, _, _, _, h => by cases h
  | fuel + 1, first, ts, rest, items, h => by
    -- after a key: a value, or nothing
    have hvalue {mid left : List Token} {key : Node String}
        (h : (match left with
          | .value :: after =>
            match after with
            | .flowEntry :: _ | .flowSequenceEnd :: _ =>
              flowItems handles fuel false after >>= fun r =>
                .ok (Node.mapping .empty [(key, .empty)] :: r.1, r.2)
            | _ => node handles fuel false false after >>= fun v =>
              flowItems handles fuel false v.2 >>= fun r =>
                .ok (Node.mapping .empty [(key, v.1)] :: r.1, r.2)
          | _ => flowItems handles fuel false left >>= fun r =>
              .ok (Node.mapping .empty [(key, .empty)] :: r.1, r.2)) = .ok (items, rest))
        (hspans : Spans mid left key.leaves) : Spans mid rest (Node.leavesOfItems items) := by
      split at h
      · next after =>
        split at h
        · exact .items (Spans.entry hspans (.skip rfl (.nil _))) flowItems_spans h
        · exact .items (Spans.entry hspans (.skip rfl (.nil _))) flowItems_spans h
        · obtain ⟨⟨value, left'⟩, hnode, h⟩ := bind_eq_ok_iff.mp h
          exact .items (Spans.entry hspans (.skip rfl (node_spans hnode))) flowItems_spans h
      · exact .items (Spans.entry hspans (.nil _)) flowItems_spans h
    have hfirst {mid : List Token} (h : flowItems handles (fuel + 1) true mid = .ok (items, rest)) :
        Spans mid rest (Node.leavesOfItems items) := by
      rw [flowItems.eq_def] at h
      simp only [if_pos, pure_bind] at h
      split at h
      · cases h
        exact .single _ _
      · split at h
        · cases h
          exact .single _ _
        · refine Spans.skip rfl ?_
          split at h
          · exact hvalue h (.skip rfl (.nil _))
          · exact hvalue h (.skip rfl (.nil _))
          · exact hvalue h (.skip rfl (.nil _))
          · obtain ⟨⟨key, left⟩, hkey, h⟩ := bind_eq_ok_iff.mp h
            exact hvalue h (node_spans hkey)
        · obtain ⟨⟨item, left⟩, hnode, h⟩ := bind_eq_ok_iff.mp h
          exact .items (node_spans hnode) flowItems_spans h
    -- after an item there is the end, or a comma and what may stand at the beginning
    cases first with
    | true => exact hfirst h
    | false =>
      rcases flowItems_after h with hend | ⟨after, rfl, hafter⟩
      · exact hfirst hend
      · exact (hfirst hafter).skip rfl

/-- The entries of a flow mapping have the leaves of their tokens, each key before its value. -/
theorem flowEntries_spans {handles : Handles} : ∀ {fuel : Nat} {first : Bool} {ts rest : List Token}
    {entries : List (Node String × Node String)},
    flowEntries handles fuel first ts = .ok (entries, rest) →
    Spans ts rest (Node.leavesOfEntries entries)
  | 0, _, _, _, _, h => by cases h
  | fuel + 1, first, ts, rest, entries, h => by
    -- after a key: a value, or nothing
    have hvalue {mid : List Token} (left : List Token) (key : Node String)
        (h : (match left with
          | .value :: after =>
            match after with
            | .flowEntry :: _ | .flowMappingEnd :: _ =>
              flowEntries handles fuel false after >>= fun r => .ok ((key, Node.empty) :: r.1, r.2)
            | _ => node handles fuel false false after >>= fun v =>
              flowEntries handles fuel false v.2 >>= fun r => .ok ((key, v.1) :: r.1, r.2)
          | _ =>
            flowEntries handles fuel false left >>= fun r => .ok ((key, Node.empty) :: r.1, r.2))
          = .ok (entries, rest))
        (hspans : Spans mid left key.leaves) : Spans mid rest (Node.leavesOfEntries entries) := by
      split at h
      · next after =>
        split at h
        · exact .entries (hspans.append (.skip rfl (.nil _))) flowEntries_spans h
        · exact .entries (hspans.append (.skip rfl (.nil _))) flowEntries_spans h
        · obtain ⟨⟨value, left'⟩, hnode, h⟩ := bind_eq_ok_iff.mp h
          exact .entries (hspans.append (.skip rfl (node_spans hnode))) flowEntries_spans h
      · exact .entries (hspans.append (.nil _)) flowEntries_spans h
    -- the first entry, or one after a comma
    have hfirst {mid : List Token}
        (h : flowEntries handles (fuel + 1) true mid = .ok (entries, rest)) :
        Spans mid rest (Node.leavesOfEntries entries) := by
      rw [flowEntries.eq_def] at h
      simp only [if_pos, pure_bind] at h
      split at h
      · cases h
        exact .single _ _
      · split at h
        · cases h
          exact .single _ _
        · refine Spans.skip rfl ?_
          split at h
          · next after _ => exact hvalue (.value :: after) .empty h (.nil _)
          · next after _ => exact hvalue (.flowEntry :: after) .empty h (.nil _)
          · next after _ => exact hvalue (.flowMappingEnd :: after) .empty h (.nil _)
          · obtain ⟨⟨key, left⟩, hkey, h⟩ := bind_eq_ok_iff.mp h
            exact hvalue left key h (node_spans hkey)
        · obtain ⟨⟨key, left⟩, hkey, h⟩ := bind_eq_ok_iff.mp h
          exact .entries ((node_spans hkey).append (.nil _)) flowEntries_spans h
    -- after an entry there is the end, or a comma and what may stand at the beginning
    cases first with
    | true => exact hfirst h
    | false =>
      rcases flowEntries_after h with hend | ⟨after, rfl, hafter⟩
      · exact hfirst hend
      · exact (hfirst hafter).skip rfl

end

/-- Directives that are read have no leaves. The induction is on the directives as they are read,
    with what they add for those that follow. -/
theorem directives_spans {versioned : Bool} {handles handles' : Handles} {ts rest : List Token}
    (h : directives versioned handles ts = .ok (handles', rest)) : Spans ts rest [] := by
  induction versioned, handles, ts using directives.induct with
  | case1 handles major minor ts =>
    rw [directives, if_pos rfl] at h
    cases h
  | case2 versioned handles major minor ts hversioned hsupported ih =>
    rw [directives, if_neg hversioned, if_pos hsupported] at h
    exact (ih h).skip rfl
  | case3 versioned handles major minor ts hversioned hsupported =>
    rw [directives, if_neg hversioned, if_neg hsupported] at h
    cases h
  | case4 versioned handles handle target ts hrepeated =>
    rw [directives, if_pos hrepeated] at h
    cases h
  | case5 versioned handles handle target ts hnew ih =>
    rw [directives, if_neg hnew] at h
    exact (ih h).skip rfl
  | case6 versioned handles ts hversion htag =>
    rw [directives] at h
    · cases h
      exact .nil _
    · exact hversion
    · exact htag

/-- A document that begins with directives or an indicator has the leaves of its tokens. The
    hypothesis is what is read in each of these three cases. -/
theorem explicitDocument_spans {ts rest : List Token} {root : Node String}
    (h : (directives false [] ts >>= fun d =>
      match d.2 with
      | .documentStart :: rest =>
        if endsDocument rest then .ok (.empty, rest)
        else node d.1 (grammarFuel rest) true false rest
      | _ => misplaced "did not find expected <document start>") = .ok (root, rest)) :
    Spans ts rest root.leaves := by
  obtain ⟨⟨handles, left⟩, hleft, h⟩ := bind_eq_ok_iff.mp h
  refine (directives_spans hleft).before ?_
  dsimp only at h
  split at h
  · split at h
    · cases h
      exact .skip rfl (.nil _)
    · exact (node_spans h).skip rfl
  · cases h

/-- The first document has the leaves of its tokens, however it begins. -/
theorem firstDocument_spans {ts rest : List Token} {root : Node String}
    (h : firstDocument ts = .ok (root, rest)) : Spans ts rest root.leaves := by
  unfold firstDocument at h
  split at h
  · exact explicitDocument_spans h
  · exact explicitDocument_spans h
  · exact explicitDocument_spans h
  · exact node_spans h

/-- **A document has the leaves of its tokens**, of all of them: what follows the document can
    only be indicators of its end. -/
theorem ofTokens_leaves {ts : List Token} {root : Node String}
    (h : Node.ofTokens? ts = .ok (some root)) : root.leaves = ts.flatMap Token.leaves := by
  unfold Node.ofTokens? at h
  split at h
  · cases h
  · obtain ⟨⟨root', rest⟩, hroot, h⟩ := bind_eq_ok_iff.mp h
    dsimp only at h
    split at h
    · next hend =>
      cases h
      -- after the document there are indicators of its end, and the end of the stream
      have hrest : rest.flatMap Token.leaves = [] := by
        have hmarks : ∀ t ∈ rest.takeWhile (· == .documentEnd), t.leaves = [] := fun t ht => by
          obtain rfl : t = .documentEnd := by simpa using List.mem_takeWhile_imp ht
          rfl
        rw [← List.takeWhile_append_dropWhile (p := (· == .documentEnd)) (l := rest), hend,
          List.flatMap_append, List.flatMap_eq_nil_iff.mpr hmarks]
        rfl
      obtain ⟨read, rfl, hread⟩ := firstDocument_spans hroot
      rw [List.flatMap_append, hrest, List.append_nil, hread]
    · cases h

/-! ### Aliases

Linking goes through a node once, in the order of the document, and puts a number in place of each
name. The numbers depend on what came before, the leaves do not.
-/

mutual

/-- Linking changes what aliases refer to, and leaves everything in its place. An alias remains
    one, so its leaf is the same. -/
theorem leaves_link : ∀ {anchors anchors' : Anchors} {n : Node String} {n' : Node Nat}
    {targets : Targets}, n.link anchors = .ok (n', targets, anchors') → n'.leaves = n.leaves
  | anchors, _, .alias name, _, _, h => by
    rw [Node.link] at h
    split at h
    · cases h
      rfl
    · cases h
  | _, _, .scalar _ _ _, _, _, h => by
    cases h
    rfl
  | _, _, .sequence _ items, _, _, h => by
    obtain ⟨⟨items', targets, anchors⟩, hitems, h⟩ := bind_eq_ok_iff.mp h
    cases h
    exact leaves_linkItems hitems
  | _, _, .mapping _ entries, _, _, h => by
    obtain ⟨⟨entries', targets, anchors⟩, hentries, h⟩ := bind_eq_ok_iff.mp h
    cases h
    exact leaves_linkEntries hentries

/-- Linking items leaves everything in them in its place. -/
theorem leaves_linkItems : ∀ {anchors anchors' : Anchors} {ns : List (Node String)}
    {ns' : List (Node Nat)} {targets : Targets},
    Node.linkItems anchors ns = .ok (ns', targets, anchors') →
    Node.leavesOfItems ns' = Node.leavesOfItems ns
  | _, _, [], _, _, h => by
    cases h
    rfl
  | _, _, n :: ns, _, _, h => by
    obtain ⟨⟨n', targets, anchors⟩, hn, h⟩ := bind_eq_ok_iff.mp h
    obtain ⟨⟨ns', others, anchors'⟩, hns, h⟩ := bind_eq_ok_iff.mp h
    cases h
    rw [Node.leavesOfItems, Node.leavesOfItems, leaves_link hn, leaves_linkItems hns]

/-- Linking entries leaves everything in them in its place. -/
theorem leaves_linkEntries : ∀ {anchors anchors' : Anchors} {es : List (Node String × Node String)}
    {es' : List (Node Nat × Node Nat)} {targets : Targets},
    Node.linkEntries anchors es = .ok (es', targets, anchors') →
    Node.leavesOfEntries es' = Node.leavesOfEntries es
  | _, _, [], _, _, h => by
    cases h
    rfl
  | _, _, (key, value) :: es, _, _, h => by
    obtain ⟨⟨key', keyTargets, anchors⟩, hkey, h⟩ := bind_eq_ok_iff.mp h
    obtain ⟨⟨value', valueTargets, anchors'⟩, hvalue, h⟩ := bind_eq_ok_iff.mp h
    obtain ⟨⟨es', others, anchors''⟩, hes, h⟩ := bind_eq_ok_iff.mp h
    cases h
    rw [Node.leavesOfEntries, Node.leavesOfEntries, leaves_link hkey, leaves_link hvalue,
      leaves_linkEntries hes]

end

/-! ### Trees

A node is read as a tree only where an alias to it is met or it stands itself, so that a node can
be read several times. The relation between nodes and trees is defined by the tree, in which every
alias has been replaced.
-/

/-- Whether a tree is what a node stands for, or the node that an alias refers to: a scalar is
    one scalar, and items and entries stand for each other one by one. The keys of a mapping and
    its values are compared in two lists, both in the order of the entries. -/
inductive Means (links : Links) : Node Nat → Tree → Prop
  | alias {n target t} (htarget : links.targets.find? n = some target) (h : Means links target t) :
    Means links (.alias n) t
  | scalar {p text style t} (h : Tree.ofScalar p.tag text style = .ok t) (hown : p.ownTag? = none) :
    Means links (.scalar p text style) t
  | tagged {p text style tag t} (h : Tree.ofUntagged text style = .ok t)
    (hown : p.ownTag? = some tag) : Means links (.scalar p text style) (.tagged tag t)
  | sequence {p nodes items} (h : List.Forall₂ (Means links) nodes items) :
    Means links (.sequence p nodes) (p.wrap (.sequence items))
  | mapping {p nodes} {entries : List (Tree × Tree)}
    (keys : List.Forall₂ (Means links) (nodes.map Prod.fst) (entries.map Prod.fst))
    (values : List.Forall₂ (Means links) (nodes.map Prod.snd) (entries.map Prod.snd)) :
    Means links (.mapping p nodes) (p.wrap (.mapping entries))

/-- If a reading gives something for each item of a list, what is read from the list corresponds
    to it one by one. -/
theorem Gives.forall₂ {α β : Type} {f : β → Reading α} {R : β → α → Prop} {xs : List β}
    (h : ∀ x ∈ xs, Gives (f x) (R x)) : Gives (xs.mapM f) (List.Forall₂ R xs) := by
  induction xs with
  | nil => exact .pure .nil
  | cons x xs ih =>
    obtain ⟨hx, hxs⟩ := List.forall_mem_cons.mp h
    rw [List.mapM_cons]
    exact hx.bind fun y hy => (ih hxs).bind fun ys hys => .pure (.cons hy hys)

/-- Following a node gives what an alias refers to, and every other node itself. So what stands
    for the node that is found stands for the node at hand. -/
theorem gives_follow (links : Links) (node : Node Nat) :
    Gives (links.follow node) fun target => ∀ t, Means links target t → Means links node t := by
  rcases node with n | _ | _ | _
  · rw [Links.follow]
    refine .after fun used => ?_
    split
    · exact .lift nofun
    · refine .after fun _ => ?_
      split
      · next htarget => exact .pure fun t h => .alias htarget h
      · exact .lift nofun
  · exact .pure fun t h => h
  · exact .pure fun t h => h
  · exact .pure fun t h => h

/-- What is read from a scalar, with a tag of its own or without, stands for it. -/
theorem gives_meansScalar (links : Links) (p : Properties) (text : String) (style : Style) :
    Gives (match p.ownTag? with
      | some tag => do return .tagged tag (← Tree.ofUntagged text style)
      | none => Tree.ofScalar p.tag text style : Reading Tree)
      (Means links (.scalar p text style)) := by
  split
  · next hown =>
    exact Gives.bind (.lift fun t ht => ht) fun t ht => .pure (.tagged ht hown)
  · next hown => exact .lift fun t ht => .scalar ht hown

/-- **What is read from a node** stands for it. The induction is on the depth that is left;
    without any, only scalars can be read. -/
theorem gives_means (links : Links) (depth : Nat) (node : Node Nat) :
    Gives (Tree.ofNode links depth node) (Means links node) := by
  induction depth generalizing node with
  | zero =>
    unfold Tree.ofNode
    refine (gives_follow links node).bind fun target htarget => ?_
    intro used t used' h
    apply htarget
    rcases target with _ | ⟨p, text, style⟩ | _ | _
    · cases h
    · exact gives_meansScalar links p text style used t used' h
    · cases h
    · cases h
  | succ depth ih =>
    unfold Tree.ofNode
    refine (gives_follow links node).bind fun target htarget => ?_
    intro used t used' h
    apply htarget
    rcases target with _ | ⟨p, text, style⟩ | ⟨p, items⟩ | ⟨p, entries⟩
    · cases h
    · exact gives_meansScalar links p text style used t used' h
    · have hitems : Gives (items.mapM (Tree.ofNode links depth) >>= fun ts =>
          pure (p.wrap (.sequence ts))) (Means links (.sequence p items)) :=
        (Gives.forall₂ fun node _ => ih node).bind fun ts hts => .pure (.sequence hts)
      exact hitems used t used' h
    · -- the key of an entry and then its value, by the induction
      have hentry (e : Node Nat × Node Nat) : Gives (do
          let key ← Tree.ofNode links depth e.1
          let value ← Tree.ofNode links depth e.2
          return (key, value)) fun f => Means links e.1 f.1 ∧ Means links e.2 f.2 :=
        (ih e.1).bind fun key hkey => (ih e.2).bind fun value hvalue => .pure ⟨hkey, hvalue⟩
      refine ((Gives.forall₂ fun e _ => hentry e).bind (Q := Means links (.mapping p entries))
        fun fields hfields => ?_) used t used' h
      split
      · exact .lift nofun
      · -- each entry is a pair that corresponds; here it is split into keys and values
        refine .pure (.mapping ?_ ?_)
        · rw [List.forall₂_map_left_iff, List.forall₂_map_right_iff]
          exact hfields.imp fun _ _ hef => hef.1
        · rw [List.forall₂_map_left_iff, List.forall₂_map_right_iff]
          exact hfields.imp fun _ _ hef => hef.2

/-- Whether a tree stands in the order of the tokens of a text: it is what a node means that has
    the leaves of the tokens one after the other, unless nothing is written. -/
def InTextOrder (text : String) (t : Tree) : Prop :=
  ∃ tokens, tokenize text.toList = .ok tokens
    ∧ (tokens = [.streamEnd] ∧ t = .null
      ∨ ∃ links root, root.leaves = tokens.flatMap Token.leaves ∧ Means links root t)

/-- **A loaded tree** stands in the order of the tokens of its text. The node in between is that
    of the document after linking. -/
theorem load_in_order {text : String} {t : Tree} (h : load text = .ok t) : InTextOrder text t := by
  obtain ⟨tokens, htokens, h⟩ := bind_eq_ok_iff.mp h
  obtain ⟨root?, hroot, h⟩ := bind_eq_ok_iff.mp h
  refine ⟨tokens, htokens, ?_⟩
  cases root? with
  | none =>
    cases h
    -- there is a document unless the stream ends at once
    refine .inl ⟨?_, rfl⟩
    unfold Node.ofTokens? at hroot
    split at hroot
    · rfl
    · obtain ⟨⟨root, rest⟩, -, hroot⟩ := bind_eq_ok_iff.mp hroot
      dsimp only at hroot
      split at hroot <;> cases hroot
  | some root =>
    obtain ⟨⟨linked, targets, anchors⟩, hlink, h⟩ := bind_eq_ok_iff.mp h
    obtain ⟨⟨t', used⟩, ht, h⟩ := bind_eq_ok_iff.mp h
    cases h
    exact .inr ⟨_, linked, (leaves_link hlink).trans (ofTokens_leaves hroot),
      gives_means _ _ _ 0 t used ht⟩

end SchemaEmbed.Yaml
