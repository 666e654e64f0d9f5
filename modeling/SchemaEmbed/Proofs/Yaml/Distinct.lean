import SchemaEmbed.Proofs.Outcome
import SchemaEmbed.Yaml.Alias

namespace SchemaEmbed.Yaml

/-!
# Keys of a loaded tree

Before keys become strings they are compared as trees. Two numbers that are not equal in arithmetic
can be equal as keys, and the other way round, so that it is not obvious that this comparison is an
equivalence.

* `same_trans` / `same_self` — what equals a key equals what that key equals, so that an entry
  whose key is taken stays out whoever took it, and every key equals itself;
* `Tree.Every` — whether something holds of a tree and of all trees in it;
* `IsDistinct` — whether the keys of a mapping are different: none equals an earlier one;
* `Gives` — what holds of all that a reading can give, closed under readings in a row;
* `load_loaded` / `load_distinct` — **a loaded tree** has different keys in every mapping, and
  integers in range.
-/

/-! ### Equality of keys

Two keys are the same if they are of one kind and the same there: numbers as keys
(`sameKeyNumber`), sequences item by item, and mappings if they have equally many entries and each
of the first is among the second. Symmetry is not needed: what is asked is always whether a later
key equals an earlier one.
-/

/-- Equality of numbers as keys is transitive. An integer equals no float as a key; among floats
    the two zeros are one key, and so are all that are no numbers. -/
theorem sameKeyNumber_trans {l m n : Number} (hlm : sameKeyNumber l m = true)
    (hmn : sameKeyNumber m n = true) : sameKeyNumber l n = true := by
  cases l with
  | int i =>
    cases m with
    | int j =>
      cases n with
      | int k =>
        simpa [sameKeyNumber, Number.same] using (beq_iff_eq.mp hlm).trans (beq_iff_eq.mp hmn)
      | float z => simp [sameKeyNumber, Number.same] at hmn
    | float y => simp [sameKeyNumber, Number.same] at hlm
  | float x =>
    cases m with
    | int j => simp [sameKeyNumber, Number.same] at hlm
    | float y =>
      cases n with
      | int k => simp [sameKeyNumber, Number.same] at hmn
      | float z =>
        -- each step is one of: the same number, two zeros, two that are no numbers
        simp only [sameKeyNumber, Binary64.sameNumber, Bool.or_eq_true, Bool.and_eq_true,
          Bool.not_eq_true', decide_eq_true_eq] at hlm hmn ⊢
        rcases hlm with ⟨⟨hx, hy⟩, rfl | ⟨hzx, hzy⟩⟩ | ⟨hx, hy⟩
        · exact hmn
        · rcases hmn with ⟨⟨-, hz⟩, rfl | ⟨-, hzz⟩⟩ | ⟨hy', -⟩
          · exact .inl ⟨⟨hx, hz⟩, .inr ⟨hzx, hzy⟩⟩
          · exact .inl ⟨⟨hx, hz⟩, .inr ⟨hzx, hzz⟩⟩
          · rw [hy] at hy'; cases hy'
        · rcases hmn with ⟨⟨hy', -⟩, -⟩ | ⟨-, hz⟩
          · rw [hy] at hy'; cases hy'
          · exact .inr ⟨hx, hz⟩

/-- An entry is among others if one of them has an equal key and an equal value, wherever it
    stands. -/
theorem hasEntry_iff {k v : Tree} {es : List (Tree × Tree)} :
    Tree.hasEntry k v es = true ↔ ∃ e ∈ es, k.same e.1 = true ∧ v.same e.2 = true := by
  induction es with
  | nil => simp [Tree.hasEntry]
  | cons e es ih =>
    obtain ⟨k', v'⟩ := e
    simp [Tree.hasEntry, ih]

/-- All entries are among others if each of them is. -/
theorem sameEntries_iff {xs ys : List (Tree × Tree)} :
    Tree.sameEntries xs ys = true ↔ ∀ e ∈ xs, Tree.hasEntry e.1 e.2 ys = true := by
  induction xs with
  | nil => simp [Tree.sameEntries]
  | cons e xs ih =>
    obtain ⟨k, v⟩ := e
    simp [Tree.sameEntries, ih]

mutual

/-- **Equality of keys is transitive**, by recursion on the first of the three. The other two are
    of its kind, or the equalities are false. -/
theorem same_trans : ∀ {a b c : Tree}, a.same b = true → b.same c = true → a.same c = true
  | .null, b, c, hab, hbc => by
    -- only a null equals a null
    cases b <;> first | exact hbc | simp [Tree.same] at hab
  | .bool x, b, c, hab, hbc => by
    cases b with
    | bool y =>
      rw [Tree.same, beq_iff_eq] at hab
      rwa [hab]
    | _ => simp [Tree.same] at hab
  | .number l, b, c, hab, hbc => by
    cases b with
    | number m =>
      cases c with
      | number n =>
        rw [Tree.same] at hab hbc ⊢
        exact sameKeyNumber_trans hab hbc
      | _ => simp [Tree.same] at hbc
    | _ => simp [Tree.same] at hab
  | .string x, b, c, hab, hbc => by
    cases b with
    | string y =>
      rw [Tree.same, beq_iff_eq] at hab
      rwa [hab]
    | _ => simp [Tree.same] at hab
  | .sequence xs, b, c, hab, hbc => by
    cases b with
    | sequence ys =>
      cases c with
      | sequence zs =>
        rw [Tree.same] at hab hbc ⊢
        exact sameItems_trans hab hbc
      | _ => simp [Tree.same] at hbc
    | _ => simp [Tree.same] at hab
  | .mapping xs, b, c, hab, hbc => by
    cases b with
    | mapping ys =>
      cases c with
      | mapping zs =>
        rw [Tree.same, Bool.and_eq_true, beq_iff_eq] at hab hbc ⊢
        exact ⟨hab.1.trans hbc.1, sameEntries_trans hab.2 hbc.2⟩
      | _ => simp [Tree.same] at hbc
    | _ => simp [Tree.same] at hab
  | .tagged s x, b, c, hab, hbc => by
    cases b with
    | tagged t y =>
      cases c with
      | tagged u z =>
        rw [Tree.same, Bool.and_eq_true, beq_iff_eq] at hab hbc ⊢
        exact ⟨hab.1.trans hbc.1, same_trans hab.2 hbc.2⟩
      | _ => simp [Tree.same] at hbc
    | _ => simp [Tree.same] at hab

/-- Equality of sequences, item by item, is transitive. -/
theorem sameItems_trans : ∀ {xs ys zs : List Tree}, Tree.sameItems xs ys = true →
    Tree.sameItems ys zs = true → Tree.sameItems xs zs = true
  | [], ys, zs, hxy, hyz => by
    cases ys with
    | nil => exact hyz
    | cons y ys => simp [Tree.sameItems] at hxy
  | x :: xs, ys, zs, hxy, hyz => by
    cases ys with
    | nil => simp [Tree.sameItems] at hxy
    | cons y ys =>
      cases zs with
      | nil => simp [Tree.sameItems] at hyz
      | cons z zs =>
        rw [Tree.sameItems, Bool.and_eq_true] at hxy hyz ⊢
        exact ⟨same_trans hxy.1 hyz.1, sameItems_trans hxy.2 hyz.2⟩

/-- That all entries of a mapping are in another one is transitive: an entry is found in the
    second mapping, and what is found there in the third. -/
theorem sameEntries_trans : ∀ {xs ys zs : List (Tree × Tree)}, Tree.sameEntries xs ys = true →
    Tree.sameEntries ys zs = true → Tree.sameEntries xs zs = true
  | [], _, _, _, _ => by rw [Tree.sameEntries]
  | (k, v) :: xs, ys, zs, hxy, hyz => by
    rw [Tree.sameEntries, Bool.and_eq_true] at hxy ⊢
    obtain ⟨e, he, hk, hv⟩ := hasEntry_iff.mp hxy.1
    obtain ⟨f, hf, hk', hv'⟩ := hasEntry_iff.mp (sameEntries_iff.mp hyz e he)
    exact ⟨hasEntry_iff.mpr ⟨f, hf, same_trans hk hk', same_trans hv hv'⟩,
      sameEntries_trans hxy.2 hyz⟩

end

/-! ### Every key equals itself -/

/-- A number equals itself as a key, also if it is no number in arithmetic. -/
theorem sameKeyNumber_self (n : Number) : sameKeyNumber n n = true := by
  cases n with
  | int i => simp [sameKeyNumber, Number.same]
  | float x =>
    rw [sameKeyNumber, Binary64.sameNumber]
    cases x.isNaN <;> simp

mutual

/-- **Every key equals itself**, also one with a NaN in it, which as a number equals nothing. -/
theorem same_self : ∀ k : Tree, k.same k = true
  | .null => by rw [Tree.same]
  | .bool b => by rw [Tree.same, beq_self_eq_true]
  | .number n => by rw [Tree.same, sameKeyNumber_self]
  | .string s => by rw [Tree.same, beq_self_eq_true]
  | .sequence xs => by rw [Tree.same, sameItems_self]
  | .mapping xs => by
    rw [Tree.same, beq_self_eq_true, Bool.true_and, sameEntries_iff]
    exact fun e he => hasEntry_iff.mpr ⟨e, he, sameEntries_self xs e he⟩
  | .tagged s x => by rw [Tree.same, beq_self_eq_true, Bool.true_and, same_self x]

/-- Every sequence equals itself, item by item. -/
theorem sameItems_self : ∀ xs : List Tree, Tree.sameItems xs xs = true
  | [] => by rw [Tree.sameItems]
  | x :: xs => by rw [Tree.sameItems, same_self x, sameItems_self xs, Bool.true_and]

/-- The key and the value of every entry equal themselves. -/
theorem sameEntries_self : ∀ (xs : List (Tree × Tree)), ∀ e ∈ xs,
    e.1.same e.1 = true ∧ e.2.same e.2 = true
  | [] => by simp
  | (k, v) :: xs => List.forall_mem_cons.mpr ⟨⟨same_self k, same_self v⟩, sameEntries_self xs⟩

end

/-! ### Keys of entries -/

/-- A key is there if that of some entry equals it. -/
theorem hasKey_iff {key : Tree} {es : List (Tree × Tree)} :
    Tree.hasKey key es = true ↔ ∃ e ∈ es, key.same e.1 = true := by
  rw [Tree.hasKey, List.any_eq_true]

/-- A key is not there if that of no entry equals it. -/
theorem hasKey_eq_false_iff {key : Tree} {es : List (Tree × Tree)} :
    Tree.hasKey key es = false ↔ ∀ e ∈ es, key.same e.1 = false := by
  simp [Tree.hasKey, List.any_eq_false]

/-! ### All trees in a tree

What holds of every mapping in a tree, of every scalar in it and so on is said once, by a predicate
on a single node. The recursion goes into keys as well as into values, since a key may be a
collection.
-/

mutual

/-- Whether something holds of a tree and of all trees in it. -/
def Tree.Every (P : Tree → Prop) : Tree → Prop
  | .sequence items => P (.sequence items) ∧ Tree.EveryItem P items
  | .mapping entries => P (.mapping entries) ∧ Tree.EveryEntry P entries
  | .tagged tag content => P (.tagged tag content) ∧ content.Every P
  | t => P t

/-- Whether it holds of all items of a sequence and of all trees in them. -/
def Tree.EveryItem (P : Tree → Prop) : List Tree → Prop
  | [] => True
  | t :: items => t.Every P ∧ Tree.EveryItem P items

/-- Whether it holds of all keys and values of a mapping and of all trees in them. -/
def Tree.EveryEntry (P : Tree → Prop) : List (Tree × Tree) → Prop
  | [] => True
  | (k, v) :: entries => (k.Every P ∧ v.Every P) ∧ Tree.EveryEntry P entries

end

/-- Something holds of all items and the trees in them if it does of each of them. -/
theorem Tree.everyItem_iff {P : Tree → Prop} {items : List Tree} :
    Tree.EveryItem P items ↔ ∀ t ∈ items, t.Every P := by
  induction items with
  | nil => simp [Tree.EveryItem]
  | cons t items ih => simp [Tree.EveryItem, ih]

/-- Something holds of all keys and values and the trees in them if it does of each of them. -/
theorem Tree.everyEntry_iff {P : Tree → Prop} {entries : List (Tree × Tree)} :
    Tree.EveryEntry P entries ↔ ∀ e ∈ entries, e.1.Every P ∧ e.2.Every P := by
  induction entries with
  | nil => simp [Tree.EveryEntry]
  | cons e entries ih =>
    obtain ⟨k, v⟩ := e
    simp only [Tree.EveryEntry, ih, List.forall_mem_cons]

mutual

/-- What follows from something that holds of all trees in a tree holds of them. -/
theorem Tree.Every.mono {P Q : Tree → Prop} (hPQ : ∀ t, P t → Q t) :
    ∀ {t : Tree}, t.Every P → t.Every Q
  | .null, h | .bool _, h | .number _, h | .string _, h => hPQ _ h
  | .sequence _, h => ⟨hPQ _ h.1, Tree.EveryItem.mono hPQ h.2⟩
  | .mapping _, h => ⟨hPQ _ h.1, Tree.EveryEntry.mono hPQ h.2⟩
  | .tagged .., h => ⟨hPQ _ h.1, Tree.Every.mono hPQ h.2⟩

/-- What follows from something that holds of all trees in some items holds of them. -/
theorem Tree.EveryItem.mono {P Q : Tree → Prop} (hPQ : ∀ t, P t → Q t) :
    ∀ {items : List Tree}, Tree.EveryItem P items → Tree.EveryItem Q items
  | [], _ => trivial
  | _ :: _, h => ⟨Tree.Every.mono hPQ h.1, Tree.EveryItem.mono hPQ h.2⟩

/-- What follows from something that holds of all trees in some entries holds of them. -/
theorem Tree.EveryEntry.mono {P Q : Tree → Prop} (hPQ : ∀ t, P t → Q t) :
    ∀ {entries : List (Tree × Tree)}, Tree.EveryEntry P entries → Tree.EveryEntry Q entries
  | [], _ => trivial
  | (_, _) :: _, h =>
    ⟨⟨Tree.Every.mono hPQ h.1.1, Tree.Every.mono hPQ h.1.2⟩, Tree.EveryEntry.mono hPQ h.2⟩

end

/-! ### Different keys

The reader stops at the first key that equals an earlier one. That it did not stop says of every
pair of entries that the later one has another key.
-/

/-- Whether no key equals an earlier one. The order matters, as it is the later key that is
    compared with the earlier one. -/
def Distinct (entries : List (Tree × Tree)) : Prop :=
  entries.Pairwise fun e later => later.1.same e.1 = false

/-- Whether a tree itself is no mapping with a repeated key; what is in it is not looked at. -/
def IsDistinct : Tree → Prop
  | .mapping entries => Distinct entries
  | _ => True

/-- If no repeated key is found, none of the keys equals an earlier one, and none one from
    before. The search keeps the entries it has passed, so the induction is on what is left with
    any such entries before it. -/
theorem distinct_of_findRepeatedKey {before entries : List (Tree × Tree)}
    (h : findRepeatedKey before entries = none) :
    Distinct entries ∧ ∀ e ∈ entries, Tree.hasKey e.1 before = false := by
  induction entries generalizing before with
  | nil => exact ⟨.nil, by simp⟩
  | cons e entries ih =>
    obtain ⟨k, v⟩ := e
    rw [findRepeatedKey] at h
    split at h
    · cases h
    · next hk =>
      obtain ⟨hdistinct, hrest⟩ := ih h
      -- the entry at hand is among those that the later ones were compared with
      have hboth (f : Tree × Tree) (hf : f ∈ entries) :
          f.1.same k = false ∧ Tree.hasKey f.1 before = false := by
        have hnone := hrest f hf
        rwa [Tree.hasKey, List.any_cons, Bool.or_eq_false_iff] at hnone
      refine ⟨List.pairwise_cons.mpr ⟨fun f hf => (hboth f hf).1, hdistinct⟩, ?_⟩
      exact List.forall_mem_cons.mpr ⟨Bool.not_eq_true _ ▸ hk, fun f hf => (hboth f hf).2⟩

/-! ### What a reading can give

Reading a tree counts how often aliases were used, and fails if that is too often. What a tree is
does not depend on the count, so that results are described for every count before and after.
-/

/-- Whether something holds of all that a reading can give. A reading that fails gives nothing,
    and so satisfies every predicate. -/
def Gives {α : Type} (r : Reading α) (P : α → Prop) : Prop :=
  ∀ used a used', r used = .ok (a, used') → P a

namespace Gives

variable {α β : Type} {P : α → Prop} {Q : β → Prop}

/-- A reading that gives one result gives what that result is. -/
theorem pure {a : α} (h : P a) : Gives (pure a) P := by
  intro used a' used' ha
  cases ha
  exact h

/-- A reading that uses no alias gives what its result is. -/
theorem lift {x : Except SyntaxError α} (h : ∀ a, x = .ok a → P a) :
    Gives (StateT.lift x) P := by
  intro used a used' ha
  obtain ⟨b, hb, hab⟩ := bind_eq_ok_iff.mp ha
  cases hab
  exact h _ hb

/-- Readings in a row give what the last of them gives, after whatever those before it give. -/
theorem bind {r : Reading α} {f : α → Reading β} (hr : Gives r P)
    (hf : ∀ a, P a → Gives (f a) Q) : Gives (r >>= f) Q := by
  intro used b used' h
  obtain ⟨⟨a, used₁⟩, ha, hb⟩ := bind_eq_ok_iff.mp h
  exact hf a (hr used a used₁ ha) used₁ b used' hb

/-- A reading after another of which nothing is known, as following a link is here. -/
theorem after {r : Reading α} {f : α → Reading β} (hf : ∀ a, Gives (f a) Q) :
    Gives (r >>= f) Q :=
  Gives.bind (fun _ _ _ _ => trivial : Gives r fun _ => True) fun a _ => hf a

/-- If a reading gives something for each item of a list, all that is read from the list is of
    that kind. -/
theorem mapM {f : β → Reading α} {xs : List β} (h : ∀ x ∈ xs, Gives (f x) P) :
    Gives (xs.mapM f) fun ys => ∀ y ∈ ys, P y := by
  induction xs with
  | nil => exact .pure (by simp)
  | cons x xs ih =>
    obtain ⟨hx, hxs⟩ := List.forall_mem_cons.mp h
    rw [List.mapM_cons]
    exact (hx).bind fun y hy => (ih hxs).bind fun ys hys =>
      .pure (List.forall_mem_cons.mpr ⟨hy, hys⟩)

end Gives

/-! ### Loaded trees

The reader has one case for each kind of node, and so has the proof: a scalar is a leaf and in
range, a sequence is as its items are, and a mapping in addition went through the search for a
repeated key.
-/

/-- Whether a tree is no collection and has no tag. -/
def Tree.IsScalar : Tree → Prop
  | .sequence _ | .mapping _ | .tagged .. => False
  | _ => True

/-- Whether a tree itself is no integer that a document cannot hold. -/
def IsInRange : Tree → Prop
  | .number (.int i) => Number.minInt ≤ i ∧ i ≤ Number.maxInt
  | _ => True

/-- Whether a tree itself is as it can be loaded: no mapping repeats a key, and integers are in
    range. -/
def IsLoaded (t : Tree) : Prop := IsDistinct t ∧ IsInRange t

/-- An integer that is read can be held: the reader refuses any other as too large. -/
theorem readInt_range {s : List Char} {i : Int} (h : readInt s = .value i) :
    Number.minInt ≤ i ∧ i ≤ Number.maxInt := by
  unfold readInt at h
  split at h
  · cases h
  · split at h
    · next hrange => cases h; exact hrange
    · split at h <;> cases h

/-- A plain scalar is no collection, and in range if it is an integer: it is a null, a boolean,
    an integer, a float or a string, in the order in which they are tried. -/
theorem scalar_resolvePlain {s : List Char} {t : Tree} (h : resolvePlain s = some t) :
    t.IsScalar ∧ IsInRange t := by
  unfold resolvePlain at h
  split at h
  · cases h; exact ⟨trivial, trivial⟩
  · split at h
    · cases h; exact ⟨trivial, trivial⟩
    · split at h
      · next hi => cases h; exact ⟨trivial, readInt_range hi⟩
      · cases h
      · -- what is no integer is a string or a float
        repeat' split at h
        all_goals cases h; exact ⟨trivial, trivial⟩

/-- A scalar without a tag is no collection, and in range if it is an integer. Only a plain one
    is resolved; any other is a string. -/
theorem scalar_ofUntagged {text : String} {style : Style} {t : Tree}
    (h : Tree.ofUntagged text style = .ok t) : t.IsScalar ∧ IsInRange t := by
  unfold Tree.ofUntagged at h
  split at h
  · split at h
    · next hs => cases h; exact scalar_resolvePlain hs
    · cases h
  · cases h
    exact ⟨trivial, trivial⟩

/-- A scalar with any tag of the core schema, or none, is no collection, and in range if it is an
    integer. A tag of the core schema says what the text has to be, and any other tag leaves a
    string. -/
theorem scalar_ofScalar {tag : Option TagName} {text : String} {style : Style} {t : Tree}
    (h : Tree.ofScalar tag text style = .ok t) : t.IsScalar ∧ IsInRange t := by
  unfold Tree.ofScalar at h
  split at h
  · exact scalar_ofUntagged h
  · split at h
    · exact scalar_ofUntagged h
    · cases h; exact ⟨trivial, trivial⟩
  · -- the tags of the core schema, and the other ones
    simp only [unreadable] at h
    split at h
    · split at h <;> cases h; exact ⟨trivial, trivial⟩
    · split at h
      · split at h
        · next hi => cases h; exact ⟨trivial, readInt_range hi⟩
        · cases h
      · split at h
        · split at h <;> cases h; exact ⟨trivial, trivial⟩
        · split at h
          · split at h <;> cases h; exact ⟨trivial, trivial⟩
          · cases h; exact ⟨trivial, trivial⟩

/-- A scalar without a tag is no collection. -/
theorem isScalar_ofUntagged {text : String} {style : Style} {t : Tree}
    (h : Tree.ofUntagged text style = .ok t) : t.IsScalar := (scalar_ofUntagged h).1

/-- Whatever its tag is, a scalar is no collection. -/
theorem isScalar_ofScalar {tag : Option TagName} {text : String} {style : Style} {t : Tree}
    (h : Tree.ofScalar tag text style = .ok t) : t.IsScalar := (scalar_ofScalar h).1

/-- What is no collection is loaded if it is in range. -/
theorem every_of_isScalar {t : Tree} (h : t.IsScalar ∧ IsInRange t) : t.Every IsLoaded := by
  cases t with
  | sequence | mapping | tagged => exact h.1.elim
  | _ => exact ⟨trivial, h.2⟩

/-- A tag around a tree changes nothing inside it, and is itself neither a mapping nor a number. -/
theorem every_wrap (p : Properties) {t : Tree} (h : t.Every IsLoaded) :
    (p.wrap t).Every IsLoaded := by
  unfold Properties.wrap
  split
  · exact ⟨⟨trivial, trivial⟩, h⟩
  · exact h

/-- The meaning of a scalar is as it can be loaded. The statement is the case of a scalar in
    `Tree.ofNode`, written out. -/
theorem gives_scalar (p : Properties) (text : String) (style : Style) :
    Gives (match p.ownTag? with
      | some tag => do return .tagged tag (← Tree.ofUntagged text style)
      | none => Tree.ofScalar p.tag text style : Reading Tree) (Tree.Every IsLoaded) := by
  split
  · next tag _ =>
    refine Gives.bind (.lift fun t ht => every_of_isScalar (scalar_ofUntagged ht))
      fun t ht => ?_
    exact .pure ⟨⟨trivial, trivial⟩, ht⟩
  · exact .lift fun t ht => every_of_isScalar (scalar_ofScalar ht)

/-- The meaning of a node is as it can be loaded, by induction on the depth that is left. What a
    link leads to may be any node, so nothing is assumed of it. -/
theorem gives_ofNode (links : Links) (depth : Nat) (node : Node Nat) :
    Gives (Tree.ofNode links depth node) (Tree.Every IsLoaded) := by
  induction depth generalizing node with
  | zero =>
    unfold Tree.ofNode
    refine .after fun node => ?_
    match node with
    | .alias n => exact .lift (by simp [unreadable])
    | .scalar p text style => exact gives_scalar p text style
    | .sequence p items => exact .lift (by simp [unreadable])
    | .mapping p entries => exact .lift (by simp [unreadable])
  | succ depth ih =>
    unfold Tree.ofNode
    refine .after fun node => ?_
    match node with
    | .alias n => exact .lift (by simp [unreadable])
    | .scalar p text style => exact gives_scalar p text style
    | .sequence p items =>
      exact (Gives.mapM fun node _ => ih node).bind fun ts hts =>
        .pure (every_wrap p ⟨⟨trivial, trivial⟩, Tree.everyItem_iff.mpr hts⟩)
    | .mapping p entries =>
      have hentry (e : Node Nat × Node Nat) : Gives (do
          let key ← Tree.ofNode links depth e.1
          let value ← Tree.ofNode links depth e.2
          return (key, value)) fun e => e.1.Every IsLoaded ∧ e.2.Every IsLoaded :=
        (ih e.1).bind fun key hkey => (ih e.2).bind fun value hvalue => .pure ⟨hkey, hvalue⟩
      refine (Gives.mapM fun e _ => hentry e).bind fun ts hts => ?_
      -- a mapping with a repeated key is refused
      cases hrepeated : findRepeatedKey [] ts with
      | some k => exact .lift (by simp [unreadable])
      | none =>
        exact .pure (every_wrap p ⟨⟨(distinct_of_findRepeatedKey hrepeated).1, trivial⟩,
          Tree.everyEntry_iff.mpr hts⟩)

/-- **A loaded tree** has different keys in every mapping, and integers in range. Which nodes the
    tokens make and which aliases lead where is of no matter to it. -/
theorem load_loaded {text : String} {t : Tree} (h : load text = .ok t) : t.Every IsLoaded := by
  obtain ⟨tokens, -, h⟩ := bind_eq_ok_iff.mp h
  obtain ⟨root?, -, h⟩ := bind_eq_ok_iff.mp h
  cases root? with
  | none => cases h; exact ⟨trivial, trivial⟩
  | some root =>
    obtain ⟨⟨root, targets, anchors⟩, -, h⟩ := bind_eq_ok_iff.mp h
    obtain ⟨⟨t', used⟩, ht, h⟩ := bind_eq_ok_iff.mp h
    cases h
    exact gives_ofNode _ _ _ 0 t used ht

/-- In a loaded tree the keys of every mapping are different. -/
theorem load_distinct {text : String} {t : Tree} (h : load text = .ok t) : t.Every IsDistinct :=
  (load_loaded h).mono fun _ ht => ht.1

end SchemaEmbed.Yaml
