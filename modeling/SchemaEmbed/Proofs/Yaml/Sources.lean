import SchemaEmbed.Proofs.Yaml.Distinct
import SchemaEmbed.Yaml.Merge

namespace SchemaEmbed.Yaml

/-!
# What a mapping takes over

A mapping with a merge key names one mapping or a list of them, and takes over those of their
entries that it does not have. What this should mean is said by `Provides`, without mention of how
it is done: an entry of its own counts first, and of several sources the first that defines the
key. What is done is a fold over the sources, each of which is absorbed in turn.

* `ownFields`, `sourcesOf` — the entries of a mapping without its merge key, and the mappings that
  the merge key names, in order;
* `Defines`, `Provides` — the keys and the entries that a mapping has when every merge key takes
  effect, those of its sources before its own;
* `mergeFields_eq` — what merging does is to append, source after source, what is absent;
* `mem_mergeFields` — **one merge**: an entry is there if it is the mapping's own, or comes from
  the first source that has the key;
* `provides_iff_mem` — this is what the mapping provides, unless a source has a merge key itself,
  which then is taken over like any other entry (`mergeKey_of_source`).
-/

/-! ### Entries and sources

Sources are found by the first merge key. A loaded mapping has one at most, since its keys are
different.
-/

/-- The entries of a mapping other than its merge key, in order. -/
def ownFields (fields : Fields) : Fields := fields.filter fun e => ! isMergeKey e.1

/-- The mappings that the value of a merge key consists of: the value itself, or its items. -/
def mappingsOf : Tree → List Fields
  | .mapping fields => [fields]
  | .sequence items => items.filterMap fun
    | .mapping fields => some fields
    | _ => none
  | _ => []

/-- The mappings that a mapping takes entries over from, in order, none where it has no merge
    key. -/
def sourcesOf (fields : Fields) : List Fields :=
  match fields.find? fun e => isMergeKey e.1 with
  | some e => mappingsOf e.2
  | none => []

/-- Whether a mapping has a merge key. -/
def HasMergeKey (fields : Fields) : Prop := ∃ e ∈ fields, isMergeKey e.1 = true

/-- Whether a mapping defines a key, itself or through its sources. -/
inductive Defines (key : Tree) : Fields → Prop
  | own {fields} (h : Tree.hasKey key (ownFields fields) = true) : Defines key fields
  | taken {fields source} (hsource : source ∈ sourcesOf fields) (h : Defines key source) :
    Defines key fields

/-- Whether a mapping provides an entry when every merge key takes effect: its own ones, and
    for every other key what the first of its sources provides that defines the key. -/
inductive Provides : Fields → Tree × Tree → Prop
  | own {fields e} (h : e ∈ ownFields fields) : Provides fields e
  | taken {fields e before source after} (hsources : sourcesOf fields = before ++ source :: after)
    (hown : Tree.hasKey e.1 (ownFields fields) = false) (hbefore : ∀ b ∈ before, ¬ Defines e.1 b)
    (h : Provides source e) : Provides fields e

/-- The entries of a mapping without a merge key are all its own. -/
theorem ownFields_eq_self {fields : Fields} (h : ¬ HasMergeKey fields) :
    ownFields fields = fields := by
  refine List.filter_eq_self.mpr fun e he => ?_
  rw [Bool.not_eq_true', ← Bool.not_eq_true]
  exact fun hkey => h ⟨e, he, hkey⟩

/-- A mapping without a merge key has no sources. -/
theorem sourcesOf_eq_nil {fields : Fields} (h : ¬ HasMergeKey fields) : sourcesOf fields = [] := by
  have hnone : fields.find? (fun e => isMergeKey e.1) = none :=
    List.find?_eq_none.mpr fun e he hkey => h ⟨e, he, hkey⟩
  rw [sourcesOf, hnone]

/-- A mapping without a merge key defines the keys that it has, and no others. -/
theorem defines_iff_hasKey {fields : Fields} (h : ¬ HasMergeKey fields) {key : Tree} :
    Defines key fields ↔ Tree.hasKey key fields = true := by
  constructor
  · rintro (hkey | ⟨hsource, -⟩)
    · rwa [ownFields_eq_self h] at hkey
    · rw [sourcesOf_eq_nil h] at hsource
      cases hsource
  · exact fun hkey => .own (by rwa [ownFields_eq_self h])

/-- A mapping without a merge key provides the entries that it has, and no others. -/
theorem provides_iff_mem_self {fields : Fields} (h : ¬ HasMergeKey fields) {e : Tree × Tree} :
    Provides fields e ↔ e ∈ fields := by
  constructor
  · rintro (he | ⟨hsources, -, -, -⟩)
    · rwa [ownFields_eq_self h] at he
    · rw [sourcesOf_eq_nil h] at hsources
      simp at hsources
  · exact fun he => .own (by rwa [ownFields_eq_self h])

/-! ### Merge keys

Merging takes the first merge key out of a mapping and puts the last entry in its place. What is
left are the mapping's own entries, in another order perhaps.
-/

/-- The merge key is the string `<<`. -/
theorem isMergeKey_iff {k : Tree} : isMergeKey k = true ↔ k = .string "<<" := by
  cases k <;> simp [isMergeKey]

/-- What equals a merge key is one. -/
theorem isMergeKey_of_same {k l : Tree} (hk : isMergeKey k = true) (h : k.same l = true) :
    isMergeKey l = true := by
  rw [isMergeKey_iff] at hk ⊢
  subst hk
  cases l with
  | string s => rw [Tree.same, beq_iff_eq] at h; rw [h]
  | _ => simp [Tree.same] at h

/-- Any two merge keys are equal. -/
theorem same_of_isMergeKey {k l : Tree} (hk : isMergeKey k = true) (hl : isMergeKey l = true) :
    k.same l = true := by
  rw [isMergeKey_iff.mp hk, isMergeKey_iff.mp hl, Tree.same, beq_self_eq_true]

/-- With the last one at the head, the entries are the same, in another order. -/
theorem lastToFront_perm (fields : Fields) : (lastToFront fields).Perm fields := by
  rcases List.eq_nil_or_concat fields with rfl | ⟨fields, e, rfl⟩
  · exact .refl []
  · rw [List.concat_eq_append, lastToFront, List.getLast?_concat, List.dropLast_concat]
    exact (List.perm_append_singleton e fields).symm

/-- A merge key can be taken from a mapping exactly if it has one. -/
theorem takeMergeKey_eq_none_iff {fields : Fields} :
    takeMergeKey fields = none ↔ ¬ HasMergeKey fields := by
  induction fields with
  | nil => simp [takeMergeKey, HasMergeKey]
  | cons e rest ih =>
    obtain ⟨k, v⟩ := e
    rw [takeMergeKey]
    split
    · next hk => simp [HasMergeKey, hk]
    · next hk =>
      rw [Option.map_eq_none_iff, ih]
      simp [HasMergeKey, hk]

/-- What is taken is the value of the first merge key, and what is left are the other entries,
    the last one in its place. -/
theorem takeMergeKey_eq_some {fields others : Fields} {source : Tree}
    (h : takeMergeKey fields = some (source, others)) :
    ∃ before k rest, fields = before ++ (k, source) :: rest ∧ isMergeKey k = true
      ∧ ¬ HasMergeKey before ∧ others = before ++ lastToFront rest := by
  induction fields generalizing others with
  | nil => cases h
  | cons e rest ih =>
    obtain ⟨k, v⟩ := e
    rw [takeMergeKey] at h
    split at h
    · next hk =>
      cases h
      exact ⟨[], k, rest, rfl, hk, by simp [HasMergeKey], rfl⟩
    · next hk =>
      obtain ⟨⟨source', others'⟩, hothers, heq⟩ := Option.map_eq_some_iff.mp h
      cases heq
      obtain ⟨before, l, rest, rfl, hl, hbefore, rfl⟩ := ih hothers
      refine ⟨(k, v) :: before, l, rest, rfl, hl, ?_, rfl⟩
      rintro ⟨f, hf, hkey⟩
      rcases List.mem_cons.mp hf with rfl | hf
      · exact hk hkey
      · exact hbefore ⟨f, hf, hkey⟩

/-- After a merge key there is no second one, because it would be a repeated key. -/
theorem Distinct.not_hasMergeKey {before rest : Fields} {e : Tree × Tree}
    (hdistinct : Distinct (before ++ e :: rest)) (he : isMergeKey e.1 = true) :
    ¬ HasMergeKey rest := by
  rintro ⟨f, hf, hkey⟩
  have hrest := (List.pairwise_append.mp hdistinct).2.1
  have hne := (List.pairwise_cons.mp hrest).1 f hf
  rw [same_of_isMergeKey hkey he] at hne
  cases hne

/-- The entries around the merge key are the own ones of a mapping. -/
theorem ownFields_append {before rest : Fields} {e : Tree × Tree} (hbefore : ¬ HasMergeKey before)
    (he : isMergeKey e.1 = true) (hrest : ¬ HasMergeKey rest) :
    ownFields (before ++ e :: rest) = before ++ rest := by
  have hcons : ownFields (e :: rest) = ownFields rest := List.filter_cons_of_neg (by simp [he])
  rw [ownFields, List.filter_append]
  show ownFields before ++ ownFields (e :: rest) = _
  rw [hcons, ownFields_eq_self hbefore, ownFields_eq_self hrest]

/-- The sources of a mapping are the mappings that the value of its first merge key consists of. -/
theorem sourcesOf_append {before rest : Fields} {e : Tree × Tree} (hbefore : ¬ HasMergeKey before)
    (he : isMergeKey e.1 = true) : sourcesOf (before ++ e :: rest) = mappingsOf e.2 := by
  have hnone : before.find? (fun e => isMergeKey e.1) = none :=
    List.find?_eq_none.mpr fun f hf hkey => hbefore ⟨f, hf, hkey⟩
  have hcons : (e :: rest).find? (fun e => isMergeKey e.1) = some e := List.find?_cons_of_pos he
  rw [sourcesOf, List.find?_append, hnone, hcons]
  rfl

/-! ### One merge

To absorb a mapping is to append those of its entries whose keys are not there yet. So an entry is
there in the end if it was there, or is in the first mapping that has the key; this is proved for
one mapping, and then for one after the other.
-/

/-- If the items of a list are absorbed without failing, they are mappings, absorbed one after
    the other. -/
theorem absorbAll_eq {fields merged : Fields} {items : List Tree}
    (h : absorbAll fields items = .ok merged) :
    merged = (mappingsOf (.sequence items)).foldl absorb fields := by
  induction items generalizing fields with
  | nil => cases h; rfl
  | cons t items ih =>
    cases t with
    | mapping source => exact ih h
    | _ => cases h

/-- A mapping without a merge key stays what it is; into any other one the mappings are absorbed
    that the value of the merge key consists of. -/
theorem mergeFields_eq_ok {fields merged : Fields} (h : mergeFields fields = .ok merged) :
    (takeMergeKey fields = none ∧ merged = fields) ∨ ∃ source others,
      takeMergeKey fields = some (source, others)
        ∧ merged = (mappingsOf source).foldl absorb others := by
  unfold mergeFields at h
  split at h
  · next hnone => cases h; exact .inl ⟨hnone, rfl⟩
  · next source others htake => cases h; exact .inr ⟨_, _, htake, rfl⟩
  · next items others htake => exact .inr ⟨_, _, htake, absorbAll_eq h⟩
  · cases h
  · cases h

/-- **What merging does**: it absorbs the sources into the mapping's own entries, which may
    stand in another order. -/
theorem mergeFields_eq {fields merged : Fields} (hdistinct : Distinct fields)
    (h : mergeFields fields = .ok merged) :
    ∃ own, own.Perm (ownFields fields) ∧ merged = (sourcesOf fields).foldl absorb own := by
  rcases mergeFields_eq_ok h with ⟨hnone, rfl⟩ | ⟨source, others, htake, rfl⟩
  · have hkey := takeMergeKey_eq_none_iff.mp hnone
    exact ⟨merged, by rw [ownFields_eq_self hkey], by rw [sourcesOf_eq_nil hkey]; rfl⟩
  · obtain ⟨before, k, rest, rfl, hk, hbefore, rfl⟩ := takeMergeKey_eq_some htake
    refine ⟨before ++ lastToFront rest, ?_, by rw [sourcesOf_append hbefore hk]⟩
    rw [ownFields_append hbefore hk (hdistinct.not_hasMergeKey hk)]
    exact (lastToFront_perm rest).append_left before

/-- What is there after a mapping was absorbed was there before or is in that mapping. -/
theorem mem_of_absorb {fields source : Fields} {e : Tree × Tree} (h : e ∈ absorb fields source) :
    e ∈ fields ∨ e ∈ source := by
  unfold absorb at h
  induction source generalizing fields with
  | nil => exact .inl h
  | cons x rest ih =>
    rw [List.foldl_cons] at h
    rcases ih h with h | h
    · split at h
      · exact .inl h
      · rcases List.mem_append.mp h with h | h
        · exact .inl h
        · exact .inr (List.mem_cons.mpr (.inl (List.mem_singleton.mp h)))
    · exact .inr (List.mem_cons_of_mem _ h)

/-- What is there after mappings were absorbed was there before or is in one of them. -/
theorem mem_of_foldl_absorb {fields : Fields} {sources : List Fields} {e : Tree × Tree}
    (h : e ∈ sources.foldl absorb fields) : e ∈ fields ∨ ∃ source ∈ sources, e ∈ source := by
  induction sources generalizing fields with
  | nil => exact .inl h
  | cons source rest ih =>
    rcases ih h with h | ⟨s, hs, h⟩
    · exact (mem_of_absorb h).imp_right fun h => ⟨source, List.mem_cons_self, h⟩
    · exact .inr ⟨s, List.mem_cons_of_mem _ hs, h⟩

/-- **Where entries come from**: what is there after a merge was there before or is in a mapping
    that the value of an entry consists of. -/
theorem mem_of_mergeFields {fields merged : Fields} (h : mergeFields fields = .ok merged)
    {e : Tree × Tree} (he : e ∈ merged) :
    e ∈ fields ∨ ∃ f ∈ fields, ∃ source ∈ mappingsOf f.2, e ∈ source := by
  rcases mergeFields_eq_ok h with ⟨-, rfl⟩ | ⟨source, others, htake, rfl⟩
  · exact .inl he
  · obtain ⟨before, k, rest, rfl, -, -, rfl⟩ := takeMergeKey_eq_some htake
    rcases mem_of_foldl_absorb he with he | hsource
    · left
      rcases List.mem_append.mp he with he | he
      · exact List.mem_append_left _ he
      · exact List.mem_append_right _
          (List.mem_cons_of_mem _ ((lastToFront_perm rest).mem_iff.mp he))
    · exact .inr ⟨(k, source), by simp, hsource⟩

/-- A key is in entries that were appended to others if it is in one of the two. -/
theorem hasKey_append {key : Tree} {xs ys : Fields} :
    Tree.hasKey key (xs ++ ys) = (Tree.hasKey key xs || Tree.hasKey key ys) :=
  List.any_append

/-- After a mapping with different keys was absorbed, the entries are those that were there, and
    those of the mapping whose keys were absent. -/
theorem mem_absorb {fields source : Fields} (hsource : Distinct source) {e : Tree × Tree} :
    e ∈ absorb fields source ↔ e ∈ fields ∨ (e ∈ source ∧ Tree.hasKey e.1 fields = false) := by
  unfold absorb
  induction source generalizing fields with
  | nil => simp
  | cons x rest ih =>
    obtain ⟨hfirst, hrest⟩ := List.pairwise_cons.mp hsource
    rw [List.foldl_cons, ih hrest]
    by_cases hx : Tree.hasKey x.1 fields = true
    · -- the first entry stays out
      rw [if_pos hx, List.mem_cons]
      refine or_congr_right ⟨fun h => ⟨.inr h.1, h.2⟩, fun h => ⟨h.1.resolve_left ?_, h.2⟩⟩
      rintro rfl
      rw [hx] at h
      exact absurd h.2 (by decide)
    · -- it is appended, and no later entry has its key
      rw [if_neg hx, List.mem_append, List.mem_singleton, List.mem_cons, or_assoc]
      refine or_congr_right ?_
      constructor
      · rintro (rfl | ⟨he, hkey⟩)
        · exact ⟨.inl rfl, by simpa using hx⟩
        · rw [hasKey_append, Bool.or_eq_false_iff] at hkey
          exact ⟨.inr he, hkey.1⟩
      · rintro ⟨rfl | he, hkey⟩
        · exact .inl rfl
        · refine .inr ⟨he, ?_⟩
          rw [hasKey_append, hkey, Bool.false_or]
          simpa [Tree.hasKey] using hfirst e he

/-- After a mapping was absorbed, the keys are those that were there and those of the mapping. -/
theorem hasKey_absorb {fields source : Fields} (hsource : Distinct source) (key : Tree) :
    Tree.hasKey key (absorb fields source) = false ↔
      Tree.hasKey key fields = false ∧ Tree.hasKey key source = false := by
  constructor
  · intro h
    rw [hasKey_eq_false_iff] at h
    have hfields : ∀ e ∈ fields, key.same e.1 = false :=
      fun e he => h e ((mem_absorb hsource).mpr (.inl he))
    refine ⟨hasKey_eq_false_iff.mpr hfields, hasKey_eq_false_iff.mpr fun e he => ?_⟩
    cases hkey : Tree.hasKey e.1 fields with
    | false => exact h e ((mem_absorb hsource).mpr (.inr ⟨he, hkey⟩))
    | true =>
      -- the entry stayed out because of one with its key, which then is the key as well
      obtain ⟨f, hf, hef⟩ := hasKey_iff.mp hkey
      refine Bool.eq_false_iff.mpr fun hsame => ?_
      have hkf := hfields f hf
      rw [same_trans hsame hef] at hkf
      cases hkf
  · rintro ⟨hfields, hsource'⟩
    rw [hasKey_eq_false_iff] at hfields hsource' ⊢
    intro e he
    rcases (mem_absorb hsource).mp he with he | ⟨he, -⟩
    · exact hfields e he
    · exact hsource' e he

/-- After mappings were absorbed one after the other, the entries are those that were there, and
    those that are in one of the mappings whose keys were absent and are in no mapping before it. -/
theorem mem_foldl_absorb {fields : Fields} {sources : List Fields}
    (hsources : ∀ s ∈ sources, Distinct s) {e : Tree × Tree} :
    e ∈ sources.foldl absorb fields ↔ e ∈ fields ∨ ∃ before source after,
      sources = before ++ source :: after ∧ e ∈ source ∧ Tree.hasKey e.1 fields = false ∧
        ∀ b ∈ before, Tree.hasKey e.1 b = false := by
  induction sources generalizing fields with
  | nil => simp
  | cons s rest ih =>
    obtain ⟨hs, hrest⟩ := List.forall_mem_cons.mp hsources
    rw [List.foldl_cons, ih hrest, mem_absorb hs, or_assoc]
    refine or_congr_right ⟨?_, ?_⟩
    · rintro (⟨he, hkey⟩ | ⟨before, source, after, rfl, he, hkey, hbefore⟩)
      · exact ⟨[], s, rest, rfl, he, hkey, by simp⟩
      · obtain ⟨hfields, hkey⟩ := (hasKey_absorb hs e.1).mp hkey
        exact ⟨s :: before, source, after, rfl, he, hfields,
          List.forall_mem_cons.mpr ⟨hkey, hbefore⟩⟩
    · rintro ⟨before, source, after, happend, he, hkey, hbefore⟩
      cases before with
      | nil =>
        cases happend
        exact .inl ⟨he, hkey⟩
      | cons b before =>
        cases happend
        obtain ⟨hb, hbefore⟩ := List.forall_mem_cons.mp hbefore
        exact .inr ⟨before, source, after, rfl, he, (hasKey_absorb hs e.1).mpr ⟨hkey, hb⟩,
          hbefore⟩

section

variable {fields merged : Fields} (hdistinct : Distinct fields)
  (hsources : ∀ s ∈ sourcesOf fields, Distinct s) (h : mergeFields fields = .ok merged)

include hdistinct hsources h

/-- **One merge.**  The entries of a mapping after it are its own ones, and those that are in
    a source, if their keys are in no source before it and are not the mapping's own. -/
theorem mem_mergeFields {e : Tree × Tree} :
    e ∈ merged ↔ e ∈ ownFields fields ∨ ∃ before source after,
      sourcesOf fields = before ++ source :: after ∧ e ∈ source ∧
        Tree.hasKey e.1 (ownFields fields) = false ∧ ∀ b ∈ before, Tree.hasKey e.1 b = false := by
  obtain ⟨own, hown, rfl⟩ := mergeFields_eq hdistinct h
  have hkey (key : Tree) : Tree.hasKey key own = Tree.hasKey key (ownFields fields) :=
    hown.any_eq
  rw [mem_foldl_absorb hsources, hown.mem_iff]
  simp only [hkey]

/-- **What a mapping provides** is what it has after one merge, if no source has a merge key
    itself. -/
theorem provides_iff_mem (hplain : ∀ s ∈ sourcesOf fields, ¬ HasMergeKey s) {e : Tree × Tree} :
    Provides fields e ↔ e ∈ merged := by
  rw [mem_mergeFields hdistinct hsources h]
  have hmem {before after : List Fields} {source : Fields}
      (happend : sourcesOf fields = before ++ source :: after) :
      source ∈ sourcesOf fields ∧ ∀ b ∈ before, b ∈ sourcesOf fields := by
    rw [happend]
    exact ⟨by simp, fun b hb => List.mem_append_left _ hb⟩
  constructor
  · rintro (he | ⟨happend, hown, hbefore, he⟩)
    · exact .inl he
    · obtain ⟨hsource, hin⟩ := hmem happend
      refine .inr ⟨_, _, _, happend, (provides_iff_mem_self (hplain _ hsource)).mp he, hown,
        fun b hb => ?_⟩
      rw [← Bool.not_eq_true, ← defines_iff_hasKey (hplain b (hin b hb))]
      exact hbefore b hb
  · rintro (he | ⟨before, source, after, happend, he, hown, hbefore⟩)
    · exact .own he
    · obtain ⟨hsource, hin⟩ := hmem happend
      refine .taken happend hown (fun b hb => ?_)
        ((provides_iff_mem_self (hplain _ hsource)).mpr he)
      rw [defines_iff_hasKey (hplain b (hin b hb)), Bool.not_eq_true]
      exact hbefore b hb

omit hdistinct hsources h in
/-- The merge key is none of the keys of a mapping's own entries. -/
theorem hasKey_ownFields_of_isMergeKey {key : Tree} (hkey : isMergeKey key = true) :
    Tree.hasKey key (ownFields fields) = false := by
  refine hasKey_eq_false_iff.mpr fun e he => Bool.eq_false_iff.mpr fun hsame => ?_
  simp [ownFields, isMergeKey_of_same hkey hsame] at he

/-- **A merge key of a source** is taken over like any other entry: after one merge there is a
    merge key exactly if a source has one. -/
theorem mergeKey_of_source :
    HasMergeKey merged ↔ ∃ s ∈ sourcesOf fields, HasMergeKey s := by
  constructor
  · rintro ⟨e, he, hkey⟩
    rcases (mem_mergeFields hdistinct hsources h).mp he with he | ⟨before, source, after, happend,
      he, -⟩
    · simp [ownFields, hkey] at he
    · exact ⟨source, by rw [happend]; simp, e, he, hkey⟩
  · -- the first source that has one is where it comes from
    rintro ⟨s, hs, hkey⟩
    obtain ⟨before, source, after, happend, ⟨e, he, hkey⟩, hbefore⟩ :
        ∃ before source after, sourcesOf fields = before ++ source :: after ∧
          HasMergeKey source ∧ ∀ b ∈ before, ¬ HasMergeKey b := by
      generalize sourcesOf fields = sources at hs
      induction sources with
      | nil => cases hs
      | cons x rest ih =>
        by_cases hx : HasMergeKey x
        · exact ⟨[], x, rest, rfl, hx, by simp⟩
        · have hs' : s ∈ rest := (List.mem_cons.mp hs).resolve_left fun heq => hx (heq ▸ hkey)
          obtain ⟨before, source, after, rfl, hsource, hbefore⟩ := ih hs'
          exact ⟨x :: before, source, after, rfl, hsource,
            List.forall_mem_cons.mpr ⟨hx, hbefore⟩⟩
    refine ⟨e, (mem_mergeFields hdistinct hsources h).mpr (.inr ⟨before, source, after, happend,
      he, hasKey_ownFields_of_isMergeKey hkey, fun b hb => ?_⟩), hkey⟩
    exact hasKey_eq_false_iff.mpr fun f hf => Bool.eq_false_iff.mpr fun hsame =>
      hbefore b hb ⟨f, hf, isMergeKey_of_same hkey hsame⟩

end

end SchemaEmbed.Yaml
