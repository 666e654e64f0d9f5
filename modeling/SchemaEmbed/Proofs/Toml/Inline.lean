import SchemaEmbed.Proofs.Toml.Bare
import SchemaEmbed.Proofs.Toml.FirstNull
import SchemaEmbed.Proofs.Toml.Key

namespace SchemaEmbed.Toml

/-!
# Values on one line are read as they were written

A value that is no table with a header is written on the line of its key: containers in brackets
and braces, and everything else as it is anywhere. Only lists of several items take more lines.

* `Item.ofValue` — the tree of a value;
* `IsSigned` — what no integer beyond 64 bits with its sign is;
* `skipSpace_solid` — what is skipped before a value or a key;
* `readValue_inline` — a value on the line of its key is read back if its integers have 64 bits
  with their sign and it nests no deeper than it may, and refused otherwise.

What has been read of a mapping in braces is part of the state of its reader, which refuses a key
that is there already. So the lemmas about entries say what is `done`.
-/

open Value (Every EveryItem EveryEntry IsWellFormed IsFloatFinite)

/-! ### The tree of a value

The reader makes trees, in which date-times have a place of their own and nulls have none. A value
that can be written has a tree, and it is the one that is read.
-/

mutual

/-- The tree of a value without nulls. What it is for a null is of no matter. -/
def Item.ofValue : Value → Item
  | .null => default
  | .bool b => .boolean b
  | .number (.int i) => .integer i
  | .number (.float x) => .float x
  | .string s => .string s
  | .array items => .array (Item.ofItems items)
  | .object entries => .table (Item.ofEntries entries)

/-- The trees of the items of a sequence. -/
def Item.ofItems : List Value → List Item
  | [] => []
  | v :: rest => Item.ofValue v :: Item.ofItems rest

/-- The trees of the entries of a mapping. -/
def Item.ofEntries : List (String × Value) → List (String × Item)
  | [] => []
  | (k, v) :: rest => (k, Item.ofValue v) :: Item.ofEntries rest

end

/-! ### What can be written, and what can be read -/

/-- Whether a value itself is as documents have it, and has a text: it is no null, and if it is a
    float, it is finite. -/
def IsWritable (v : Value) : Prop := IsWellFormed v ∧ IsFloatFinite v ∧ IsPresent v

/-- Whether a value itself is no integer beyond 64 bits with its sign. The writer goes one bit
    further than the reader, so this is not part of `IsWritable`. -/
def IsSigned : Value → Prop
  | .number (.int i) => i ≤ maxInteger
  | _ => True

instance : DecidablePred IsSigned
  | .number (.int i) => inferInstanceAs (Decidable (i ≤ maxInteger))
  | .null | .bool _ | .number (.float _) | .string _ | .array _ | .object _ => .isTrue trivial

/-! ### What is skipped

Before a value, a key or a bracket the reader skips blanks, breaks and comments. It stops at the
first other character, and the head of whatever is written there is such a character.
-/

/-- Whether a character is neither a blank nor a break nor the mark of a comment, so that nothing
    is skipped at it. -/
def IsSolid (c : Char) : Prop := isBlank c = false ∧ c ≠ '#' ∧ c ≠ '\n' ∧ c ≠ '\r'

/-- **Blanks are skipped** up to the next character. -/
theorem skipSpace_solid (n : Nat) {c : Char} (hc : IsSolid c) (t : List Char) :
    skipSpace (List.replicate n ' ' ++ c :: t) = .ok (c :: t) := by
  have hspaces : ∀ a ∈ List.replicate n ' ', isBlank a = true := fun a ha => by
    rw [List.eq_of_mem_replicate ha]
    rfl
  have hblanks : skipBlanks (List.replicate n ' ' ++ c :: t) = c :: t := by
    rw [skipBlanks, List.dropWhile_append_of_pos hspaces, List.dropWhile_cons, hc.1]
    rfl
  have hcomment : skipComment (c :: t) = .ok (c :: t) := by
    unfold skipComment
    split
    · next heq => exact absurd (List.cons.inj heq).1 hc.2.1
    · rfl
  have hbreak : afterBreak? (c :: t) = none := by
    unfold afterBreak?
    split
    · next heq => exact absurd (List.cons.inj heq).1 hc.2.2.1
    · next heq => exact absurd (List.cons.inj heq).1 hc.2.2.2
    · rfl
  rw [skipSpace, skipLines, hblanks, hcomment, ok_bind, hbreak]
  rfl

/-- A character that begins a key is neither skipped nor that of a comment. -/
theorem StartsKey.solid {c : Char} (hc : StartsKey c) : IsSolid c := by
  refine ⟨?_, hc.ne (by decide), hc.ne (by decide), hc.ne (by decide)⟩
  simp only [isBlank, Bool.or_eq_false_iff, beq_eq_false_iff_ne]
  exact ⟨hc.ne (by decide), hc.ne (by decide)⟩

/-- **A key** is found after blanks. -/
theorem skipSpace_keyChars (n : Nat) (s t : List Char) :
    skipSpace (List.replicate n ' ' ++ (keyChars s ++ t)) = .ok (keyChars s ++ t) := by
  obtain ⟨c, rest, hkey, hc⟩ := keyChars_head s
  rw [hkey, List.cons_append]
  exact skipSpace_solid n hc.solid _

/-! ### Entries

The entries of a mapping in braces are put into a table one by one. As the keys of a value are
different, each of them is new.
-/

/-- What lines define under their keys. -/
def valueDrafts (es : List (String × Value)) : Entries Draft :=
  es.map fun e => (e.1, .value (Item.ofValue e.2))

/-- What lines define is, when it is finished, the trees of their values under their keys. -/
theorem toEntries_valueDrafts (es : List (String × Value)) :
    Draft.toEntries (valueDrafts es) = Item.ofEntries es := by
  induction es with
  | nil => rfl
  | cons e es ih =>
    obtain ⟨k, v⟩ := e
    rw [Item.ofEntries, ← ih]
    rfl

/-- An entry whose key is new is defined as the last one. This is the whole of `Draft.define` for
    a key that is not dotted. -/
theorem define_new {k : String} {entries : Entries Draft} (hk : k ∉ Entries.keys entries)
    (item : Item) : Draft.define [] k item entries = .ok (entries ++ [(k, .value item)]) := by
  have hnone : entries.find? k = none := Entries.find_eq_none_iff.mpr hk
  simp [Draft.define, Draft.modifyAt, Draft.addNew, hnone, Entries.put_of_not_mem hk]

/-! ### Values without containers

A string is told by its quotes; a number and a truth value are taken up to what ends them and then
tried one after the other, as in `readBare`.
-/

/-- What stands after a value cannot be taken for one of its quotes. -/
theorem EndsValue.endsString {t : List Char} (ht : EndsValue t) : EndsString t := by
  rcases ht with ⟨c, rest, rfl, rfl | rfl | rfl⟩ | ⟨rest, rfl⟩ <;>
    exact ⟨by simp, by simp⟩

/-- A digit ends no value without quotes, and neither do the signs around it. -/
theorem endsBare_eq_false {c : Char} (h : c.isDigit = true ∨ c ∈ ['.', 'e', '-', '+']) :
    endsBare c = false := by
  have hends : ∀ d ∈ " \t\r\n,[]\x7b\x7d#=\"'".toList,
      (! (d.isDigit || ['.', 'e', '-', '+'].contains d)) = true := List.all_eq_true.mp rfl
  rw [endsBare, List.contains_eq_mem, decide_eq_false_iff_not]
  intro hmem
  have hnot := hends c hmem
  rcases h with h | h <;> simp [h] at hnot

/-- The text of a number has nothing in it that ends a value without quotes. -/
theorem numberChars_plain {n : Number} (hn : IsFloatFinite (.number n)) :
    ∀ c ∈ numberChars n, endsBare c = false := by
  intro c hc
  apply endsBare_eq_false
  cases n with
  | int i =>
    rw [numberChars, Json.toList_toString_int] at hc
    have hdigit (h : c ∈ Nat.toDigits 10 i.natAbs) : c.isDigit = true :=
      Nat.isDigit_of_mem_toDigits (by decide) (by decide) h
    split at hc
    · rcases List.mem_cons.mp hc with rfl | hc
      · exact .inr (by decide)
      · exact .inl (hdigit hc)
    · exact .inl (hdigit hc)
  | float x =>
    obtain ⟨m, hm, hchars, -⟩ := FloatLayout.toml.renderChars_spec hn
    rw [numberChars, hchars] at hc
    rcases List.mem_append.mp hc with hc | hc
    · split at hc
      · rw [List.mem_singleton.mp hc]
        exact .inr (by decide)
      · cases hc
    · exact hm.of_mem_chars hc

/-- The text of a number begins with a digit or a minus. -/
theorem numberChars_head {n : Number} (hn : IsFloatFinite (.number n)) :
    ∃ c rest, numberChars n = c :: rest ∧ (c.isDigit = true ∨ c = '-') := by
  cases n with
  | int i =>
    obtain ⟨c, ds, hds, hc, -⟩ := Json.toDigits_head i.natAbs
    rw [numberChars, Json.toList_toString_int, hds]
    split
    · exact ⟨'-', _, rfl, .inr rfl⟩
    · exact ⟨c, ds, rfl, .inl hc⟩
  | float x =>
    obtain ⟨m, hm, hchars, -⟩ := FloatLayout.toml.renderChars_spec hn
    obtain ⟨c, rest, hhead, hc⟩ := hm.head_chars false
    rw [numberChars, hchars]
    cases x.negative
    · exact ⟨c, rest, hhead, .inl hc⟩
    · exact ⟨'-', _, rfl, .inr rfl⟩

/-- **A value without quotes** is read up to what is put after it. It begins with none of the
    characters that quotes and containers begin with. -/
theorem readValue_bare {word t : List Char} (hne : word ≠ [])
    (hword : ∀ c ∈ word, endsBare c = false) (ht : EndsValue t) (fuel depth : Nat) :
    readValue (fuel + 1) depth (word ++ t) = (readBare word).map fun item => (item, t) := by
  obtain ⟨c, rest, rfl⟩ := List.exists_cons_of_ne_nil hne
  have hc := hword c List.mem_cons_self
  have hhead (d : Char) (hd : endsBare d = true) : c ≠ d := by
    rintro rfl
    rw [hd] at hc
    cases hc
  -- no string begins here
  have hnone : readString? false (c :: rest ++ t) = none := by
    rw [List.cons_append]
    unfold readString?
    split
    · next heq => exact absurd (List.cons.inj heq).1 (hhead '"' (by decide))
    · next heq => exact absurd (List.cons.inj heq).1 (hhead '\'' (by decide))
    · next heq => exact absurd (List.cons.inj heq).1 (hhead '"' (by decide))
    · next heq => exact absurd (List.cons.inj heq).1 (hhead '\'' (by decide))
    · rfl
  rw [readValue, hnone]
  · simp only [bareWord_append hword ht, List.drop_left]
  · exact fun tail heq => hhead '[' (by decide) (List.cons.inj heq).1
  · exact fun tail heq => hhead '{' (by decide) (List.cons.inj heq).1

/-- A string is read up to what is put after it. -/
theorem readValue_string (s : String) {t : List Char} (ht : EndsValue t) (fuel depth : Nat) :
    readValue (fuel + 1) depth (stringChars s.toList ++ t) = .ok (.string s, t) := by
  have hread := readString_stringChars s.toList ht.endsString
  rw [String.ofList_toList] at hread
  rw [readValue, hread]
  · rfl
  · intro tail heq
    rw [heq] at hread
    cases hread
  · intro tail heq
    rw [heq] at hread
    cases hread

/-- What the first character of a value is not: neither skipped, nor the end of the list or
    mapping that it stands in. -/
def StartsValue (c : Char) : Prop := IsSolid c ∧ c ≠ ']' ∧ c ≠ '}'

/-- What begins a number begins a value. -/
theorem startsValue_of_number {c : Char} (h : c.isDigit = true ∨ c = '-') : StartsValue c := by
  have hne (d : Char) (hd : d.isDigit = false ∧ d ≠ '-') : c ≠ d := by
    rintro rfl
    rcases h with h | h
    · rw [hd.1] at h
      cases h
    · exact hd.2 h
  refine ⟨⟨?_, hne _ (by decide), hne _ (by decide), hne _ (by decide)⟩, hne _ (by decide),
    hne _ (by decide)⟩
  simp only [isBlank, Bool.or_eq_false_iff, beq_eq_false_iff_ne]
  exact ⟨hne _ (by decide), hne _ (by decide)⟩

/-- A string begins with one of the two quotes. -/
theorem stringChars_head (s : List Char) :
    ∃ c rest, stringChars s = c :: rest ∧ (c = '"' ∨ c = '\'') := by
  unfold stringChars
  cases valueStyle s
  · exact ⟨'"', _, rfl, .inl rfl⟩
  · exact ⟨'\'', _, rfl, .inr rfl⟩
  · exact ⟨'"', _, rfl, .inl rfl⟩
  · exact ⟨'\'', _, rfl, .inr rfl⟩

/-- The text of a value begins with none of the characters that are skipped before it or that
    close what it stands in. -/
theorem inline_head {v : Value} (hv : IsWritable v) :
    ∃ c rest, inline v = c :: rest ∧ StartsValue c := by
  rcases v with _ | (_ | _) | n | s | (_ | ⟨w, _ | ⟨u, rest⟩⟩) | (_ | ⟨⟨k, w⟩, rest⟩)
  case null => exact hv.2.2.elim
  case number =>
    obtain ⟨c, rest, hhead, hc⟩ := numberChars_head hv.2.1
    exact ⟨c, rest, hhead, startsValue_of_number hc⟩
  case string =>
    obtain ⟨c, rest, hhead, rfl | rfl⟩ := stringChars_head s.toList
    · exact ⟨_, rest, hhead, by unfold StartsValue IsSolid; decide⟩
    · exact ⟨_, rest, hhead, by unfold StartsValue IsSolid; decide⟩
  -- what is left begins with a letter of a truth value, a bracket or a brace
  all_goals exact ⟨_, _, rfl, by unfold StartsValue IsSolid; decide⟩

/-- What is no container is read back, unless it is an integer that is too great. Each kind is a
    case of its own. -/
theorem readValue_scalar {v : Value} (hv : IsWritable v) (hscalar : v.depth = 0) {t : List Char}
    (ht : EndsValue t) {fuel : Nat} (hfuel : 2 * (inline v).length ≤ fuel) (depth : Nat) :
    Yields (v.Every IsSigned ∧ v.depth ≤ depth) (readValue fuel depth (inline v ++ t))
      (Item.ofValue v, t) := by
  have hdepth : v.depth ≤ depth := by omega
  obtain ⟨c, rest, hhead, -⟩ := inline_head hv
  rw [hhead, List.length_cons] at hfuel
  obtain ⟨fuel, rfl⟩ : ∃ f, fuel = f + 1 := ⟨fuel - 1, by omega⟩
  have hnumber {n : Number} (hn : IsFloatFinite (.number n)) :
      readValue (fuel + 1) depth (numberChars n ++ t)
        = (readBare (numberChars n)).map fun item => (item, t) := by
    obtain ⟨c, rest, hhead, -⟩ := numberChars_head hn
    exact readValue_bare (by simp [hhead]) (numberChars_plain hn) ht fuel depth
  rcases v with _ | b | (i | x) | s | xs | es
  case null => exact hv.2.2.elim
  case bool =>
    refine .of_ok ?_ ⟨trivial, hdepth⟩
    have hword : (inline (.bool b)).all (! endsBare ·) = true := by cases b <;> rfl
    have hne : inline (.bool b) ≠ [] := by cases b <;> exact List.cons_ne_nil _ _
    rw [readValue_bare hne (fun c hc => by simpa using List.all_eq_true.mp hword c hc) ht]
    cases b <;> rfl
  case number.int =>
    have hread := (readBare_int hv.1.1).map fun item => (item, t)
    rw [← numberChars, ← hnumber (n := .int i) trivial] at hread
    exact hread.congr ⟨fun h => ⟨h, hdepth⟩, fun h => h.1⟩
  case number.float =>
    refine .of_ok ?_ ⟨trivial, hdepth⟩
    rw [inline, hnumber hv.2.1, numberChars, readBare_float hv.2.1]
    rfl
  case string => exact .of_ok (readValue_string s ht fuel depth) ⟨trivial, hdepth⟩
  case array => cases hscalar
  case object => cases hscalar

/-! ### Containers

A container is read on one level less than is left, and fails if none is. Its own lemma takes this
step, and the lemmas about items and entries stay on their level.
-/

/-- A value is found after blanks. -/
theorem skipSpace_inline {v : Value} (hv : IsWritable v) (n : Nat) (t : List Char) :
    skipSpace (List.replicate n ' ' ++ (inline v ++ t)) = .ok (inline v ++ t) := by
  obtain ⟨c, rest, hhead, hc⟩ := inline_head hv
  rw [hhead, List.cons_append]
  exact skipSpace_solid n hc.1 _

/-- The conditions on a list are those on its items, on one level less. -/
theorem fits_array {items : List Value} {depth : Nat} :
    (EveryItem IsSigned items ∧ Value.depthItems items ≤ depth)
      ↔ (Value.array items).Every IsSigned ∧ (Value.array items).depth ≤ depth + 1 := by
  simp [Every, IsSigned, Value.depth]

/-- The conditions on a mapping are those on its values, on one level less. -/
theorem fits_object {es : List (String × Value)} {depth : Nat} :
    (EveryEntry IsSigned es ∧ Value.depthEntries es ≤ depth)
      ↔ (Value.object es).Every IsSigned ∧ (Value.object es).depth ≤ depth + 1 := by
  simp [Every, IsSigned, Value.depth]

/-- The conditions on items are those on the first one and those on the others. -/
theorem fits_items {v : Value} {rest : List Value} {depth : Nat} :
    (v.Every IsSigned ∧ v.depth ≤ depth) ∧ (EveryItem IsSigned rest ∧ Value.depthItems rest ≤ depth)
      ↔ EveryItem IsSigned (v :: rest) ∧ Value.depthItems (v :: rest) ≤ depth := by
  rw [EveryItem, Value.depthItems, Nat.max_le]
  exact and_and_and_comm

/-- The conditions on entries are those on the value of the first one and those on the others. -/
theorem fits_entries {k : String} {v : Value} {rest : List (String × Value)} {depth : Nat} :
    (v.Every IsSigned ∧ v.depth ≤ depth)
        ∧ (EveryEntry IsSigned rest ∧ Value.depthEntries rest ≤ depth)
      ↔ EveryEntry IsSigned ((k, v) :: rest) ∧ Value.depthEntries ((k, v) :: rest) ≤ depth := by
  rw [EveryEntry, Value.depthEntries, Nat.max_le]
  exact and_and_and_comm

/-- A list is read if its items are, on one level less. Without a level that is left it fails,
    and then it is too deep. -/
theorem yields_array {items : List Value} {fuel : Nat} {s t : List Char}
    (h : ∀ d, Yields (EveryItem IsSigned items ∧ Value.depthItems items ≤ d) (readItems fuel d s)
      (Item.ofItems items, t)) (depth : Nat) :
    Yields ((Value.array items).Every IsSigned ∧ (Value.array items).depth ≤ depth)
      (readValue (fuel + 1) depth ('[' :: s)) (Item.ofValue (.array items), t) := by
  cases depth with
  | zero => exact .of_error rfl fun hfits => Nat.not_succ_le_zero _ hfits.2
  | succ d =>
    refine ((h d).bind_ok ?_).congr fits_array
    rfl

/-- A mapping is read if its entries are, on one level less. -/
theorem yields_object {es : List (String × Value)} {fuel : Nat} {s t : List Char}
    (h : ∀ d, Yields (EveryEntry IsSigned es ∧ Value.depthEntries es ≤ d) (readEntries fuel d [] s)
      (valueDrafts es, t)) (depth : Nat) :
    Yields ((Value.object es).Every IsSigned ∧ (Value.object es).depth ≤ depth)
      (readValue (fuel + 1) depth ('{' :: s)) (Item.ofValue (.object es), t) := by
  cases depth with
  | zero => exact .of_error rfl fun hfits => Nat.not_succ_le_zero _ hfits.2
  | succ d =>
    refine ((h d).bind_ok ?_).congr fits_object
    show Except.ok (Item.table (Draft.toEntries (valueDrafts es)), t) = _
    rw [toEntries_valueDrafts]
    rfl

/-- An item on a line of its own is read, and then the items after it. Whether the two succeed is
    given by two conditions, and both of them are needed. -/
theorem readItems_cons {v : Value} (hv : IsWritable v) {rest : List Value} {s t : List Char}
    {fuel depth : Nat} {fits fits' : Prop}
    (hfirst : Yields fits (readValue fuel depth (inline v ++ ',' :: s)) (Item.ofValue v, ',' :: s))
    (hrest : Yields fits' (readItems fuel depth s) (Item.ofItems rest, t)) :
    Yields (fits ∧ fits')
      (readItems (fuel + 1) depth ('\n' :: ' ' :: ' ' :: ' ' :: ' ' :: (inline v ++ ',' :: s)))
      (Item.ofItems (v :: rest), t) := by
  have hskip : skipSpace ('\n' :: ' ' :: ' ' :: ' ' :: ' ' :: (inline v ++ ',' :: s))
      = .ok (inline v ++ ',' :: s) := skipSpace_inline hv 4 _
  have hcomma : skipSpace (',' :: s) = .ok (',' :: s) :=
    skipSpace_solid 0 (by unfold IsSolid; decide) s
  obtain ⟨c, others, hhead, hc⟩ := inline_head hv
  rw [readItems, hskip, ok_bind]
  split
  · -- no closing bracket stands here
    next heq =>
    rw [hhead] at heq
    exact absurd (List.cons.inj heq).1 hc.2.1
  · refine hfirst.bind ?_
    simp only [hcomma, ok_bind]
    exact hrest.bind_ok rfl

/-- The only item of a list is read, and then the closing bracket right after it. -/
theorem readItems_single {v : Value} (hv : IsWritable v) {t : List Char} {fuel depth : Nat}
    {fits : Prop}
    (hread : Yields fits (readValue fuel depth (inline v ++ ']' :: t)) (Item.ofValue v, ']' :: t)) :
    Yields fits (readItems (fuel + 1) depth (inline v ++ ']' :: t)) (Item.ofItems [v], t) := by
  have hskip : skipSpace (inline v ++ ']' :: t) = .ok (inline v ++ ']' :: t) :=
    skipSpace_inline hv 0 _
  have hclose : skipSpace (']' :: t) = .ok (']' :: t) :=
    skipSpace_solid 0 (by unfold IsSolid; decide) t
  obtain ⟨c, others, hhead, hc⟩ := inline_head hv
  rw [readItems, hskip, ok_bind]
  split
  · -- no closing bracket stands here
    next heq =>
    rw [hhead] at heq
    exact absurd (List.cons.inj heq).1 hc.2.1
  · refine hread.bind_ok ?_
    simp only [hclose, ok_bind]
    rfl

/-- The text of an entry of a mapping on one line, with what follows it. -/
def entryChars (k : String) (v : Value) (s : List Char) : List Char :=
  ' ' :: (keyChars k.toList ++ ' ' :: '=' :: ' ' :: (inline v ++ s))

/-- The key of an entry is read up to its value. -/
theorem readKeyAndSign_inline (k : String) {v : Value} (hv : IsWritable v) (s : List Char) :
    readKeyAndSign (keyChars k.toList ++ ' ' :: '=' :: ' ' :: (inline v ++ s))
      = .ok (⟨[], k⟩, inline v ++ s) := by
  obtain ⟨c, rest, hhead, hc⟩ := inline_head hv
  have hblank : skipBlanks (inline v ++ s) = inline v ++ s := by
    rw [hhead, List.cons_append, skipBlanks, List.dropWhile_cons, hc.1.1]
    rfl
  rw [readKeyAndSign_keyChars, hblank]

/-- No key begins with a closing brace. -/
theorem keyChars_ne_close (k : String) (s rest : List Char) :
    keyChars k.toList ++ s ≠ '}' :: rest := by
  obtain ⟨c, others, hkey, hc⟩ := keyChars_head k.toList
  rw [hkey, List.cons_append]
  intro heq
  exact hc.ne (by decide) (List.cons.inj heq).1

section Entry

variable {k : String} {v : Value} {done : Entries Draft} {s t : List Char} {fuel depth : Nat}
  {fits fits' : Prop}

/-- An entry of a mapping is read and defined, and then the entries after it, with one more that
    is `done`. -/
theorem readEntries_cons (hv : IsWritable v) (hk : k ∉ Entries.keys done) {result : Entries Draft}
    (hfirst : Yields fits (readValue fuel depth (inline v ++ ',' :: s)) (Item.ofValue v, ',' :: s))
    (hrest : Yields fits' (readEntries fuel depth (done ++ [(k, .value (Item.ofValue v))]) s)
      (result, t)) :
    Yields (fits ∧ fits') (readEntries (fuel + 1) depth done (entryChars k v (',' :: s)))
      (result, t) := by
  have hskip : skipSpace (entryChars k v (',' :: s))
      = .ok (keyChars k.toList ++ ' ' :: '=' :: ' ' :: (inline v ++ ',' :: s)) :=
    skipSpace_keyChars 1 _ _
  have hcomma : skipSpace (',' :: s) = .ok (',' :: s) :=
    skipSpace_solid 0 (by unfold IsSolid; decide) s
  rw [readEntries, hskip, ok_bind]
  split
  · -- no closing brace stands here
    next heq => exact absurd heq (keyChars_ne_close k _ _)
  · rw [readKeyAndSign_inline k hv, ok_bind]
    refine hfirst.bind ?_
    simp only [define_new hk, ok_bind, hcomma]
    exact hrest

/-- The last entry of a mapping is read and defined, and then the closing brace after a blank. -/
theorem readEntries_last (hv : IsWritable v) (hk : k ∉ Entries.keys done)
    (hread : Yields fits (readValue fuel depth (inline v ++ ' ' :: '}' :: t))
      (Item.ofValue v, ' ' :: '}' :: t)) :
    Yields fits (readEntries (fuel + 1) depth done (entryChars k v (' ' :: '}' :: t)))
      (done ++ [(k, .value (Item.ofValue v))], t) := by
  have hskip : skipSpace (entryChars k v (' ' :: '}' :: t))
      = .ok (keyChars k.toList ++ ' ' :: '=' :: ' ' :: (inline v ++ ' ' :: '}' :: t)) :=
    skipSpace_keyChars 1 _ _
  have hclose : skipSpace (' ' :: '}' :: t) = .ok ('}' :: t) :=
    skipSpace_solid 1 (by unfold IsSolid; decide) t
  rw [readEntries, hskip, ok_bind]
  split
  · next heq => exact absurd heq (keyChars_ne_close k _ _)
  · rw [readKeyAndSign_inline k hv, ok_bind]
    refine hread.bind_ok ?_
    simp only [define_new hk, ok_bind, hclose]
    rfl

end Entry

/-! ### The text of containers, with what follows it

The writer makes the text of a container as a whole, and the reader goes through it with something
behind. These equations put the two in one form: the head of the text, and what is left.
-/

/-- A list of several items is its bracket, a line for each item, and the closing bracket. -/
theorem inline_array_append (v w : Value) (rest : List Value) (t : List Char) :
    inline (.array (v :: w :: rest)) ++ t
      = '[' :: '\n' :: (inlineItems (v :: w :: rest) ++ ']' :: t) := by
  simp [inline]

/-- An item is a line with four blanks before it and a comma behind, before the lines of the
    others. The break before the item belongs to the bracket or to the comma before. -/
theorem inlineItems_append (v : Value) (rest : List Value) (t : List Char) :
    '\n' :: (inlineItems (v :: rest) ++ t)
      = '\n' :: ' ' :: ' ' :: ' ' :: ' ' ::
        (inline v ++ ',' :: ('\n' :: (inlineItems rest ++ t))) := by
  simp [inlineItems]

/-- A mapping: what stands before its first entry is one character less than a comma and a
    blank, or the blank before the closing brace. -/
theorem inline_object_append (es : List (String × Value)) (t : List Char) :
    inline (.object es) ++ t = '{' :: (inlineEntries es ++ ' ' :: '}' :: t).tail := by
  cases es with
  | nil => rfl
  | cons e rest => simp [inline, inlineEntries]

/-- One more entry is a comma and its text before the others. -/
theorem inlineEntries_append (k : String) (v : Value) (rest : List (String × Value))
    (t : List Char) :
    inlineEntries ((k, v) :: rest) ++ t = ',' :: entryChars k v (inlineEntries rest ++ t) := by
  simp [inlineEntries, entryChars]

/-! ### Values -/

mutual

-- Every step that reads takes one of the fuel and is for a character of the text, or for the
-- end of a container; twice the length of the text is enough for both.

/-- **A value on one line is read as it was written** if its integers have 64 bits with their
    sign and its containers nest no deeper than they may, and only then. -/
theorem readValue_inline : ∀ {v : Value}, Every IsWritable v → ∀ {t : List Char}, EndsValue t →
    ∀ {fuel : Nat}, 2 * (inline v).length ≤ fuel → ∀ depth : Nat,
      Yields (v.Every IsSigned ∧ v.depth ≤ depth) (readValue fuel depth (inline v ++ t))
        (Item.ofValue v, t)
  | .array [], _, t, _, fuel, hfuel, depth => by
    simp only [inline, List.length_cons, List.length_nil] at hfuel
    obtain ⟨fuel, rfl⟩ : ∃ f, fuel = f + 2 := ⟨fuel - 2, by omega⟩
    have hread (d : Nat) : Yields (EveryItem IsSigned [] ∧ Value.depthItems [] ≤ d)
        (readItems (fuel + 1) d (']' :: t)) (Item.ofItems [], t) := by
      refine .of_ok ?_ ⟨trivial, Nat.zero_le d⟩
      rw [readItems]
      rfl
    exact yields_array hread depth
  | .array [v], hv, t, _, fuel, hfuel, depth => by
    obtain ⟨-, hv, -⟩ := hv
    simp only [inline, List.length_cons, List.length_append, List.length_nil] at hfuel
    obtain ⟨fuel, rfl⟩ : ∃ f, fuel = f + 2 := ⟨fuel - 2, by omega⟩
    have hread (d : Nat) := readValue_inline hv (t := ']' :: t) (.inl ⟨_, _, rfl, .inr (.inr rfl)⟩)
      (show _ ≤ fuel by omega) d
    have hform : inline (.array [v]) ++ t = '[' :: (inline v ++ ']' :: t) := by simp [inline]
    rw [hform]
    refine yields_array (fun d => ?_) depth
    refine (readItems_single hv.head (hread d)).congr ?_
    simp [EveryItem, Value.depthItems]
  | .array (v :: w :: rest), hv, t, _, fuel, hfuel, depth => by
    simp only [inline, List.length_cons, List.length_append, List.length_nil] at hfuel
    obtain ⟨fuel, rfl⟩ : ∃ f, fuel = f + 1 := ⟨fuel - 1, by omega⟩
    rw [inline_array_append]
    exact yields_array (readItems_inline hv.2 (show _ ≤ fuel by omega)) depth
  | .object es, hv, t, _, fuel, hfuel, depth => by
    have hlength : (inline (.object es)).length + t.length
        = (inlineEntries es).length + 2 + t.length := by
      rw [← List.length_append, inline_object_append]
      simp only [List.length_cons, List.length_tail, List.length_append]
      omega
    obtain ⟨fuel, rfl⟩ : ∃ f, fuel = f + 1 := ⟨fuel - 1, by omega⟩
    rw [inline_object_append]
    have hkeys : (Entries.keys ([] : Entries Draft) ++ Entries.keys es).Nodup := hv.1.1
    exact yields_object (readEntries_inline hv.2 hkeys (show _ ≤ fuel by omega)) depth
  | .null, hv, _, ht, _, hfuel, depth => readValue_scalar hv rfl ht hfuel depth
  | .bool _, hv, _, ht, _, hfuel, depth => readValue_scalar hv rfl ht hfuel depth
  | .number _, hv, _, ht, _, hfuel, depth => readValue_scalar hv rfl ht hfuel depth
  | .string _, hv, _, ht, _, hfuel, depth => readValue_scalar hv rfl ht hfuel depth

/-- The items of a list of several, each on a line of its own, are read up to the closing
    bracket. -/
theorem readItems_inline : ∀ {items : List Value}, EveryItem IsWritable items → ∀ {t : List Char}
    {fuel : Nat}, 2 * (inlineItems items).length + 1 ≤ fuel → ∀ depth : Nat,
      Yields (EveryItem IsSigned items ∧ Value.depthItems items ≤ depth)
        (readItems fuel depth ('\n' :: (inlineItems items ++ ']' :: t))) (Item.ofItems items, t)
  | [], _, t, fuel, hfuel, depth => by
    obtain ⟨fuel, rfl⟩ : ∃ f, fuel = f + 1 := ⟨fuel - 1, by omega⟩
    refine .of_ok ?_ ⟨trivial, Nat.zero_le depth⟩
    rw [readItems]
    rfl
  | v :: rest, hv, t, fuel, hfuel, depth => by
    obtain ⟨hv, hrest⟩ := hv
    simp only [inlineItems, List.length_cons, List.length_append] at hfuel
    obtain ⟨fuel, rfl⟩ : ∃ f, fuel = f + 1 := ⟨fuel - 1, by omega⟩
    have hfirst := readValue_inline hv (t := ',' :: ('\n' :: (inlineItems rest ++ ']' :: t)))
      (.inl ⟨_, _, rfl, .inr (.inl rfl)⟩) (show _ ≤ fuel by omega) depth
    rw [inlineItems_append]
    exact (readItems_cons hv.head hfirst
      (readItems_inline hrest (show _ ≤ fuel by omega) depth)).congr fits_items

/-- The entries of a mapping are read and defined after those that are `done`, up to the closing
    brace. -/
theorem readEntries_inline : ∀ {es : List (String × Value)}, EveryEntry IsWritable es →
    ∀ {done : Entries Draft}, (Entries.keys done ++ Entries.keys es).Nodup → ∀ {t : List Char}
      {fuel : Nat}, 2 * (inlineEntries es).length + 1 ≤ fuel → ∀ depth : Nat,
        Yields (EveryEntry IsSigned es ∧ Value.depthEntries es ≤ depth)
          (readEntries fuel depth done (inlineEntries es ++ ' ' :: '}' :: t).tail)
          (done ++ valueDrafts es, t)
  | [], _, done, _, t, fuel, hfuel, depth => by
    obtain ⟨fuel, rfl⟩ : ∃ f, fuel = f + 1 := ⟨fuel - 1, by omega⟩
    refine .of_ok ?_ ⟨trivial, Nat.zero_le depth⟩
    rw [valueDrafts, List.map_nil, List.append_nil, readEntries]
    rfl
  | (k, v) :: rest, hv, done, hkeys, t, fuel, hfuel, depth => by
    obtain ⟨hv, hrest⟩ := hv
    simp only [inlineEntries, List.length_cons, List.length_append] at hfuel
    obtain ⟨fuel, rfl⟩ : ∃ f, fuel = f + 1 := ⟨fuel - 1, by omega⟩
    have hk : k ∉ Entries.keys done := by
      intro hmem
      exact (List.nodup_append.mp hkeys).2.2 k hmem k List.mem_cons_self rfl
    have hnext :
      (Entries.keys (done ++ [(k, .value (Item.ofValue v))]) ++ Entries.keys rest).Nodup := by
      simpa [Entries.keys] using hkeys
    have hlater := readEntries_inline hrest hnext (t := t) (show _ ≤ fuel by omega) depth
    rw [List.append_assoc] at hlater
    rw [inlineEntries_append, List.tail_cons]
    -- the last entry is followed by the brace, all others by a comma
    cases rest with
    | nil =>
      have hread := readValue_inline hv (t := ' ' :: '}' :: t) (.inr ⟨_, rfl⟩)
        (show _ ≤ fuel by omega) depth
      refine (readEntries_last hv.head hk hread).congr ?_
      simp [EveryEntry, Value.depthEntries]
    | cons e rest =>
      have hfirst := readValue_inline hv
        (t := ',' :: (inlineEntries (e :: rest) ++ ' ' :: '}' :: t).tail)
        (.inl ⟨_, _, rfl, .inr (.inl rfl)⟩) (show _ ≤ fuel by omega) depth
      exact (readEntries_cons hv.head hk hfirst hlater).congr fits_entries

end

end SchemaEmbed.Toml
