import SchemaEmbed.Proofs.Json.Members
import SchemaEmbed.Proofs.Json.NumeralEnd
import SchemaEmbed.Proofs.Json.Shape

namespace SchemaEmbed.Json

/-!
# What is read of a text that was written

The reader scales a significand by powers of ten, with an error at each step, so that a float may
be read as another one than was written. Everything else is read as it was written. This is made
exact here, without saying which floats change:

* `NumberReadsAs` / `ReadsAs` — what a number, and so a value, is read as;
* `value_number_iff` — a number is read alike alone and in a text;
* `value_pretty_iff` — **what a value is read as**, whatever floats it has;
* `numberChars_inj` / `pretty_inj` — values that differ in nothing but numbers have different
  texts;
* `parse_render_iff` / `parse_render_self_iff` — so a text is read and written again as it was
  exactly if every float in it is read as itself.

A number has the text that is the shortest for it, so that two numbers never share one. Hence a
text that is written again as it was has been read as what it was written from.
-/

open Value (Every EveryItem EveryEntry IsWellFormed IsFloatFree IsFloatFinite)

/-! ### Numbers

How a numeral is read does not depend on what stands after it, as long as that ends it: it is read
as one number in every such place, or fails in all of them. So the number alone can stand for the
number in a text.
-/

/-- The digits, the point and the exponent of a decimal are those of a number in JSON. -/
theorem isUnsigned_chars {n : Numeral} (hn : n.Valid) (plus : Bool) :
    IsUnsigned (n.chars plus) := by
  have hdigits {ds : List Char} (hds : ∀ c ∈ ds, c ∈ n.digits) : ∀ c ∈ ds, isDigit c = true :=
    fun c hc => isDigit_of_isDigit (hn.digits c (hds c hc))
  refine ⟨n.whole, _, List.append_assoc _ _ _, ?_, _, _, rfl, ?_, ?_⟩
  · have hwhole : IsDigits n.whole := ⟨hn.whole_ne_nil, hdigits fun c => List.mem_append_left _⟩
    rcases hn.not_padded with hzero | hhead
    · rw [hzero]
      exact .zero
    · obtain ⟨c, ds, hcons⟩ := List.exists_cons_of_ne_nil hn.whole_ne_nil
      rw [hcons] at hwhole hhead ⊢
      exact .digits (fun hc => hhead (congrArg some hc)) hwhole
  · unfold Numeral.fractionChars
    split
    · exact .none
    · next hne =>
      exact .some ⟨fun hnil => hne (by rw [hnil]; rfl), hdigits fun c => List.mem_append_right _⟩
  · -- the sign of an exponent depends on the layout, and each sign is allowed
    cases n.exponent with
    | none => exact .none
    | some e =>
      obtain ⟨c, ds, hds, -⟩ := toDigits_head e.natAbs
      have hpower : IsDigits (FloatLayout.digits e.natAbs) :=
        ⟨by rw [FloatLayout.digits, hds]; exact List.cons_ne_nil _ _,
          fun d hd => isDigit_of_mem_toDigits hd⟩
      refine .some (.inl rfl) ?_ hpower
      split
      · exact .inr (.inr rfl)
      · split
        · exact .inr (.inl rfl)
        · exact .inl rfl

/-- The text of a number is one that the grammar has for numbers. -/
theorem isNumeral_numberChars {n : Number} (hn : IsFloatFinite (.number n)) :
    IsNumeral (numberChars n) := by
  cases n with
  | int i =>
    have hdigits : IsUnsigned (Nat.toDigits 10 i.natAbs) := by
      refine ⟨_, [], (List.append_nil _).symm, ?_, [], [], rfl, .none, .none⟩
      by_cases hzero : i.natAbs = 0
      · rw [hzero]
        exact .zero
      · obtain ⟨c, ds, hds, -, hc⟩ := toDigits_head i.natAbs
        have hall : IsDigits (Nat.toDigits 10 i.natAbs) :=
          ⟨by rw [hds]; exact List.cons_ne_nil _ _, fun d hd => isDigit_of_mem_toDigits hd⟩
        rw [hds] at hall ⊢
        exact .digits (hc hzero) hall
    rw [numberChars, toList_toString_int]
    split
    · exact .inr ⟨_, rfl, hdigits⟩
    · exact .inl hdigits
  | float x =>
    obtain ⟨m, hm, hchars, -⟩ := FloatLayout.json.renderChars_spec hn
    rw [numberChars, hchars]
    split
    · exact .inr ⟨_, rfl, isUnsigned_chars hm _⟩
    · exact .inl (isUnsigned_chars hm _)

/-- Where a value is expected, a numeral is read whatever follows it, or not whatever does. -/
theorem value_numeral {s : List Char} (hs : IsNumeral s) :
    (∃ n, ∀ fuel depth rest, Ends rest →
        value (fuel + 1) depth (s ++ rest) = .ok (.number n, rest))
      ∨ ∀ fuel depth rest, Ends rest → ∃ f, value (fuel + 1) depth (s ++ rest) = .error f := by
  -- the minus is read by `value`, and all else by `numeral`
  obtain ⟨negative, t, ht, hvalue⟩ : ∃ negative t, IsUnsigned t ∧ ∀ fuel depth rest,
      value (fuel + 1) depth (s ++ rest)
        = (numeral negative (t ++ rest)).map fun p => (.number p.1, p.2) := by
    rcases hs with hs | ⟨t, rfl, ht⟩
    · refine ⟨false, s, hs, fun fuel depth rest => ?_⟩
      obtain ⟨c, t, rfl, hc⟩ : ∃ c t, s = c :: t ∧ isDigit c = true := by
        obtain ⟨whole, tail, rfl, hwhole, -⟩ := hs
        cases hwhole with
        | zero => exact ⟨'0', tail, rfl, by decide⟩
        | digits _ hdigits => exact ⟨_, _, rfl, hdigits.2 _ List.mem_cons_self⟩
      exact value_digit fuel depth hc (t ++ rest)
    · refine ⟨true, t, ht, fun fuel depth rest => ?_⟩
      rw [List.cons_append, value, skipBlanks_of_not_blank (by decide)]
      rfl
  -- what stands after the numeral makes no difference, neither to the number nor to a failure
  rcases numeral_uniform negative ht with ⟨n, hn⟩ | hfails
  · refine .inl ⟨n, fun fuel depth rest hrest => ?_⟩
    have hnumeral : numeral negative (t ++ rest) = .ok (n, rest) := hn rest hrest
    rw [hvalue, hnumeral]
    rfl
  · refine .inr fun fuel depth rest hrest => ?_
    obtain ⟨f, hnumeral⟩ : ∃ f, numeral negative (t ++ rest) = .error f := hfails rest hrest
    exact ⟨f, by rw [hvalue, hnumeral]; rfl⟩

/-- Whether the text of a number alone is read as a number. -/
def NumberReadsAs (n m : Number) : Prop := parse (String.ofList (numberChars n)) = .ok (.number m)

/-- Whether the text of a number is read as a number, in terms of characters. -/
theorem numberReadsAs_iff {n m : Number} :
    NumberReadsAs n m ↔ parseChars (numberChars n) = .ok (.number m) := by
  rw [NumberReadsAs, parse_eq_ok_iff, String.toList_ofList]

/-- **A number** is read alike alone and in a text: as the same number, or not at all. -/
theorem value_number_iff {n : Number} (hn : IsFloatFinite (.number n)) (fuel depth : Nat)
    {rest left : List Char} {w : Value} (hrest : Ends rest) :
    value (fuel + 1) depth (numberChars n ++ rest) = .ok (w, left)
      ↔ (∃ m, w = .number m ∧ NumberReadsAs n m) ∧ left = rest := by
  have hnil : Ends [] := by simp [Ends]
  simp only [numberReadsAs_iff]
  rcases value_numeral (isNumeral_numberChars hn) with ⟨m, hm⟩ | hfails
  · have halone : parseChars (numberChars n) = .ok (.number m) := by
      have hvalue := hm (2 * (numberChars n).length + 1) maxDepth [] hnil
      rw [List.append_nil] at hvalue
      rw [parseChars, hvalue]
      rfl
    rw [hm _ _ _ hrest, halone]
    constructor
    · intro h
      cases h
      exact ⟨⟨m, rfl, rfl⟩, rfl⟩
    · rintro ⟨⟨m', rfl, hm'⟩, rfl⟩
      cases hm'
      rfl
  · have halone : ∃ f, parseChars (numberChars n) = .error f := by
      obtain ⟨f, hvalue⟩ := hfails (2 * (numberChars n).length + 1) maxDepth [] hnil
      rw [List.append_nil] at hvalue
      exact ⟨f, by rw [parseChars, hvalue]; rfl⟩
    obtain ⟨f, hf⟩ := hfails fuel depth rest hrest
    obtain ⟨f', hf'⟩ := halone
    rw [hf, hf']
    constructor
    · intro h
      cases h
    · rintro ⟨⟨m', -, hm'⟩, -⟩
      cases hm'

/-- An integer in range is read as itself and as nothing else. It has no fraction and no
    exponent, so nothing is scaled. -/
theorem numberReadsAs_int {i : Int} (hmin : Number.minInt ≤ i) (hmax : i ≤ Number.maxInt)
    {m : Number} : NumberReadsAs (.int i) m ↔ m = .int i := by
  have hnil : Ends [] := by simp [Ends]
  have hvalue := value_int 0 0 hmin hmax hnil
  have hint : IsFloatFinite (.number (.int i)) := trivial
  -- the text alone is the text with nothing after it
  have hiff : value 1 0 (numberChars (.int i) ++ []) = .ok (.number m, []) ↔ _ :=
    value_number_iff hint 0 0 hnil
  rw [numberChars, hvalue] at hiff
  constructor
  · intro h
    cases hiff.mpr ⟨⟨m, rfl, h⟩, rfl⟩
    rfl
  · rintro rfl
    obtain ⟨⟨m, hm, h⟩, -⟩ := hiff.mp rfl
    cases hm
    exact h

/-- The text of a float is not that of an integer, since it has a point or an exponent. -/
theorem numberChars_int_ne_float (i : Int) {x : Binary64} (hx : x.isFinite = true) :
    numberChars (.int i) ≠ numberChars (.float x) := by
  obtain ⟨n, hn, hchars, -⟩ := FloatLayout.json.renderChars_spec hx
  have hmark : '.' ∈ numberChars (.float x) ∨ 'e' ∈ numberChars (.float x) := by
    rw [numberChars, hchars]
    exact (hn.mem_chars _).imp (List.mem_append_right _) (List.mem_append_right _)
  have hdigits : ∀ c ∈ numberChars (.int i), isDigit c = true ∨ c = '-' := by
    rw [numberChars, toList_toString_int]
    split
    · exact List.forall_mem_cons.mpr ⟨.inr rfl, fun c hc => .inl (isDigit_of_mem_toDigits hc)⟩
    · exact fun c hc => .inl (isDigit_of_mem_toDigits hc)
  intro heq
  rw [← heq] at hmark
  rcases hmark with h | h
  · exact absurd (hdigits _ h) (by decide)
  · exact absurd (hdigits _ h) (by decide)

/-- **The text of a number tells it**: numbers that have the same text are the same, down to the
    sign of zero. -/
theorem numberChars_inj {n m : Number} (hn : IsHeld (.number n)) (hm : IsHeld (.number m))
    (h : numberChars n = numberChars m) : n = m := by
  rcases n with i | x <;> rcases m with j | y
  · have hreads := (numberReadsAs_int hn.1.1 hn.1.2).mpr (rfl : Number.int i = _)
    rw [NumberReadsAs, h] at hreads
    exact (numberReadsAs_int hm.1.1 hm.1.2).mp hreads
  · exact absurd h (numberChars_int_ne_float i hm.2)
  · exact absurd h.symm (numberChars_int_ne_float j hn.2)
  · obtain ⟨a, ha, hx, -, heqx⟩ := FloatLayout.json.renderChars_spec hn.2
    obtain ⟨b, hb, hy, -, heqy⟩ := FloatLayout.json.renderChars_spec hm.2
    rw [numberChars, numberChars, hx, hy] at h
    -- what begins with a minus is negative, because a numeral begins with a digit
    obtain ⟨c, s, hc, hdigit⟩ := ha.head_chars FloatLayout.json.plus
    obtain ⟨d, t, hd, hdigit'⟩ := hb.head_chars FloatLayout.json.plus
    have hsign : x.negative = y.negative
        ∧ a.chars FloatLayout.json.plus = b.chars FloatLayout.json.plus := by
      cases hxn : x.negative <;> cases hyn : y.negative <;> rw [hxn, hyn] at h
      · exact ⟨rfl, h⟩
      · rw [hc] at h
        cases h
        cases hdigit
      · rw [hd] at h
        cases h
        cases hdigit'
      · exact ⟨rfl, (List.cons.inj h).2⟩
    obtain rfl := ha.chars_inj hb hsign.2
    rw [← heqx, ← heqy, hsign.1]

/-! ### Values -/

/-- What a value is read as once it was written: itself but for its numbers. -/
inductive ReadsAs : Value → Value → Prop
  | null : ReadsAs .null .null
  | bool (b : Bool) : ReadsAs (.bool b) (.bool b)
  | string (s : String) : ReadsAs (.string s) (.string s)
  | number {n m : Number} (h : NumberReadsAs n m) : ReadsAs (.number n) (.number m)
  | array {vs ws : List Value} (h : List.Forall₂ ReadsAs vs ws) : ReadsAs (.array vs) (.array ws)
  | object {es fs : List (String × Value)} (keys : Entries.keys es = Entries.keys fs)
    (values : List.Forall₂ ReadsAs (es.map Prod.snd) (fs.map Prod.snd)) :
    ReadsAs (.object es) (.object fs)

/-- What members are read as: the same keys, and what their values are read as. -/
def MembersReadAs (es fs : List (String × Value)) : Prop :=
  Entries.keys es = Entries.keys fs
    ∧ List.Forall₂ ReadsAs (es.map Prod.snd) (fs.map Prod.snd)

/-- No members are read as no members. -/
theorem membersReadAs_nil_iff {fs : List (String × Value)} : MembersReadAs [] fs ↔ fs = [] := by
  constructor
  · rintro ⟨hkeys, -⟩
    exact List.map_eq_nil_iff.mp hkeys.symm
  · rintro rfl
    exact ⟨rfl, .nil⟩

/-- A member and others are read as a member with the same key and what the others are read as.
    This is what takes the two conditions on keys and on values apart together. -/
theorem membersReadAs_cons_iff {k : String} {v : Value} {es fs : List (String × Value)} :
    MembersReadAs ((k, v) :: es) fs
      ↔ ∃ w fs', fs = (k, w) :: fs' ∧ ReadsAs v w ∧ MembersReadAs es fs' := by
  constructor
  · rintro ⟨hkeys, hvalues⟩
    cases fs with
    | nil => cases hkeys
    | cons f fs =>
      obtain ⟨l, w⟩ := f
      obtain ⟨rfl, hrest⟩ := List.cons.inj hkeys
      obtain ⟨hw, hvalues⟩ := List.forall₂_cons.mp hvalues
      exact ⟨w, fs, rfl, hw, hrest, hvalues⟩
  · rintro ⟨w, fs', rfl, hw, hkeys, hvalues⟩
    exact ⟨congrArg (k :: ·) hkeys, .cons hw hvalues⟩

/-! ### What is read, and when

The reader meets the text of a container as it met that of a plain value, but for what the numbers
in it become. So results are described by a relation in the place of a value.
-/

/-- Whether what is read is what `R` says, with `rest` left, and is read exactly if it fits. -/
def ReadsIff {α : Type} (fits : Prop) (R : α → Prop) (rest : List Char)
    (r : Except Fault (α × List Char)) : Prop :=
  ∀ a left, r = .ok (a, left) ↔ fits ∧ R a ∧ left = rest

namespace ReadsIff

variable {α : Type} {fits fits' : Prop} {R R' : α → Prop} {mid rest : List Char}

/-- What is read, and when, can be said in any other way. -/
theorem congr {r : Except Fault (α × List Char)} (h : ReadsIff fits R rest r)
    (hfits : fits ↔ fits') (hR : ∀ a, R a ↔ R' a) : ReadsIff fits' R' rest r :=
  fun a left => (h a left).trans (and_congr hfits (and_congr_left' (hR a)))

/-- A reading with one result is described by it. -/
theorem of_ok {a : α} {r : Except Fault (α × List Char)} (h : r = .ok (a, rest)) (hfits : fits)
    (hR : ∀ b, R b ↔ b = a) : ReadsIff fits R rest r := by
  intro b left
  rw [h, hR]
  constructor
  · intro heq
    cases heq
    exact ⟨hfits, rfl, rfl⟩
  · rintro ⟨-, rfl, rfl⟩
    rfl

/-- A result that is changed after it was read. -/
theorem map {β : Type} {r : Except Fault (α × List Char)} (h : ReadsIff fits R rest r) (f : α → β) :
    ReadsIff fits (fun b => ∃ a, b = f a ∧ R a) rest (r.map fun p => (f p.1, p.2)) := by
  intro b left
  rw [map_eq_ok_iff]
  constructor
  · rintro ⟨⟨a, left⟩, ha, heq⟩
    cases heq
    obtain ⟨hfits, hR, hleft⟩ := (h _ _).mp ha
    exact ⟨hfits, ⟨a, rfl, hR⟩, hleft⟩
  · rintro ⟨hfits, ⟨a, rfl, hR⟩, hleft⟩
    exact ⟨(a, left), (h _ _).mpr ⟨hfits, hR, hleft⟩, rfl⟩

/-- An item and the items after it are read exactly if both are. -/
theorem items {first : Bool} {s text : List Char} {fuel depth : Nat} {R : Value → Prop}
    {R' : List Value → Prop} (hahead : itemAhead first s = .ok (.entry text))
    (hv : ReadsIff fits R mid (value fuel depth text))
    (hvs : ReadsIff fits' R' rest (Json.items fuel depth false mid)) :
    ReadsIff (fits ∧ fits') (fun ws => ∃ w ws', R w ∧ R' ws' ∧ ws = w :: ws') rest
      (Json.items (fuel + 1) depth first s) := by
  intro ws left
  rw [Json.items, hahead, ok_bind]
  constructor
  · intro h
    obtain ⟨⟨w, after⟩, hw, h⟩ := bind_eq_ok_iff.mp h
    obtain ⟨⟨ws', left'⟩, hws, h⟩ := bind_eq_ok_iff.mp h
    cases h
    obtain ⟨hfits, hR, rfl⟩ := (hv _ _).mp hw
    obtain ⟨hfits', hR', rfl⟩ := (hvs _ _).mp hws
    exact ⟨⟨hfits, hfits'⟩, ⟨w, ws', hR, hR', rfl⟩, rfl⟩
  · rintro ⟨⟨hfits, hfits'⟩, ⟨w, ws', hR, hR', rfl⟩, rfl⟩
    refine bind_eq_ok_iff.mpr ⟨(w, mid), (hv _ _).mpr ⟨hfits, hR, rfl⟩, ?_⟩
    exact bind_eq_ok_iff.mpr ⟨(ws', left), (hvs _ _).mpr ⟨hfits', hR', rfl⟩, rfl⟩

/-- A member and the members after it are read exactly if both are. -/
theorem members (key : String) {first : Bool} {s text : List Char} {fuel depth : Nat}
    {R : Value → Prop} {R' : List (String × Value) → Prop}
    (hahead : memberAhead first s
      = .ok (.entry (key.toList.flatMap escape ++ '"' :: ':' :: ' ' :: text)))
    (hv : ReadsIff fits R mid (value (fuel + 1) depth text))
    (hes : ReadsIff fits' R' rest (Json.members (fuel + 1) depth false mid)) :
    ReadsIff (fits ∧ fits') (fun fs => ∃ w fs', fs = (key, w) :: fs' ∧ R w ∧ R' fs') rest
      (Json.members (fuel + 2) depth first s) := by
  have hblank : value (fuel + 1) depth (' ' :: text) = value (fuel + 1) depth text := by
    rw [value, value]
    rfl
  intro fs left
  rw [Json.members, hahead, ok_bind]
  simp only [decode_encode, ok_bind]
  rw [show colon (':' :: ' ' :: text) = .ok (' ' :: text) from rfl, ok_bind, hblank]
  constructor
  · intro h
    obtain ⟨⟨w, after⟩, hw, h⟩ := bind_eq_ok_iff.mp h
    obtain ⟨⟨fs', left'⟩, hfs, h⟩ := bind_eq_ok_iff.mp h
    cases h
    obtain ⟨hfits, hR, rfl⟩ := (hv _ _).mp hw
    obtain ⟨hfits', hR', rfl⟩ := (hes _ _).mp hfs
    exact ⟨⟨hfits, hfits'⟩, ⟨w, fs', rfl, hR, hR'⟩, rfl⟩
  · rintro ⟨⟨hfits, hfits'⟩, ⟨w, fs', rfl, hR, hR'⟩, rfl⟩
    refine bind_eq_ok_iff.mpr ⟨(w, mid), (hv _ _).mpr ⟨hfits, hR, rfl⟩, ?_⟩
    exact bind_eq_ok_iff.mpr ⟨(fs', left), (hes _ _).mpr ⟨hfits', hR', rfl⟩, rfl⟩

/-- A list is read if its items are with one container less to nest in, and as what they are read
    as. -/
theorem array {fuel n : Nat} {s : List Char} {vs : List Value}
    (h : ∀ d, ReadsIff (n ≤ d) (List.Forall₂ ReadsAs vs) rest (Json.items fuel d true s))
    (depth : Nat) :
    ReadsIff (n + 1 ≤ depth) (ReadsAs (.array vs)) rest (value (fuel + 1) depth ('[' :: s)) := by
  rw [value, skipBlanks_of_not_blank (by decide)]
  cases depth with
  | zero =>
    intro a left
    exact iff_of_false nofun fun h => Nat.not_succ_le_zero n h.1
  | succ d =>
    refine ((h d).map Value.array).congr Nat.succ_le_succ_iff.symm fun w => ?_
    constructor
    · rintro ⟨ws, rfl, hws⟩
      exact .array hws
    · intro hw
      cases hw with
      | array hws => exact ⟨_, rfl, hws⟩

/-- An object is read if its members are with one container less to nest in, and as what they are
    read as; since its keys are different nothing is dropped. -/
theorem object {fuel n : Nat} {s : List Char} {es : List (String × Value)}
    (hkeys : (Entries.keys es).Nodup)
    (h : ∀ d, ReadsIff (n ≤ d) (MembersReadAs es) rest (Json.members fuel d true s)) (depth : Nat) :
    ReadsIff (n + 1 ≤ depth) (ReadsAs (.object es)) rest (value (fuel + 1) depth ('{' :: s)) := by
  rw [value, skipBlanks_of_not_blank (by decide)]
  cases depth with
  | zero =>
    intro a left
    exact iff_of_false nofun fun h => Nat.not_succ_le_zero n h.1
  | succ d =>
    refine ((h d).map fun fs => Value.object (Entries.ofList fs)).congr Nat.succ_le_succ_iff.symm
      fun w => ?_
    -- the keys that are read are different as well, so that none is dropped
    constructor
    · rintro ⟨fs, rfl, hmembers⟩
      rw [Entries.ofList_eq_self (hmembers.1 ▸ hkeys)]
      exact .object hmembers.1 hmembers.2
    · intro hw
      cases hw with
      | @object _ fs hsame hvalues =>
        exact ⟨fs, by rw [Entries.ofList_eq_self (hsame ▸ hkeys)], hsame, hvalues⟩

end ReadsIff

/-- What is no container is read as itself, or as what its number is read as. It fits at any
    depth. -/
theorem scalar_pretty_iff {v : Value} (hv : IsHeld v) (hscalar : v.depth = 0) (level : Nat)
    {fuel : Nat} (hfuel : 2 * (pretty level v).length ≤ fuel) (depth : Nat) {rest : List Char}
    (hrest : Ends rest) :
    ReadsIff (v.depth ≤ depth) (ReadsAs v) rest (value fuel depth (pretty level v ++ rest)) := by
  have hfits : v.depth ≤ depth := hscalar ▸ Nat.zero_le depth
  have hplain (hplain : IsPlain v) (hself : ∀ w, ReadsAs v w ↔ w = v) :
      ReadsIff (v.depth ≤ depth) (ReadsAs v) rest (value fuel depth (pretty level v ++ rest)) :=
    .of_ok ((scalar_pretty hplain hscalar level hfuel depth hrest).1 hfits) hfits hself
  rcases v with _ | b | n | str | vs | es
  case null =>
    exact hplain ⟨trivial, trivial⟩ fun w => ⟨fun h => by cases h; rfl, fun h => h ▸ .null⟩
  case bool =>
    exact hplain ⟨trivial, trivial⟩ fun w => ⟨fun h => by cases h; rfl, fun h => h ▸ .bool b⟩
  case string =>
    exact hplain ⟨trivial, trivial⟩ fun w => ⟨fun h => by cases h; rfl, fun h => h ▸ .string str⟩
  case array => cases hscalar
  case object => cases hscalar
  case number =>
    obtain ⟨c, t, hchars, -⟩ := numberChars_head hv.2
    have hpos : 0 < (numberChars n).length := by rw [hchars]; exact Nat.succ_pos _
    obtain ⟨fuel, rfl⟩ : ∃ f, fuel = f + 1 := ⟨fuel - 1, by rw [pretty] at hfuel; omega⟩
    intro w left
    rw [pretty, value_number_iff hv.2 fuel depth hrest]
    constructor
    · rintro ⟨⟨m, rfl, hm⟩, hleft⟩
      exact ⟨hfits, .number hm, hleft⟩
    · rintro ⟨-, hw, hleft⟩
      cases hw with
      | number hm => exact ⟨⟨_, rfl, hm⟩, hleft⟩

mutual

/-- **What a value is read as** once it was written, if its containers nest no deeper than they
    may, and only then. -/
theorem value_pretty_iff (level : Nat) : ∀ {v : Value}, Every IsHeld v → ∀ {fuel : Nat},
    2 * (pretty level v).length ≤ fuel → ∀ (depth : Nat) {rest : List Char}, Ends rest →
      ReadsIff (v.depth ≤ depth) (ReadsAs v) rest (value fuel depth (pretty level v ++ rest))
  | .array [], _, fuel, hfuel, depth, rest, _ => by
    simp only [pretty, List.length_cons, List.length_nil] at hfuel
    obtain ⟨fuel, rfl⟩ : ∃ f, fuel = f + 2 := ⟨fuel - 2, by omega⟩
    refine ReadsIff.array (n := 0) (fun d => .of_ok (a := []) ?_ (Nat.zero_le d) fun ws => ?_) depth
    · rw [items]
      rfl
    · exact List.forall₂_nil_left_iff
  | .array (v :: vs), hv, fuel, hfuel, depth, rest, _ => by
    obtain ⟨-, hv, hvs⟩ := hv
    simp only [pretty, List.length_cons, List.length_append, List.length_nil] at hfuel
    obtain ⟨fuel, rfl⟩ : ∃ f, fuel = f + 2 := ⟨fuel - 2, by omega⟩
    have hitems (d : Nat) := (ReadsIff.items (itemAhead_first hv.head.2 (level + 1) _)
      (value_pretty_iff (level + 1) hv (show _ ≤ fuel by omega) d
        (ends_items (level + 1) level vs (']' :: rest)))
      (items_pretty_iff (level + 1) level hvs (show _ ≤ fuel by omega) d)).congr
        (Nat.max_le (a := v.depth)).symm fun _ => List.forall₂_cons_left_iff.symm
    rw [pretty_array_append]
    exact .array hitems depth
  | .object [], _, fuel, hfuel, depth, rest, _ => by
    simp only [pretty, List.length_cons, List.length_nil] at hfuel
    obtain ⟨fuel, rfl⟩ : ∃ f, fuel = f + 2 := ⟨fuel - 2, by omega⟩
    refine ReadsIff.object (n := 0) (by exact List.nodup_nil)
      (fun d => .of_ok (a := []) ?_ (Nat.zero_le d) fun fs => membersReadAs_nil_iff) depth
    rw [members]
    rfl
  | .object ((k, v) :: es), hv, fuel, hfuel, depth, rest, _ => by
    obtain ⟨hkeys, hv, hes⟩ := hv
    simp only [pretty, encode, List.length_cons, List.length_append, List.length_nil] at hfuel
    obtain ⟨fuel, rfl⟩ : ∃ f, fuel = f + 3 := ⟨fuel - 3, by omega⟩
    -- a member takes two steps more than its value, one for its key and one for itself
    have hmembers (d : Nat) := (ReadsIff.members k (memberAhead_first (level + 1) _)
      (value_pretty_iff (level + 1) hv (show _ ≤ fuel + 1 by omega) d
        (ends_members (level + 1) level es ('}' :: rest)))
      (members_pretty_iff (level + 1) level hes (show _ ≤ fuel + 1 by omega) d)).congr
        (Nat.max_le (a := v.depth)).symm fun _ => membersReadAs_cons_iff.symm
    rw [pretty_object_append]
    exact .object hkeys.1 hmembers depth
  | .null, hv, _, hfuel, depth, _, hrest => scalar_pretty_iff hv rfl level hfuel depth hrest
  | .bool _, hv, _, hfuel, depth, _, hrest => scalar_pretty_iff hv rfl level hfuel depth hrest
  | .number _, hv, _, hfuel, depth, _, hrest => scalar_pretty_iff hv rfl level hfuel depth hrest
  | .string _, hv, _, hfuel, depth, _, hrest => scalar_pretty_iff hv rfl level hfuel depth hrest

/-- What the items after the first one are read as, up to the closing bracket: each as what its
    text is read as. -/
theorem items_pretty_iff (level outer : Nat) : ∀ {vs : List Value}, EveryItem IsHeld vs →
    ∀ {fuel : Nat}, 2 * (prettyItems level vs).length + 1 ≤ fuel →
      ∀ (depth : Nat) {rest : List Char},
        ReadsIff (Value.depthItems vs ≤ depth) (List.Forall₂ ReadsAs vs) rest
          (items fuel depth false (prettyItems level vs ++ (newline outer ++ ']' :: rest)))
  | [], _, fuel, hfuel, depth, rest => by
    obtain ⟨fuel, rfl⟩ : ∃ f, fuel = f + 1 := ⟨fuel - 1, by omega⟩
    refine .of_ok ?_ (Nat.zero_le depth) fun ws => List.forall₂_nil_left_iff
    rw [prettyItems, List.nil_append, items, itemAhead_close]
    rfl
  | v :: vs, hvs, fuel, hfuel, depth, rest => by
    obtain ⟨hv, hvs⟩ := hvs
    simp only [prettyItems, List.length_cons, List.length_append] at hfuel
    obtain ⟨fuel, rfl⟩ : ∃ f, fuel = f + 1 := ⟨fuel - 1, by omega⟩
    rw [prettyItems_cons_append]
    exact (ReadsIff.items (itemAhead_next hv.head.2 level _)
      (value_pretty_iff level hv (show _ ≤ fuel by omega) depth
        (ends_items level outer vs (']' :: rest)))
      (items_pretty_iff level outer hvs (show _ ≤ fuel by omega) depth)).congr
        (Nat.max_le (a := v.depth)).symm fun _ => List.forall₂_cons_left_iff.symm

/-- What the members after the first one are read as, up to the closing brace: each as its key
    with what the text of its value is read as. -/
theorem members_pretty_iff (level outer : Nat) : ∀ {es : List (String × Value)},
    EveryEntry IsHeld es → ∀ {fuel : Nat}, 2 * (prettyEntries level es).length + 1 ≤ fuel →
      ∀ (depth : Nat) {rest : List Char},
        ReadsIff (Value.depthEntries es ≤ depth) (MembersReadAs es) rest
          (members fuel depth false (prettyEntries level es ++ (newline outer ++ '}' :: rest)))
  | [], _, fuel, hfuel, depth, rest => by
    obtain ⟨fuel, rfl⟩ : ∃ f, fuel = f + 1 := ⟨fuel - 1, by omega⟩
    refine .of_ok ?_ (Nat.zero_le depth) fun fs => membersReadAs_nil_iff
    rw [prettyEntries, List.nil_append, members, memberAhead_close]
    rfl
  | (k, v) :: es, hes, fuel, hfuel, depth, rest => by
    obtain ⟨hv, hes⟩ := hes
    simp only [prettyEntries, encode, List.length_cons, List.length_append] at hfuel
    obtain ⟨fuel, rfl⟩ : ∃ f, fuel = f + 2 := ⟨fuel - 2, by omega⟩
    rw [prettyEntries_cons_append]
    exact (ReadsIff.members k (memberAhead_next level _)
      (value_pretty_iff level hv (show _ ≤ fuel + 1 by omega) depth
        (ends_members level outer es ('}' :: rest)))
      (members_pretty_iff level outer hes (show _ ≤ fuel + 1 by omega) depth)).congr
        (Nat.max_le (a := v.depth)).symm fun _ => membersReadAs_cons_iff.symm

end

/-- **What a text that was written is read as**, if its containers nest no deeper than they may,
    and only then. After the value there is nothing but the end of the line. -/
theorem parse_render_iff {v w : Value} (hv : v.WellFormed) (hfinite : v.FloatsFinite) :
    parse (render v) = .ok w ↔ v.depth ≤ maxDepth ∧ ReadsAs v w := by
  have hfuel : 2 * (pretty 0 v).length ≤ 2 * (pretty 0 v ++ ['\n']).length + 2 := by
    rw [List.length_append]
    omega
  have hends : Ends ['\n'] := ends_cons (by decide) []
  have hvalue := value_pretty_iff 0 (Value.every_and hv hfinite) hfuel maxDepth hends
  rw [parse_eq_ok_iff, toList_render, parseChars]
  constructor
  · intro h
    obtain ⟨⟨w', left⟩, hw, h⟩ := bind_eq_ok_iff.mp h
    obtain ⟨hdepth, hreads, rfl⟩ := (hvalue _ _).mp hw
    cases h
    exact ⟨hdepth, hreads⟩
  · rintro ⟨hdepth, hreads⟩
    exact bind_eq_ok_iff.mpr ⟨(w, ['\n']), (hvalue _ _).mpr ⟨hdepth, hreads, rfl⟩, rfl⟩

/-! ### Texts tell values

Two values of which one is read as the other are the same but for their numbers. If their texts are
the same as well, the first number in which they differ is followed by the same text in both, which
a number does not go on into; and so they do not differ there either.
-/

/-- The text of a number is told from what follows it, if that does not begin with a character of
    a number. -/
theorem numberChars_append_inj {n m : Number} (hn : IsHeld (.number n)) (hm : IsHeld (.number m))
    {s t : List Char} (hs : ¬ GoesOn s) (ht : ¬ GoesOn t)
    (h : numberChars n ++ s = numberChars m ++ t) : n = m ∧ s = t := by
  -- if one of the texts were longer, what follows the other would go on with a number
  rcases List.append_eq_append_iff.mp h with ⟨left, hleft, rfl⟩ | ⟨left, hleft, rfl⟩
  · cases left with
    | nil => exact ⟨numberChars_inj hn hm (by rw [hleft, List.append_nil]), rfl⟩
    | cons c left => exact absurd ⟨c, _, rfl, numberChars_chars hm.2 c (by simp [hleft])⟩ hs
  · cases left with
    | nil => exact ⟨numberChars_inj hn hm (by rw [hleft, List.append_nil]), rfl⟩
    | cons c left => exact absurd ⟨c, _, rfl, numberChars_chars hn.2 c (by simp [hleft])⟩ ht

mutual

/-- **A value is told by its text**, once it is known but for its numbers. -/
theorem pretty_inj (level : Nat) : ∀ {v w : Value}, Every IsHeld v → Every IsHeld w → ReadsAs v w →
    ∀ {s t : List Char}, ¬ GoesOn s → ¬ GoesOn t → pretty level v ++ s = pretty level w ++ t →
      v = w ∧ s = t
  | .null, _, _, _, h, s, t, _, _, heq => by
    cases h
    exact ⟨rfl, List.append_cancel_left heq⟩
  | .bool _, _, _, _, h, s, t, _, _, heq => by
    cases h
    exact ⟨rfl, List.append_cancel_left heq⟩
  | .string _, _, _, _, h, s, t, _, _, heq => by
    cases h
    exact ⟨rfl, List.append_cancel_left heq⟩
  | .number _, _, hv, hw, h, s, t, hs, ht, heq => by
    cases h
    obtain ⟨rfl, rfl⟩ := numberChars_append_inj hv hw hs ht heq
    exact ⟨rfl, rfl⟩
  | .array [], _, _, _, h, s, t, _, _, heq => by
    cases h with
    | array hws =>
      cases hws
      exact ⟨rfl, List.append_cancel_left heq⟩
  | .array (v :: vs), _, hv, hw, h, s, t, _, _, heq => by
    cases h with
    | array hws =>
      obtain ⟨w, ws, hfirst, hrest, rfl⟩ := List.forall₂_cons_left_iff.mp hws
      rw [pretty_array_append, pretty_array_append] at heq
      have hafter := List.append_cancel_left (List.cons.inj heq).2
      obtain ⟨rfl, hitems⟩ := pretty_inj (level + 1) hv.2.1 hw.2.1 hfirst
        (not_goesOn_items _ _ vs _) (not_goesOn_items _ _ ws _) hafter
      obtain ⟨rfl, rfl⟩ := prettyItems_inj (level + 1) level hv.2.2 hw.2.2 hrest hitems
      exact ⟨rfl, rfl⟩
  | .object [], _, _, _, h, s, t, _, _, heq => by
    cases h with
    | object hkeys hvalues =>
      obtain rfl := membersReadAs_nil_iff.mp ⟨hkeys, hvalues⟩
      exact ⟨rfl, List.append_cancel_left heq⟩
  | .object ((k, v) :: es), _, hv, hw, h, s, t, _, _, heq => by
    cases h with
    | object hkeys hvalues =>
      obtain ⟨w, fs, rfl, hfirst, hrest⟩ := membersReadAs_cons_iff.mp ⟨hkeys, hvalues⟩
      rw [pretty_object_append, pretty_object_append] at heq
      have hkey := List.append_cancel_left (List.cons.inj heq).2
      have hafter := List.append_cancel_left (List.cons.inj hkey).2
      simp only [List.cons.injEq, true_and] at hafter
      obtain ⟨rfl, hmembers⟩ := pretty_inj (level + 1) hv.2.1 hw.2.1 hfirst
        (not_goesOn_members _ _ es _) (not_goesOn_members _ _ fs _) hafter
      obtain ⟨rfl, rfl⟩ := prettyEntries_inj (level + 1) level hv.2.2 hw.2.2 hrest hmembers
      exact ⟨rfl, rfl⟩

/-- The items after the first one are told by their text, once they are known but for their
    numbers. -/
theorem prettyItems_inj (level outer : Nat) : ∀ {vs ws : List Value}, EveryItem IsHeld vs →
    EveryItem IsHeld ws → List.Forall₂ ReadsAs vs ws → ∀ {s t : List Char},
      prettyItems level vs ++ (newline outer ++ ']' :: s)
        = prettyItems level ws ++ (newline outer ++ ']' :: t) → vs = ws ∧ s = t
  | [], _, _, _, h, s, t, heq => by
    cases h
    have hclose : newline outer ++ ']' :: s = newline outer ++ ']' :: t := heq
    exact ⟨rfl, (List.cons.inj (List.append_cancel_left hclose)).2⟩
  | v :: vs, _, hvs, hws, h, s, t, heq => by
    obtain ⟨w, ws, hfirst, hrest, rfl⟩ := List.forall₂_cons_left_iff.mp h
    rw [prettyItems_cons_append, prettyItems_cons_append] at heq
    have hafter := List.append_cancel_left (List.cons.inj heq).2
    obtain ⟨rfl, hitems⟩ := pretty_inj level hvs.1 hws.1 hfirst
      (not_goesOn_items _ _ vs _) (not_goesOn_items _ _ ws _) hafter
    obtain ⟨rfl, rfl⟩ := prettyItems_inj level outer hvs.2 hws.2 hrest hitems
    exact ⟨rfl, rfl⟩

/-- The members after the first one are told by their text, once they are known but for their
    numbers. -/
theorem prettyEntries_inj (level outer : Nat) : ∀ {es fs : List (String × Value)},
    EveryEntry IsHeld es → EveryEntry IsHeld fs → MembersReadAs es fs → ∀ {s t : List Char},
      prettyEntries level es ++ (newline outer ++ '}' :: s)
        = prettyEntries level fs ++ (newline outer ++ '}' :: t) → es = fs ∧ s = t
  | [], _, _, _, h, s, t, heq => by
    obtain rfl := membersReadAs_nil_iff.mp h
    have hclose : newline outer ++ '}' :: s = newline outer ++ '}' :: t := heq
    exact ⟨rfl, (List.cons.inj (List.append_cancel_left hclose)).2⟩
  | (k, v) :: es, _, hes, hfs, h, s, t, heq => by
    obtain ⟨w, fs, rfl, hfirst, hrest⟩ := membersReadAs_cons_iff.mp h
    rw [prettyEntries_cons_append, prettyEntries_cons_append] at heq
    have hkey := List.append_cancel_left (List.cons.inj heq).2
    have hafter := List.append_cancel_left (List.cons.inj hkey).2
    simp only [List.cons.injEq, true_and] at hafter
    obtain ⟨rfl, hmembers⟩ := pretty_inj level hes.1 hfs.1 hfirst
      (not_goesOn_members _ _ es _) (not_goesOn_members _ _ fs _) hafter
    obtain ⟨rfl, rfl⟩ := prettyEntries_inj level outer hes.2 hfs.2 hrest hmembers
    exact ⟨rfl, rfl⟩

end

/-! ### What is read as itself

An integer in range is always read as itself, and of strings nothing is lost. So the question is
left to the floats in a value, which are asked one by one.
-/

/-- Whether a value itself is read as it was written; only a float may not be. -/
def IsExact : Value → Prop
  | .number n => NumberReadsAs n n
  | _ => True

mutual

/-- **A value is read as itself** exactly if every number in it is. -/
theorem readsAs_self_iff : ∀ v : Value, ReadsAs v v ↔ Every IsExact v
  | .null => iff_of_true .null trivial
  | .bool b => iff_of_true (.bool b) trivial
  | .string s => iff_of_true (.string s) trivial
  | .number n => ⟨fun h => by cases h with | number h => exact h, .number⟩
  | .array vs => by
    -- a container itself is always exact
    rw [Every, ← readsAs_self_items vs]
    constructor
    · intro h
      cases h with
      | array h => exact ⟨trivial, h⟩
    · exact fun h => .array h.2
  | .object es => by
    rw [Every, ← readsAs_self_members es]
    constructor
    · intro h
      cases h with
      | object _ h => exact ⟨trivial, h⟩
    · exact fun h => .object rfl h.2

/-- Items are read as themselves exactly if every number in them is. -/
theorem readsAs_self_items : ∀ vs : List Value,
    List.Forall₂ ReadsAs vs vs ↔ EveryItem IsExact vs
  | [] => iff_of_true .nil trivial
  | v :: vs => by
    rw [List.forall₂_cons, readsAs_self_iff v, readsAs_self_items vs]
    rfl

/-- The values of members are read as themselves exactly if every number in them is. -/
theorem readsAs_self_members : ∀ es : List (String × Value),
    List.Forall₂ ReadsAs (es.map Prod.snd) (es.map Prod.snd) ↔ EveryEntry IsExact es
  | [] => iff_of_true .nil trivial
  | (k, v) :: es => by
    rw [List.map_cons, List.forall₂_cons, readsAs_self_iff v, readsAs_self_members es]
    rfl

end

/-- **A text is read as a value that has the very same text** exactly if its containers nest no
    deeper than they may and every number in it is read as itself, and then that is the value. -/
theorem parse_render_self_iff {v w : Value} (hv : v.WellFormed) (hfinite : v.FloatsFinite) :
    parse (render v) = .ok w ∧ render w = render v
      ↔ w = v ∧ v.depth ≤ maxDepth ∧ Every IsExact v := by
  constructor
  · rintro ⟨hparse, hsame⟩
    obtain ⟨hdepth, hreads⟩ := (parse_render_iff hv hfinite).mp hparse
    have htext : pretty 0 v ++ ['\n'] = pretty 0 w ++ ['\n'] := by
      rw [← toList_render, ← toList_render, hsame]
    have hend : ¬ GoesOn ['\n'] := not_goesOn (by decide) []
    obtain ⟨rfl, -⟩ := pretty_inj 0 (Value.every_and hv hfinite) (parse_sound hparse) hreads
      hend hend htext
    exact ⟨rfl, hdepth, (readsAs_self_iff v).mp hreads⟩
  · rintro ⟨rfl, hdepth, hexact⟩
    exact ⟨(parse_render_iff hv hfinite).mpr ⟨hdepth, (readsAs_self_iff w).mpr hexact⟩, rfl⟩

-- a float is scaled by a power of ten, which may miss it
example : (parse "1e-23").toOption.map renderCompact = some "1.0000000000000001e-23" := by
  decide +kernel

/-- In a value without floats every number is an integer in range, and so is read as itself. -/
theorem every_isExact {v : Value} (hv : v.WellFormed) (hfloat : v.FloatFree) : Every IsExact v := by
  refine Every.imp (fun w hw => ?_) (every_isPlain hv hfloat)
  rcases w with _ | _ | (i | x) | _ | _ | _
  case number.int => exact (numberReadsAs_int hw.1.1 hw.1.2).mpr rfl
  case number.float => exact hw.2.elim
  all_goals trivial

end SchemaEmbed.Json
