import SchemaEmbed.Proofs.Value
import SchemaEmbed.Proofs.Yaml.ScalarToken

namespace SchemaEmbed.Yaml

/-!
# The tokens of a written value

A value is written recursively, and what is written depends on where it stands: at the root of the
document, as an item, after a key on the same line, or as the part of an entry whose key has lines
of its own. The scanner keeps a stack of open blocks instead, so the proof that it reads a written
value back has to say for each such place in which state the scanner comes there.

* `tokens` — what a value is cut into, where it is written by `render`;
* `Stands` — the state in which the scanner comes to each place;
* `IsRead` — at every place the tokens of the value are read, and nothing else;
* `leads_items`, `leads_entries` — if the parts of a collection are read, then so is the
  collection;
* `isRead_of_floatsFinite` — hence every value is read, by induction on it;
* `allowed_bodyAt` — every character of a written value may occur in a text;
* `tokenize_render` — the token stream of a whole text.

A sequence that is the value of a key on one line has its dashes in the column of the key. Then no
block is opened for it, and none is closed after it: this is what `Place.dashes` is about.
-/

/-! ### Tokens of a value

The tokens follow the value, not its text. The only things that depend on the text are the styles
of the scalars, and whether a sequence has a block of its own.
-/

mutual

/-- The tokens of a value; `dashes` is set where the dashes of a sequence are not indented, so
    that the sequence is no block of its own. -/
def tokens (dashes : Bool) : Value → List Token
  | .null => [.scalar "null" .plain]
  | .bool b => [.scalar (if b then "true" else "false") .plain]
  | .number n => [.scalar (String.ofList (numberChars n)) .plain]
  | .string s => [.scalar s (styleOf false s.toList)]
  | .array items =>
    if items.isEmpty then [.flowSequenceStart, .flowSequenceEnd]
    else if dashes then itemTokens items
    else .blockSequenceStart :: (itemTokens items ++ [.blockEnd])
  | .object entries =>
    if entries.isEmpty then [.flowMappingStart, .flowMappingEnd]
    else .blockMappingStart :: (entryTokens entries ++ [.blockEnd])

/-- The tokens of the items of a sequence, each with its dash. -/
def itemTokens : List Value → List Token
  | [] => []
  | v :: rest => .blockEntry :: (tokens false v ++ itemTokens rest)

/-- The tokens of the entries of a mapping. Under a key on one line a sequence is not indented,
    and a longer key is written in a style that may have several lines. -/
def entryTokens : List (String × Value) → List Token
  | [] => []
  | (k, v) :: rest =>
    let simple := (Tree.string k).isSimpleKey
    .key :: .scalar k (styleOf simple k.toList) :: .value :: (tokens simple v ++ entryTokens rest)

end

/-! ### Places of values

A place has its text before the value: nothing, a space, or a break and the indentation of the
first line. After that text the scanner is ready for a scalar, the first entry or the first item,
each in the column that the printer chose for it.
-/

/-- Where the scanner is before a value: the column of the open block, its own column, and
    whether a key may begin there. After a key on one line none may, since such a key ends with
    the line. -/
inductive Stands : Place → (indent : Int) → (column : Nat) → (keyAllowed : Bool) → Prop where
  | root : Stands .root (-1) 0 true
  | item (n : Nat) : Stands (.item n) n (n + 1) true
  | part (n : Nat) : Stands (.part n) n (n + 1) true
  | value {n column : Nat} (h : n < column) : Stands (.value n) n column false

/-- Whether the dashes of a sequence are not indented at a place: it is so for the value of a key
    on one line. -/
def Place.dashes (p : Place) : Bool := p.inMapping && ! p.inline

@[simp] theorem dashes_root : Place.root.dashes = false := rfl

@[simp] theorem dashes_item (n : Nat) : (Place.item n).dashes = false := rfl

@[simp] theorem dashes_part (n : Nat) : (Place.part n).dashes = false := rfl

@[simp] theorem dashes_value (n : Nat) : (Place.value n).dashes = true := rfl

section Places

variable {p : Place} {indent : Int} {column : Nat} {keyAllowed : Bool} {s : Scanner}
  {done : Array Token} {outer : List Int} {text : List Char}

/-- A value is no key on one line, and the lines of a scalar are two columns inside of the block. -/
theorem Stands.lines (h : Stands p indent column keyAllowed) :
    p.key = false ∧ (p.scalarColumn : Int) = max indent 0 + 2 := by
  cases h with
  | root => exact ⟨rfl, rfl⟩
  | item n => exact ⟨rfl, by simp [Place.item, Place.scalarColumn]⟩
  | part n => exact ⟨rfl, by simp [Place.part, Place.scalarColumn]⟩
  | @value n => exact ⟨rfl, by simp [Place.value, Place.scalarColumn]⟩

open Scanner

/-- After the text before a scalar or an empty collection, which stays on the same line, the
    scanner is ready for it, inside of the open block. -/
theorem Stands.ready_lead (h : Stands p indent column keyAllowed)
    (hat : At s done indent outer column keyAllowed (p.lead ++ text)) (htext : StartsToken text) :
    ∃ column', indent < (column' : Nat) ∧ Ready s done indent outer column' keyAllowed text := by
  cases h with
  | root => exact ⟨0, by omega, hat.ready_here htext (by omega)⟩
  | item n => exact ⟨n + 1 + 1, by omega, hat.ready_space htext (by omega)⟩
  | part n => exact ⟨n + 1 + 1, by omega, hat.ready_space htext (by omega)⟩
  | @value n column hlt => exact ⟨column + 1, by omega, hat.ready_space htext (by omega)⟩

/-- After the text before a mapping the scanner is ready for its first entry, whose column is
    right of the open block. So a block is opened for the mapping. -/
theorem Stands.ready_mapping (h : Stands p indent column keyAllowed)
    (hat : At s done indent outer column keyAllowed (p.opening p.mappingColumn ++ text))
    (htext : StartsToken text) :
    indent < (p.mappingColumn : Nat) ∧ Ready s done indent outer p.mappingColumn true text := by
  cases h with
  | root => exact ⟨by decide, hat.ready_here htext (by omega)⟩
  | item n => exact ⟨by simp [Place.mappingColumn, Place.item], hat.ready_space htext (by omega)⟩
  | part n => exact ⟨by simp [Place.mappingColumn, Place.part], hat.ready_space htext (by omega)⟩
  | @value n column hlt =>
    have hat' : At s done n outer column false ('\n' :: (spaces (n + 2) ++ text)) := hat
    exact ⟨by simp [Place.mappingColumn, Place.value], hat'.ready_line htext (by omega)⟩

/-- After the text before a sequence the scanner is ready for its first dash. The column of the
    dash is that of the open block, or it is right of the block and a block is opened for the
    sequence. -/
theorem Stands.ready_sequence (h : Stands p indent column keyAllowed)
    (hat : At s done indent outer column keyAllowed (p.opening p.sequenceColumn ++ text))
    (htext : StartsToken text) :
    (if p.dashes then indent = p.sequenceColumn else indent < (p.sequenceColumn : Nat))
      ∧ Ready s done indent outer p.sequenceColumn true text := by
  cases h with
  | root => exact ⟨by decide, hat.ready_here htext (by omega)⟩
  | item n =>
    exact ⟨by simp [Place.dashes, Place.sequenceColumn, Place.item],
      hat.ready_space htext (by omega)⟩
  | part n =>
    exact ⟨by simp [Place.dashes, Place.sequenceColumn, Place.part],
      hat.ready_space htext (by omega)⟩
  | @value n column hlt =>
    have hat' : At s done n outer column false ('\n' :: (spaces n ++ text)) := hat
    exact ⟨by simp [Place.dashes, Place.sequenceColumn, Place.value],
      hat'.ready_line htext (by omega)⟩

end Places

/-! ### Ends of lines

Every node that is an item or a value ends its line, so that the next one begins a new line. A
nonempty collection has ended it already, with its last part.
-/

/-- Whether a text ends with a break. Then nothing is added to end its last line. -/
def EndsLine (s : List Char) : Prop := s.getLast?.any isBreak = true

/-- A line that has ended is not ended again. -/
theorem endLine_of_endsLine {s : List Char} (h : EndsLine s) : endLine s = s := if_pos h

/-- A line that was ended ends with a break. -/
theorem endsLine_endLine (s : List Char) : EndsLine (endLine s) := by
  unfold EndsLine endLine
  split
  · assumption
  · rw [List.getLast?_concat]
    rfl

/-- Whether a text ends with a break depends on its last part only. -/
theorem endsLine_append {s t : List Char} (h : EndsLine t) : EndsLine (s ++ t) := by
  unfold EndsLine at h ⊢
  rw [List.getLast?_append]
  cases ht : t.getLast? with
  | none => rw [ht] at h; cases h
  | some c => rwa [ht] at h

/-- When the line of a text is ended, only its last part changes. -/
theorem endLine_append {s t : List Char} (h : t ≠ []) : endLine (s ++ t) = s ++ endLine t := by
  have hlast : (s ++ t).getLast? = t.getLast? := by
    rw [List.getLast?_append]
    cases ht : t.getLast? with
    | none => exact absurd (List.getLast?_eq_none_iff.mp ht) h
    | some c => rfl
  unfold endLine
  rw [hlast]
  split
  · rfl
  · exact List.append_assoc ..

/-- The text of the items of a sequence ends with a break, since each of them ends its line. -/
theorem endsLine_itemsAt {column : Nat} {opening : List Char} {items : List Tree} (h : items ≠ []) :
    EndsLine (Tree.itemsAt column opening items) := by
  induction items generalizing opening with
  | nil => exact absurd rfl h
  | cons item items ih =>
    rw [Tree.itemsAt]
    cases items with
    | nil =>
      simp only [Tree.itemsAt, List.append_nil]
      exact endsLine_append (endsLine_append (s := ['-']) (endsLine_endLine _))
    | cons next items => exact endsLine_append (ih (List.cons_ne_nil _ _))

/-- The text of the entries of a mapping ends with a break, whether the last key is on one line
    or not. -/
theorem endsLine_entriesAt {column : Nat} {opening : List Char} {entries : List (Tree × Tree)}
    (h : entries ≠ []) : EndsLine (Tree.entriesAt column opening entries) := by
  induction entries generalizing opening with
  | nil => exact absurd rfl h
  | cons entry entries ih =>
    obtain ⟨key, value⟩ := entry
    rw [Tree.entriesAt]
    cases entries with
    | nil =>
      simp only [Tree.entriesAt, List.append_nil]
      refine endsLine_append ?_
      split
      · exact endsLine_append (endsLine_append (s := [':']) (endsLine_endLine _))
      · exact endsLine_append (endsLine_append (s := [':']) (endsLine_endLine _))
    | cons next entries => exact endsLine_append (ih (List.cons_ne_nil _ _))

/-! ### Reading a value -/

open Scanner

/-- A written scalar begins like a token: not with a blank, a break, a comment or a byte order
    mark. So nothing of it is passed on the way to the next token. -/
theorem WrittenAs.startsToken {column : Nat} {s written : List Char} {style : Style}
    (h : WrittenAs column s style written) (t : List Char) : StartsToken (written ++ t) := by
  cases h with
  | plain h =>
    obtain ⟨c, rest, rfl⟩ := List.exists_cons_of_ne_nil h.ne_nil
    refine startsToken_cons ⟨?_, ?_, ?_⟩ _
    · exact h.isSpaceOrBreak List.mem_cons_self fun hc => h.head (by rw [hc]; rfl)
    · rintro rfl
      cases h.start
    · have hprint := h.printable c List.mem_cons_self
      rw [isByteOrderMark, beq_eq_false_iff_ne]
      rintro rfl
      cases hprint
  | singleQuoted => exact startsToken_cons (by decide) _
  | doubleQuoted => exact startsToken_cons (by decide) _
  | literal => exact startsToken_cons (by decide) _

/-- A value is read at every place where it can stand: its tokens follow those `done`, and the
    scanner rests at `next`, in the column `k` of a later line.

    The text that follows begins no deeper than the value, so that it cannot continue it; at the
    end of the document there is no such text. -/
def IsRead (v : Value) : Prop :=
  ∀ {p : Place} {indent : Int} {column : Nat} {keyAllowed : Bool} {s : Scanner} {done : Array Token}
    {outer : List Int} {k : Nat} {next : List Char}, Stands p indent column keyAllowed →
    At s done indent outer column keyAllowed
      (endLine ((Tree.ofValue v).bodyAt p) ++ (spaces k ++ next)) →
    StartsToken next → (k : Int) ≤ max indent 0 → (next = [] ∨ (k : Int) ≤ indent) →
    ∃ s', Leads s s' ∧ Rests s' (done ++ tokens p.dashes v) indent outer k next

/-- A scalar is read, if at every place it is one token and is written in the style of that
    token. -/
theorem isRead_scalar {v : Value} (text : List Char) {style : Style}
    (htokens : ∀ dashes, tokens dashes v = [.scalar (String.ofList text) style])
    (hbody : ∀ p : Place, p.key = false → ∃ written, WrittenAs p.scalarColumn text style written
      ∧ (Tree.ofValue v).bodyAt p = p.lead ++ written) : IsRead v := by
  intro p indent column keyAllowed s done outer k next hp hat hnext hk hout
  obtain ⟨hkey, hlines⟩ := hp.lines
  obtain ⟨written, hwritten, heq⟩ := hbody p hkey
  rw [heq, endLine_append hwritten.ne_nil, List.append_assoc] at hat
  have hstarts : StartsToken (endLine written ++ (spaces k ++ next)) := by
    unfold endLine
    split
    · exact hwritten.startsToken _
    · rw [List.append_assoc]
      exact hwritten.startsToken _
  -- the scalar begins right of the open block, so it is not taken for a part of what is around it
  obtain ⟨column', hlt, hready⟩ := hp.ready_lead hat hstarts
  obtain ⟨s', hleads, hrests⟩ := leads_scalar hwritten hready hnext hlt hlines hk hout
  refine ⟨s', hleads, ?_⟩
  rw [htokens]
  exact hrests

/-- Null is read, as the plain scalar it is written as. -/
theorem isRead_null : IsRead .null :=
  isRead_scalar "null".toList (fun _ => rfl) fun p _ =>
    ⟨_, writtenAs_word _ (by decide), rfl⟩

/-- A truth value is read, as the plain scalar it is written as. -/
theorem isRead_bool (b : Bool) : IsRead (.bool b) :=
  isRead_scalar (if b then "true" else "false").toList (fun _ => by cases b <;> rfl) fun p _ =>
    ⟨_, writtenAs_word _ (by cases b <;> decide), by cases b <;> rfl⟩

/-- A number is read, if it is finite: its text is a plain scalar. -/
theorem isRead_number {n : Number} (h : Value.IsFloatFinite (.number n)) : IsRead (.number n) :=
  isRead_scalar (numberChars n) (fun _ => rfl) fun p _ =>
    ⟨_, writtenAs_number _ fun x hx => by rw [hx] at h; exact h, rfl⟩

/-- Every string is read, whichever style was chosen for it. -/
theorem isRead_string (t : String) : IsRead (.string t) :=
  isRead_scalar t.toList (fun _ => by simp [tokens]) fun p hkey =>
    ⟨_, writtenAs_string false _ _, by simp [Tree.ofValue, Tree.bodyAt, Tree.scalarChars, hkey]⟩

/-- An empty collection is read: its two brackets are on one line. -/
theorem isRead_empty (sequence : Bool) : IsRead (if sequence then .array [] else .object []) := by
  intro p indent column keyAllowed s done outer k next hp hat hnext hk hout
  have hbody : endLine ((Tree.ofValue (if sequence then .array [] else .object [])).bodyAt p)
      = p.lead ++ [(emptyChars sequence).1, (emptyChars sequence).2, '\n'] := by
    cases sequence <;> exact endLine_append (List.cons_ne_nil _ _)
  rw [hbody, List.append_assoc] at hat
  have hstarts : StartsToken ([(emptyChars sequence).1, (emptyChars sequence).2, '\n']
      ++ (spaces k ++ next)) := by
    cases sequence <;> exact startsToken_cons (by decide) _
  obtain ⟨column', hlt, hready⟩ := hp.ready_lead hat hstarts
  obtain ⟨s', hleads, hrests⟩ := leads_empty sequence hready hnext hlt
  refine ⟨s', hleads, ?_⟩
  cases sequence <;> exact hrests

/-- Behind an indicator the text of a node begins with a blank or a break, so the indicator is
    one, and not the first character of a word. -/
theorem endsWord_bodyAt {p : Place} (hp : p.spaced = true) (t : Tree) (rest : List Char) :
    endsWord (endLine (t.bodyAt p) ++ rest) = true := by
  have hlead (r : List Char) : endsWord (p.lead ++ r) = true := by
    rw [Place.lead, if_pos hp]
    rfl
  have hopening (column : Nat) (r : List Char) : endsWord (p.opening column ++ r) = true := by
    unfold Place.opening
    split
    · exact hlead r
    · rfl
  have hline {text : List Char} (h : ∀ r, endsWord (text ++ r) = true) :
      endsWord (endLine text ++ rest) = true := by
    unfold endLine
    split
    · exact h rest
    · rw [List.append_assoc]
      exact h _
  refine hline fun r => ?_
  cases t with
  | sequence items =>
    cases items with
    | nil => simpa [Tree.bodyAt] using hlead _
    | cons item items => simpa [Tree.bodyAt, Tree.itemsAt] using hopening _ _
  | mapping entries =>
    cases entries with
    | nil => simpa [Tree.bodyAt] using hlead _
    | cons entry entries =>
      obtain ⟨key, value⟩ := entry
      simpa [Tree.bodyAt, Tree.entriesAt] using hopening _ _
  | tagged tag content => simpa [Tree.bodyAt] using hlead _
  | _ => simpa [Tree.bodyAt] using hlead _

/-- What opens the first item stands before all of them, so it can be passed before they are
    read. -/
theorem itemsAt_opening (column : Nat) (opening : List Char) {items : List Tree} (h : items ≠ []) :
    Tree.itemsAt column opening items = opening ++ Tree.itemsAt column [] items := by
  obtain ⟨item, items, rfl⟩ := List.exists_cons_of_ne_nil h
  simp [Tree.itemsAt]

/-- What opens the first entry stands before all of them. -/
theorem entriesAt_opening (column : Nat) (opening : List Char) {entries : List (Tree × Tree)}
    (h : entries ≠ []) :
    Tree.entriesAt column opening entries = opening ++ Tree.entriesAt column [] entries := by
  obtain ⟨⟨key, value⟩, entries, rfl⟩ := List.exists_cons_of_ne_nil h
  simp [Tree.entriesAt]

/-- **The items of a sequence** are read one after the other, if each is read. The first dash may
    open a block in column `n`; in the end that block is still open. -/
theorem leads_items {n k : Nat} {next : List Char} (hnext : StartsToken next) (hk : k ≤ n)
    {items : List Value} (hitems : ∀ v ∈ items, IsRead v) (hne : items ≠ []) {s : Scanner}
    {done : Array Token} {indent : Int} {outer : List Int} (hindent : indent ≤ n)
    (h : Ready s done indent outer n true
      (Tree.itemsAt n [] (Tree.ofItems items) ++ (spaces k ++ next))) :
    ∃ s', Leads s s'
      ∧ Rests s' (done ++ (opening indent n .blockSequenceStart ++ itemTokens items)) n
        (outerAt indent outer n) k next := by
  induction items generalizing s done indent outer with
  | nil => exact absurd rfl hne
  | cons v items ih =>
    obtain ⟨hv, hitems⟩ := List.forall_mem_cons.mp hitems
    have htext : Tree.itemsAt n [] (Tree.ofItems (v :: items)) ++ (spaces k ++ next)
        = '-' :: (endLine ((Tree.ofValue v).bodyAt (.item n))
          ++ (Tree.itemsAt n (spaces n) (Tree.ofItems items) ++ (spaces k ++ next))) := by
      simp [Tree.ofItems, Tree.itemsAt]
    rw [htext] at h
    obtain ⟨s₁, hleads₁, hat⟩ := leads_dash h (endsWord_bodyAt rfl _ _) hindent
    -- the last item is followed by `next`, every other one by the next dash
    cases items with
    | nil =>
      obtain ⟨s₂, hleads₂, hrests⟩ := hv (.item n) hat hnext (by omega) (.inr (by omega))
      refine ⟨s₂, hleads₁.trans hleads₂, ?_⟩
      rw [append_append] at hrests
      simpa [itemTokens] using hrests
    | cons w items =>
      have hne : Tree.ofItems (w :: items) ≠ [] := List.cons_ne_nil _ _
      -- the indentation of the next dash is what the scanner passes after the item
      rw [itemsAt_opening n (spaces n) hne, List.append_assoc (spaces n)] at hat
      obtain ⟨s₂, hleads₂, hrests⟩ := hv (.item n) hat (startsToken_cons (by decide) _) (by omega)
        (.inr (by omega))
      obtain ⟨s₃, hleads₃, hrests⟩ := ih hitems (List.cons_ne_nil _ _) (Int.le_refl _)
        (hrests.ready rfl)
      refine ⟨s₃, hleads₁.trans (hleads₂.trans hleads₃), ?_⟩
      rw [append_append, append_append] at hrests
      simpa [itemTokens] using hrests

/-! ### Entries

An entry is written in one of two ways, and both begin like a token. A key on one line is found to
be one only at its colon, when the scanner goes back to where the key began; a longer key has a
question mark before it.
-/

/-- A key is written on one line with its value exactly if it has no break and is short. -/
theorem isSimpleKey_iff (k : String) :
    (Tree.string k).isSimpleKey = true
      ↔ (∀ c ∈ k.toList, isBreak c = false) ∧ k.utf8ByteSize ≤ 128 := by
  unfold Tree.isSimpleKey Tree.lineLength?
  by_cases h : k.toList.any isBreak = true
  · rw [if_pos h]
    simpa using fun hall => by
      obtain ⟨c, hc, hbreak⟩ := List.any_eq_true.mp h
      rw [hall c hc] at hbreak
      cases hbreak
  · rw [if_neg h]
    simp only [Option.any_some, decide_eq_true_eq]
    exact ⟨fun hsize => ⟨by simpa using h, hsize⟩, And.right⟩

/-- The text of an entry with its key on one line: the key, a colon, and the value on the same
    line or indented on the next ones. -/
theorem entriesAt_simple {n : Nat} {k : String} (hk : (Tree.string k).isSimpleKey = true) (t : Tree)
    (entries : List (Tree × Tree)) :
    Tree.entriesAt n [] ((.string k, t) :: entries) = stringChars true (n + 2) k.toList
      ++ ':' :: (endLine (t.bodyAt (.value n)) ++ Tree.entriesAt n (spaces n) entries) := by
  have hbody : (Tree.string k).bodyAt (.simpleKey n) = stringChars true (n + 2) k.toList := rfl
  rw [Tree.entriesAt, if_pos hk, hbody]
  simp

/-- The text of an entry whose key has lines of its own: a question mark before the key, and a
    colon before the value in a line of its own. -/
theorem entriesAt_complex {n : Nat} {k : String} (hk : (Tree.string k).isSimpleKey = false)
    (t : Tree) (entries : List (Tree × Tree)) :
    Tree.entriesAt n [] ((.string k, t) :: entries)
      = '?' :: (endLine ((Tree.string k).bodyAt (.part n)) ++ (spaces n
        ++ ':' :: (endLine (t.bodyAt (.part n)) ++ Tree.entriesAt n (spaces n) entries))) := by
  rw [Tree.entriesAt, if_neg (by rw [hk]; decide)]
  simp

/-- The first entry begins like a token, with its key or with a question mark. -/
theorem startsToken_entriesAt (n : Nat) (k : String) (t : Tree) (entries : List (Tree × Tree))
    (rest : List Char) :
    StartsToken (Tree.entriesAt n [] ((.string k, t) :: entries) ++ rest) := by
  cases hk : (Tree.string k).isSimpleKey with
  | true =>
    rw [entriesAt_simple hk, List.append_assoc]
    exact (writtenAs_string true _ _).startsToken _
  | false =>
    rw [entriesAt_complex hk]
    exact startsToken_cons (by decide) _

/-- **The key of an entry** and the indicator of its value are read, whether the key is on one
    line or not. The scanner then stands before the value; where the key was on one line, the
    dashes of a sequence are not indented. -/
theorem leads_keyOf {n : Nat} (k : String) (t : Tree) (rest : List Char) {s : Scanner}
    {done : Array Token} {indent : Int} {outer : List Int} (hindent : indent ≤ n)
    (h : Ready s done indent outer n true (Tree.entriesAt n [] [(.string k, t)] ++ rest)) :
    ∃ s' p column keyAllowed, Leads s s' ∧ Stands p n column keyAllowed
      ∧ p.dashes = (Tree.string k).isSimpleKey
      ∧ At s' (done ++ (opening indent n .blockMappingStart
          ++ [.key, .scalar k (styleOf (Tree.string k).isSimpleKey k.toList), .value])) n
        (outerAt indent outer n) column keyAllowed (endLine (t.bodyAt p) ++ rest) := by
  cases hk : (Tree.string k).isSimpleKey with
  | true =>
    -- the key is a scalar on one line, and short enough to be found at its colon
    obtain ⟨hline, hsize⟩ := (isSimpleKey_iff k).mp hk
    rw [entriesAt_simple hk, List.append_assoc] at h
    obtain ⟨s', hleads, hat⟩ := leads_key hline hsize (Nat.succ_pos _) h (by
      simpa [Tree.entriesAt] using endsWord_bodyAt rfl t rest) hindent
    simp only [Tree.entriesAt, List.append_nil] at hat
    exact ⟨s', .value n, _, false, hleads, .value (by omega), rfl, hat⟩
  | false =>
    rw [entriesAt_complex hk] at h
    simp only [Tree.entriesAt, List.append_nil, List.cons_append, List.append_assoc] at h
    -- a question mark, the key as a value in lines of its own, and a colon
    obtain ⟨s₁, hleads₁, hat₁⟩ := leads_question h (endsWord_bodyAt rfl _ _) hindent
    obtain ⟨s₂, hleads₂, hrests⟩ := isRead_string k (.part n) hat₁ (startsToken_cons (by decide) _)
      (by omega) (.inr (by omega))
    obtain ⟨s₃, hleads₃, hat₃⟩ := leads_colon (hrests.ready rfl) (endsWord_bodyAt rfl _ _) rfl
    refine ⟨s₃, .part n, n + 1, true, hleads₁.trans (hleads₂.trans hleads₃), .part n, rfl, ?_⟩
    rw [append_append, ← append_snoc] at hat₃
    simpa [tokens] using hat₃

/-- **The entries of a mapping** are read one after the other, if each value is read; nothing is
    asked of the keys, since all strings are read. In the end the block of the mapping is still
    open. -/
theorem leads_entries {n k : Nat} {next : List Char} (hnext : StartsToken next) (hk : k ≤ n)
    {entries : List (String × Value)} (hentries : ∀ e ∈ entries, IsRead e.2) (hne : entries ≠ [])
    {s : Scanner} {done : Array Token} {indent : Int} {outer : List Int} (hindent : indent ≤ n)
    (h : Ready s done indent outer n true
      (Tree.entriesAt n [] (Tree.ofEntries entries) ++ (spaces k ++ next))) :
    ∃ s', Leads s s'
      ∧ Rests s' (done ++ (opening indent n .blockMappingStart ++ entryTokens entries)) n
        (outerAt indent outer n) k next := by
  induction entries generalizing s done indent outer with
  | nil => exact absurd rfl hne
  | cons e entries ih =>
    obtain ⟨key, v⟩ := e
    obtain ⟨hv, hentries⟩ := List.forall_mem_cons.mp hentries
    have htext : Tree.entriesAt n [] (Tree.ofEntries ((key, v) :: entries)) ++ (spaces k ++ next)
        = Tree.entriesAt n [] [(.string key, Tree.ofValue v)]
          ++ (Tree.entriesAt n (spaces n) (Tree.ofEntries entries) ++ (spaces k ++ next)) := by
      simp [Tree.ofEntries, Tree.entriesAt]
    rw [htext] at h
    obtain ⟨s₁, p, column, keyAllowed, hleads₁, hp, hdashes, hat⟩ := leads_keyOf key _ _ hindent h
    -- the last value is followed by `next`, every other one by the next key
    cases entries with
    | nil =>
      obtain ⟨s₂, hleads₂, hrests⟩ := hv hp hat hnext (by omega) (.inr (by omega))
      refine ⟨s₂, hleads₁.trans hleads₂, ?_⟩
      rw [append_append, hdashes] at hrests
      simpa [entryTokens] using hrests
    | cons f entries =>
      obtain ⟨key', w⟩ := f
      have hne : Tree.ofEntries ((key', w) :: entries) ≠ [] := List.cons_ne_nil _ _
      rw [entriesAt_opening n (spaces n) hne, List.append_assoc (spaces n)] at hat
      obtain ⟨s₂, hleads₂, hrests⟩ := hv hp hat (startsToken_entriesAt n key' _ _ _) (by omega)
        (.inr (by omega))
      obtain ⟨s₃, hleads₃, hrests⟩ := ih hentries (List.cons_ne_nil _ _) (Int.le_refl _)
        (hrests.ready rfl)
      refine ⟨s₃, hleads₁.trans (hleads₂.trans hleads₃), ?_⟩
      rw [append_append, append_append, hdashes] at hrests
      simpa [entryTokens] using hrests

/-! ### Collections, and every value

Inside of a collection its block is open. What follows the collection is not as deep as the
collection, so the block is closed before the next token is read.
-/

/-- A sequence is read if its items are. Where it has a block of its own, the block is closed by
    what comes next, which is not as deep. -/
theorem isRead_array {items : List Value} (hitems : ∀ v ∈ items, IsRead v) :
    IsRead (.array items) := by
  cases items with
  | nil => exact isRead_empty true
  | cons v items =>
    intro p indent column keyAllowed s done outer k next hp hat hnext hk hout
    have hne : Tree.ofItems (v :: items) ≠ [] := List.cons_ne_nil _ _
    have hbody : endLine ((Tree.ofValue (.array (v :: items))).bodyAt p)
        = p.opening p.sequenceColumn
          ++ Tree.itemsAt p.sequenceColumn [] (Tree.ofItems (v :: items)) := by
      rw [← itemsAt_opening _ _ hne]
      exact endLine_of_endsLine (endsLine_itemsAt hne)
    rw [hbody, List.append_assoc] at hat
    obtain ⟨hcolumn, hready⟩ := hp.ready_sequence hat (startsToken_cons (by decide) _)
    cases hdashes : p.dashes with
    | true =>
      rw [hdashes] at hcolumn
      -- the dashes are in the column of the open block: nothing is opened or closed
      have hcolumn : indent = p.sequenceColumn := hcolumn
      obtain ⟨s', hleads, hrests⟩ := leads_items hnext (by omega) hitems (List.cons_ne_nil _ _)
        (by omega) hready
      refine ⟨s', hleads, ?_⟩
      rw [← hcolumn] at hrests
      simpa [tokens, opening, outerAt, hcolumn] using hrests
    | false =>
      rw [hdashes] at hcolumn
      -- the dashes are right of the open block: a block is opened, and closed by what is next
      have hcolumn : indent < p.sequenceColumn := hcolumn
      obtain ⟨s', hleads, hrests⟩ := leads_items hnext (by omega) hitems (List.cons_ne_nil _ _)
        (by omega) hready
      rw [outerAt, if_pos hcolumn] at hrests
      refine ⟨s', hleads, ?_⟩
      have hpop := hrests.pop hcolumn
      rw [← append_snoc] at hpop
      simpa [tokens, opening, hcolumn] using hpop

/-- A mapping is read if its values are. Its block is closed by what comes next, which is not as
    deep. -/
theorem isRead_object {entries : List (String × Value)} (hentries : ∀ e ∈ entries, IsRead e.2) :
    IsRead (.object entries) := by
  cases entries with
  | nil => exact isRead_empty false
  | cons e entries =>
    intro p indent column keyAllowed s done outer k next hp hat hnext hk hout
    obtain ⟨key, v⟩ := e
    have hne : Tree.ofEntries ((key, v) :: entries) ≠ [] := List.cons_ne_nil _ _
    have hbody : endLine ((Tree.ofValue (.object ((key, v) :: entries))).bodyAt p)
        = p.opening p.mappingColumn
          ++ Tree.entriesAt p.mappingColumn [] (Tree.ofEntries ((key, v) :: entries)) := by
      rw [← entriesAt_opening _ _ hne]
      exact endLine_of_endsLine (endsLine_entriesAt hne)
    rw [hbody, List.append_assoc] at hat
    obtain ⟨hcolumn, hready⟩ := hp.ready_mapping hat (startsToken_entriesAt _ key _ _ _)
    obtain ⟨s', hleads, hrests⟩ := leads_entries hnext (by omega) hentries (List.cons_ne_nil _ _)
      (by omega) hready
    rw [outerAt, if_pos hcolumn] at hrests
    refine ⟨s', hleads, ?_⟩
    have hpop := hrests.pop hcolumn
    rw [← append_snoc] at hpop
    simpa [tokens, opening, hcolumn] using hpop

mutual

/-- **Every value** whose floats are finite is read. The induction is on the value, together with
    the items and the entries. -/
theorem isRead_of_floatsFinite : ∀ {v : Value}, v.FloatsFinite → IsRead v
  | .null, _ => isRead_null
  | .bool b, _ => isRead_bool b
  | .number _, h => isRead_number h
  | .string t, _ => isRead_string t
  | .array _, h => isRead_array (isRead_items h.2)
  | .object _, h => isRead_object (isRead_entries h.2)

/-- All items of a sequence whose floats are finite are read. -/
theorem isRead_items : ∀ {items : List Value}, Value.EveryItem Value.IsFloatFinite items →
    ∀ v ∈ items, IsRead v
  | [], _ => by simp
  | _ :: _, h => List.forall_mem_cons.mpr ⟨isRead_of_floatsFinite h.1, isRead_items h.2⟩

/-- The values of all entries of a mapping whose floats are finite are read. -/
theorem isRead_entries : ∀ {entries : List (String × Value)},
    Value.EveryEntry Value.IsFloatFinite entries → ∀ e ∈ entries, IsRead e.2
  | [], _ => by simp
  | (_, _) :: _, h => List.forall_mem_cons.mpr ⟨isRead_of_floatsFinite h.1, isRead_entries h.2⟩

end

/-! ### Characters of a written value

The reader refuses a text with a character that may not occur in a document, such as a control
character, before any token is read. The printer writes no such character: a text that has one is
put in double quotes.
-/

/-- Every character of a text may occur in a document. -/
abbrev Allowed (s : List Char) : Prop := ∀ c ∈ s, isAllowed c = true

/-- What can be written as it is may occur. -/
theorem isAllowed_of_isPrintable {c : Char} (h : isPrintable c = true) : isAllowed c = true := by
  unfold isPrintable at h
  unfold isAllowed
  simp only [Bool.or_eq_true, Bool.and_eq_true, decide_eq_true_eq, beq_iff_eq] at h ⊢
  omega

/-- The characters of a given text are checked one after the other. -/
theorem allowed_of_all {s : List Char} (h : s.all isAllowed = true) : Allowed s :=
  List.all_eq_true.mp h

/-- The empty text has no character that may not occur. -/
theorem allowed_nil : Allowed [] := fun _ h => by cases h

/-- Indentation may occur. -/
theorem allowed_spaces (n : Nat) : Allowed (spaces n) := fun c hc => by
  rw [List.eq_of_mem_replicate hc]
  rfl

/-- A character as it stands in double quotes may occur: it is written as it is, or as letters
    and digits after a backslash. -/
theorem allowed_escape (c : Char) : Allowed (escape c) := by
  -- the digits of an escape are taken out of a text all of which is allowed
  have hdigit (n : Nat) : isAllowed (hexDigit n) = true := by
    have hall : Allowed "0123456789ABCDEF".toList := allowed_of_all rfl
    unfold hexDigit
    rw [List.getD_eq_getElem?_getD]
    cases hd : "0123456789ABCDEF".toList[n]? with
    | none => decide
    | some d => exact hall d (List.mem_of_getElem? hd)
  have hdigits (width n : Nat) : Allowed (hexDigits width n) := by
    induction width generalizing n with
    | zero => exact allowed_nil
    | succ width ih => exact List.forall_mem_append.mpr ⟨ih _, by simpa using hdigit _⟩
  unfold escape
  split
  · next h =>
    simp only [Bool.and_eq_true] at h
    exact List.forall_mem_singleton.mpr (isAllowed_of_isPrintable h.1.1.1)
  · refine List.forall_mem_cons.mpr ⟨rfl, ?_⟩
    split <;> try exact allowed_of_all rfl
    split
    · exact List.forall_mem_cons.mpr ⟨rfl, hdigits _ _⟩
    · split
      · exact List.forall_mem_cons.mpr ⟨rfl, hdigits _ _⟩
      · exact List.forall_mem_cons.mpr ⟨rfl, hdigits _ _⟩

/-- What is written for a text in single quotes may occur, if all of the text may. -/
theorem allowed_singleQuotedBody (indent : Nat) (fresh : Bool) {s : List Char} (h : Allowed s) :
    Allowed (singleQuotedBody indent fresh s) := by
  have hspaces (fresh : Bool) : Allowed (if fresh then spaces indent else []) := by
    cases fresh with
    | true => exact allowed_spaces indent
    | false => exact allowed_nil
  induction s generalizing fresh with
  | nil => exact hspaces fresh
  | cons c s ih =>
    obtain ⟨hc, hs⟩ := List.forall_mem_cons.mp h
    rw [singleQuotedBody]
    split
    · exact List.forall_mem_cons.mpr ⟨hc, ih true hs⟩
    · refine List.forall_mem_append.mpr
        ⟨List.forall_mem_append.mpr ⟨hspaces fresh, ?_⟩, ih false hs⟩
      split
      · exact allowed_of_all rfl
      · exact List.forall_mem_singleton.mpr hc

/-- The lines of a literal scalar may occur, if all of the text may. -/
theorem allowed_literalBody (indent : Nat) (fresh : Bool) {s : List Char} (h : Allowed s) :
    Allowed (literalBody indent fresh s) := by
  induction s generalizing fresh with
  | nil => exact allowed_nil
  | cons c s ih =>
    obtain ⟨hc, hs⟩ := List.forall_mem_cons.mp h
    rw [literalBody]
    split
    · exact List.forall_mem_cons.mpr ⟨hc, ih true hs⟩
    · refine List.forall_mem_append.mpr ⟨?_, List.forall_mem_cons.mpr ⟨hc, ih false hs⟩⟩
      split
      · exact allowed_spaces indent
      · exact allowed_nil

/-- The written form of a scalar may occur. A text with a character that may not is written in
    double quotes, where it is escaped. -/
theorem WrittenAs.allowed {column : Nat} {s written : List Char} {style : Style}
    (h : WrittenAs column s style written) : Allowed written := by
  cases h with
  | plain h => exact fun c hc => isAllowed_of_isPrintable (h.printable c hc)
  | singleQuoted h =>
    have hs : Allowed s := fun c hc => isAllowed_of_isPrintable (h.printable c hc)
    exact List.forall_mem_append.mpr ⟨List.forall_mem_cons.mpr ⟨rfl,
      allowed_singleQuotedBody column false hs⟩, allowed_of_all rfl⟩
  | doubleQuoted =>
    refine List.forall_mem_append.mpr ⟨List.forall_mem_cons.mpr ⟨rfl, fun c hc => ?_⟩,
      allowed_of_all rfl⟩
    obtain ⟨d, -, hd⟩ := List.mem_flatMap.mp hc
    exact allowed_escape d c hd
  | literal hne h =>
    have hs : Allowed s := fun c hc => isAllowed_of_isPrintable (h c hc)
    have hmark : Allowed (chompingMark s) := by
      unfold chompingMark
      repeat' split
      all_goals exact allowed_of_all rfl
    have hwidth : Allowed (if s.head?.any fun c => c == ' ' || isBreak c then ['2'] else []) := by
      split <;> exact allowed_of_all rfl
    unfold Yaml.literal
    exact List.forall_mem_append.mpr ⟨List.forall_mem_cons.mpr ⟨rfl,
      List.forall_mem_append.mpr ⟨hwidth, hmark⟩⟩, List.forall_mem_cons.mpr ⟨rfl,
      allowed_literalBody column true hs⟩⟩

/-- The break that ends a line may occur. -/
theorem allowed_endLine {s : List Char} (h : Allowed s) : Allowed (endLine s) := by
  unfold endLine
  split
  · exact h
  · exact List.forall_mem_append.mpr ⟨h, allowed_of_all rfl⟩

/-- What stands before a scalar may occur. -/
theorem allowed_lead (p : Place) : Allowed p.lead := by
  unfold Place.lead
  split <;> exact allowed_of_all rfl

/-- What stands before the first item or entry may occur. -/
theorem allowed_opening (p : Place) (column : Nat) : Allowed (p.opening column) := by
  unfold Place.opening
  split
  · exact allowed_lead p
  · exact List.forall_mem_cons.mpr ⟨rfl, allowed_spaces column⟩

mutual

/-- **Every character of a written value** may occur in a text. -/
theorem allowed_bodyAt : ∀ {v : Value}, v.FloatsFinite → ∀ p : Place,
    Allowed ((Tree.ofValue v).bodyAt p)
  | .null, _, p => List.forall_mem_append.mpr ⟨allowed_lead p,
      (writtenAs_word 0 (s := "null".toList) (by decide)).allowed⟩
  | .bool b, _, p => List.forall_mem_append.mpr ⟨allowed_lead p,
      (writtenAs_word 0 (s := (if b then "true" else "false").toList)
        (by cases b <;> decide)).allowed⟩
  | .number n, h, p => List.forall_mem_append.mpr ⟨allowed_lead p,
      (writtenAs_number 0 fun x hx => by rw [hx] at h; exact h).allowed⟩
  | .string t, _, p => List.forall_mem_append.mpr ⟨allowed_lead p, (writtenAs_string _ _ _).allowed⟩
  | .array [], _, p => List.forall_mem_append.mpr ⟨allowed_lead p, allowed_of_all rfl⟩
  | .object [], _, p => List.forall_mem_append.mpr ⟨allowed_lead p, allowed_of_all rfl⟩
  | .array (_ :: _), h, p => allowed_itemsAt h.2 _ (allowed_opening p _)
  | .object (_ :: _), h, p => allowed_entriesAt h.2 _ (allowed_opening p _)

/-- Every character in the text of the items of a sequence may occur. -/
theorem allowed_itemsAt : ∀ {items : List Value}, Value.EveryItem Value.IsFloatFinite items →
    ∀ (column : Nat) {opening : List Char}, Allowed opening →
      Allowed (Tree.itemsAt column opening (Tree.ofItems items))
  | [], _, _, _, _ => allowed_nil
  | _ :: _, h, column, _, hopening =>
    List.forall_mem_append.mpr ⟨List.forall_mem_append.mpr ⟨hopening, List.forall_mem_cons.mpr
      ⟨rfl, allowed_endLine (allowed_bodyAt h.1 _)⟩⟩, allowed_itemsAt h.2 column (allowed_spaces _)⟩

/-- Every character in the text of the entries of a mapping may occur, those of the keys too. -/
theorem allowed_entriesAt : ∀ {entries : List (String × Value)},
    Value.EveryEntry Value.IsFloatFinite entries → ∀ (column : Nat) {opening : List Char},
      Allowed opening → Allowed (Tree.entriesAt column opening (Tree.ofEntries entries))
  | [], _, _, _, _ => allowed_nil
  | (k, _) :: _, h, column, _, hopening => by
    have hkey (p : Place) : Allowed ((Tree.string k).bodyAt p) :=
      List.forall_mem_append.mpr ⟨allowed_lead p, (writtenAs_string _ _ _).allowed⟩
    have hvalue (p : Place) := allowed_endLine (allowed_bodyAt h.1 p)
    refine List.forall_mem_append.mpr ⟨List.forall_mem_append.mpr ⟨hopening, ?_⟩,
      allowed_entriesAt h.2 column (allowed_spaces _)⟩
    split
    · exact List.forall_mem_append.mpr ⟨hkey _, List.forall_mem_cons.mpr ⟨rfl, hvalue _⟩⟩
    · exact List.forall_mem_append.mpr ⟨List.forall_mem_append.mpr ⟨List.forall_mem_cons.mpr
        ⟨rfl, allowed_endLine (hkey _)⟩, allowed_spaces _⟩,
        List.forall_mem_cons.mpr ⟨rfl, hvalue _⟩⟩

end

/-! ### Whole texts -/

/-- **The token stream of a written value** is that of the value. It ends with the stream, and
    the text has no document mark and no comment. -/
theorem tokenize_render {v : Value} (h : v.FloatsFinite) :
    tokenize (render v).toList = .ok (tokens false v ++ [.streamEnd]) := by
  have hallowed : (Tree.ofValue v).chars.all isAllowed = true :=
    List.all_eq_true.mpr (allowed_endLine (allowed_bodyAt h .root))
  have hat : At (Scanner.start (Tree.ofValue v).chars) #[] (-1) [] 0 true
      (endLine ((Tree.ofValue v).bodyAt .root) ++ (spaces 0 ++ [])) :=
    ⟨rfl, rfl, rfl, rfl, rfl, by simp [Scanner.start, Cursor.start, Tree.chars, spaces], rfl, rfl⟩
  obtain ⟨s', hleads, hrests⟩ := isRead_of_floatsFinite h .root hat startsToken_nil
    (by decide) (.inl rfl)
  obtain ⟨fuel, hfuel, hrun⟩ := hleads ((Tree.ofValue v).chars.length + 1) (Nat.lt_succ_self _)
  rw [render, String.toList_ofList, tokenize, if_pos hallowed, hrun, run_end hrests (by omega)]
  simp

end SchemaEmbed.Yaml
