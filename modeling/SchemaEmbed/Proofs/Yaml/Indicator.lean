import SchemaEmbed.Proofs.Yaml.Scanner

namespace SchemaEmbed.Yaml.Scanner

/-!
# Indicators of block and flow collections

What is read at a dash, a question mark, a colon and at the brackets and braces of an empty
collection, and at the end of the text:

* `leads_dash` / `leads_question` / `leads_colon` — the indicators of block collections, the first
  of which open a block;
* `leads_empty` — an empty collection;
* `run_end` — the end of the text, which closes all blocks.

The tokens that open and close blocks are not written: they are due to the columns of the
indicators, and to where a key turns out to have stood. So the state of the scanner has the columns
of the blocks that are open, and the place at which a key may have begun.
-/

section

variable {s : Scanner} {tokens : Array Token} {indent : Int} {outer : List Int} {column : Nat}
  {keyAllowed : Bool} {rest : List Char}

/-! ### The token that begins here

A step of the scanner goes to the next token, closes the blocks that end before it, and reads it.
`Ready` says where the first two of these lead; what is left is a look at the first characters,
which is the same for any state that is there.
-/

/-- A ready scanner reads the token that begins here, after what is skipped before it. -/
theorem Ready.next (h : Ready s tokens indent outer column keyAllowed rest) :
    ∃ s', s.next = s'.token ∧ At s' tokens indent outer column keyAllowed rest
      ∧ rest.length ≤ s.cursor.rest.length := by
  obtain ⟨s', happroach, hlength, hat⟩ := h
  refine ⟨_, ?_, hat, hlength⟩
  rw [Scanner.next, happroach]
  rfl

/-- In the text of a block no flow collection is open: there is no place of a key put aside. -/
theorem At.inFlow (h : At s tokens indent outer column keyAllowed rest) : s.inFlow = false := by
  rw [Scanner.inFlow, h.places]
  rfl

/-- The place of a key is forgotten; that is no error where no key must begin. -/
theorem At.dropPlace (h : At s tokens indent outer column keyAllowed rest) :
    ∃ place, s.dropPlace = .ok { s with place } ∧ place.possible = false := by
  refine ⟨{ s.place with possible := false }, ?_, rfl⟩
  rw [Scanner.dropPlace, h.place]
  rfl

/-- A character other than a dash or a point begins no document indicator, wherever in the line
    it stands. -/
theorem At.not_documentIndicator {c : Char}
    (h : At s tokens indent outer column keyAllowed (c :: rest)) (hc : c ≠ '-' ∧ c ≠ '.') :
    s.cursor.atDocumentIndicator = false := by
  have hnot : isDocumentIndicator (c :: rest) = false := by
    unfold isDocumentIndicator
    split
    · next heq => exact absurd (List.cons.inj heq).1 hc.1
    · next heq => exact absurd (List.cons.inj heq).1 hc.2
    · rfl
  rw [Cursor.atDocumentIndicator, h.rest, hnot, Bool.and_false]

/-- A dash that ends a word begins no document indicator, which would have two more of them. -/
theorem At.not_documentIndicator_dash
    (h : At s tokens indent outer column keyAllowed ('-' :: rest)) (hrest : endsWord rest = true) :
    s.cursor.atDocumentIndicator = false := by
  have hnot : isDocumentIndicator ('-' :: rest) = false := by
    unfold isDocumentIndicator
    split
    · next heq =>
      rw [(List.cons.inj heq).2] at hrest
      cases hrest
    · next heq => cases heq
    · rfl
  rw [Cursor.atDocumentIndicator, h.rest, hnot, Bool.and_false]

/-- A dash that ends a word stands before an item; otherwise it could begin a number or a word. -/
theorem At.token_dash (h : At s tokens indent outer column keyAllowed ('-' :: rest))
    (hrest : endsWord rest = true) : s.token = s.blockEntry := by
  unfold token
  rw [h.rest]
  simp [h.not_documentIndicator_dash hrest, hrest]

/-- A question mark that ends a word stands before a key. -/
theorem At.token_question (h : At s tokens indent outer column keyAllowed ('?' :: rest))
    (hrest : endsWord rest = true) : s.token = s.keyIndicator := by
  unfold token
  rw [h.rest]
  simp [h.not_documentIndicator (by decide), hrest]

/-- A colon that ends a word stands before a value. Here only the rest is known and not the whole
    state, since the colon after a key is read in another one. -/
theorem token_colon (hc : s.cursor.rest = ':' :: rest) (hrest : endsWord rest = true) :
    s.token = s.valueIndicator := by
  have hmark : s.cursor.atDocumentIndicator = false := by
    rw [Cursor.atDocumentIndicator, hc]
    exact Bool.and_false _
  unfold token
  rw [hc]
  simp [hmark, hrest]

/-! ### Blocks

A block is opened by the token before its first entry, in front of the tokens that came since the
place where a key may have begun. A second entry in the same column opens nothing, so that one
lemma for each indicator is enough, with `opening` for the token that may come first.
-/

/-- A token is inserted in front of those that came since. The scanner finds the number of tokens
    in the place of the key and inserts there. -/
theorem insertIdx_append (tokens : Array Token) (t : Token) (since : List Token) :
    (tokens ++ since).insertIdxIfInBounds tokens.size t = tokens.push t ++ since := by
  have hlist (before : List Token) :
      (before ++ since).insertIdx before.length t = before ++ t :: since := by
    induction before with
    | nil => rfl
    | cons a before ih => simp [ih]
  -- both sides as lists
  apply Array.ext'
  simp [Array.insertIdxIfInBounds, Array.toList_insertIdx, ← Array.length_toList, hlist]

/-- Appending no tokens changes nothing. -/
theorem append_nil (tokens : Array Token) : tokens ++ ([] : List Token) = tokens :=
  Array.ext' (by simp)

/-- Tokens are appended to tokens that were appended. -/
theorem append_append (tokens : Array Token) (ts us : List Token) :
    tokens ++ ts ++ us = tokens ++ (ts ++ us) :=
  Array.ext' (by simp)

/-- A token is appended behind tokens that were appended. -/
theorem append_snoc (tokens : Array Token) (ts : List Token) (t : Token) :
    tokens ++ (ts ++ [t]) = (tokens ++ ts).push t :=
  Array.ext' (by simp)

/-- A token is inserted behind all others. -/
theorem insertIdx_size (tokens : Array Token) (t : Token) :
    tokens.insertIdxIfInBounds tokens.size t = tokens.push t := by
  simpa using insertIdx_append tokens t []

/-- The token that opens a block at a column, unless it is open. As a list, it is there or not in
    one and the same equation. -/
def opening (indent : Int) (column : Nat) (t : Token) : List Token :=
  if indent < column then [t] else []

/-- The other open blocks, once one is open at a column: a new one is opened within the last. -/
def outerAt (indent : Int) (outer : List Int) (column : Nat) : List Int :=
  if indent < column then indent :: outer else outer

/-- A block that is open already is not opened again. -/
@[simp] theorem opening_self (column : Nat) (t : Token) : opening column column t = [] := by
  simp [opening]

/-- If a block is open at a column already, the other open blocks are the same. -/
@[simp] theorem outerAt_self (outer : List Int) (column : Nat) :
    outerAt column outer column = outer := by
  simp [outerAt]

/-- **A block is open** at the column of an indicator, whether it was before or not. Of the state
    only the tokens and the columns change. -/
theorem At.openBlock (h : At s tokens indent outer column keyAllowed rest) (hle : indent ≤ column)
    (t : Token) :
    At (s.openBlock column s.tokens.size t) (tokens ++ opening indent column t) column
      (outerAt indent outer column) column keyAllowed rest := by
  unfold Scanner.openBlock opening outerAt
  rw [h.inFlow, h.indent]
  -- either the block is opened here, or it is the one that is open
  by_cases hlt : indent < column
  · rw [decide_eq_true hlt, if_pos hlt, if_pos hlt]
    refine ⟨?_, rfl, by rw [← h.outer]; rfl, h.column, h.keyAllowed, h.rest, h.place, h.places⟩
    show s.tokens.insertIdxIfInBounds s.tokens.size t = tokens ++ [t]
    rw [insertIdx_size, h.tokens]
    rfl
  · rw [decide_eq_false hlt, if_neg hlt, if_neg hlt]
    have hself : s.indent = column := by
      rw [h.indent]
      omega
    exact ⟨h.tokens.trans (append_nil _).symm, hself, h.outer, h.column, h.keyAllowed, h.rest,
      h.place,
      h.places⟩

/-- A token of one character is read, after which a key may begin. What the indicators differ in
    is how the scanner comes to that state, which is the last hypothesis. -/
theorem leads_indicator {s' : Scanner} {c : Char} {t : Token} (ht : t ≠ .streamEnd)
    (h : At s' tokens indent outer column keyAllowed (c :: rest))
    (hlength : (c :: rest).length ≤ s.cursor.rest.length) {place : KeyPlace}
    (hplace : place.possible = false)
    (hnext : s.next = .ok (({ s' with place, keyAllowed := true }.push t).advance 1)) :
    ∃ s'', Leads s s'' ∧ At s'' (tokens.push t) indent outer (column + 1) true rest := by
  have hrest : (s'.cursor.advance 1).rest = rest := by
    rw [Cursor.rest_advance, h.rest]
    rfl
  refine ⟨_, Leads.of_next hnext ?_ ?_, ?_, h.indent, h.outer, ?_, rfl, hrest, hplace, h.places⟩
  · show (s'.cursor.advance 1).rest.length < _
    rw [hrest]
    exact hlength
  · show (s'.tokens.push t).back? ≠ _
    simpa using ht
  · show s'.tokens.push t = _
    rw [h.tokens]
  · show (s'.cursor.advance 1).column = _
    rw [Cursor.column_advance, h.column]

/-- **A dash** before an item is read; the first one may open the sequence. What follows it on
    the line stands two columns further and may be a block of its own. -/
theorem leads_dash (h : Ready s tokens indent outer column true ('-' :: rest))
    (hrest : endsWord rest = true) (hindent : indent ≤ column) :
    ∃ s', Leads s s' ∧
      At s' (tokens ++ (opening indent column .blockSequenceStart ++ [.blockEntry]))
      column (outerAt indent outer column) (column + 1) true rest := by
  obtain ⟨s', hnext, hat, hlength⟩ := h.next
  have hopen := hat.openBlock hindent .blockSequenceStart
  obtain ⟨place, hdrop, hplace⟩ := hopen.dropPlace
  rw [append_snoc]
  refine leads_indicator (by simp) hopen hlength hplace ?_
  rw [hnext, hat.token_dash hrest, blockEntry, hat.keyAllowed, hat.column]
  simp [hdrop, Functor.map, Except.map]

/-- **A question mark** before a key is read; the first one may open the mapping. So a key that
    has lines of its own is written. -/
theorem leads_question (h : Ready s tokens indent outer column true ('?' :: rest))
    (hrest : endsWord rest = true) (hindent : indent ≤ column) :
    ∃ s', Leads s s' ∧ At s' (tokens ++ (opening indent column .blockMappingStart ++ [.key])) column
      (outerAt indent outer column) (column + 1) true rest := by
  obtain ⟨s', hnext, hat, hlength⟩ := h.next
  have hopen := hat.openBlock hindent .blockMappingStart
  obtain ⟨place, hdrop, hplace⟩ := hopen.dropPlace
  have hflow :
      ({ s'.openBlock column s'.tokens.size .blockMappingStart with place } : Scanner).inFlow
        = false := hopen.inFlow
  rw [append_snoc]
  refine leads_indicator (by simp) hopen hlength hplace ?_
  rw [hnext, hat.token_question hrest, keyIndicator, hat.keyAllowed, hat.column]
  simp [hdrop, Functor.map, Except.map, hflow]

/-- **A colon** before the value of a key that has lines of its own is read, and opens no block:
    the mapping was opened by the question mark in the same column. -/
theorem leads_colon (h : Ready s tokens indent outer column true (':' :: rest))
    (hrest : endsWord rest = true) (hindent : indent = column) :
    ∃ s', Leads s s' ∧ At s' (tokens.push .value) indent outer (column + 1) true rest := by
  obtain ⟨s', hnext, hat, hlength⟩ := h.next
  have hself (t : Token) : s'.openBlock column s'.tokens.size t = s' := by
    rw [Scanner.openBlock, hat.indent, decide_eq_false (by omega), Bool.and_false]
    rfl
  refine leads_indicator (by simp) hat hlength hat.place ?_
  rw [hnext, token_colon hat.rest hrest, valueIndicator, hat.place, hat.keyAllowed,
    hat.column, hself]
  simp [hat.inFlow]

/-! ### Empty collections

An empty collection is written in brackets or braces even where blocks are written otherwise, and
inside of it the scanner is in another state: it keeps a place of a key for every collection that
is open. What comes out of it is the state before, two characters further.
-/

/-- The place of a key that begins here. It is required if it is the column of the open block,
    where nothing but a key can stand. -/
def keyPlace (s : Scanner) : KeyPlace :=
  ⟨true, s.indent == (s.cursor.column : Int), s.tokens.size, s.cursor.index, s.cursor.line,
    s.cursor.column⟩

/-- The place of a key is remembered where one may begin. -/
theorem At.savePlace (h : At s tokens indent outer column keyAllowed rest) :
    s.savePlace = .ok { s with place := if keyAllowed then s.keyPlace else s.place } := by
  obtain ⟨place, hdrop, -⟩ := h.dropPlace
  have hflow : ({ s with place } : Scanner).inFlow = false := h.inFlow
  cases hallowed : keyAllowed with
  | false =>
    have hkey : ¬ s.keyAllowed = true := by rw [h.keyAllowed, hallowed]; decide
    unfold Scanner.savePlace
    rw [if_neg hkey]
    rfl
  | true =>
    have hkey : s.keyAllowed = true := h.keyAllowed.trans hallowed
    unfold Scanner.savePlace
    rw [if_pos hkey, hdrop]
    simp [Functor.map, Except.map, hflow, keyPlace]

/-- A key could begin at the remembered place only if it could begin here. -/
theorem At.of_savedPlace (h : At s tokens indent outer column keyAllowed rest) {place : KeyPlace}
    (hplace : place = if keyAllowed then s.keyPlace else s.place)
    (hpossible : place.possible = true) :
    place = s.keyPlace := by
  cases keyAllowed with
  | true => exact hplace
  | false =>
    rw [hplace, if_neg (by decide), h.place] at hpossible
    cases hpossible

/-- The two tokens of an empty collection. -/
def emptyTokens (sequence : Bool) : Token × Token :=
  if sequence then (.flowSequenceStart, .flowSequenceEnd) else (.flowMappingStart, .flowMappingEnd)

/-- The two characters of an empty collection. -/
def emptyChars (sequence : Bool) : Char × Char := if sequence then ('[', ']') else ('{', '}')

/-- The scanner behind the opening indicator of an empty collection, outside of which a key may
    begin at a place. Inside, a key may begin anywhere. -/
def flowOpened (s : Scanner) (place : KeyPlace) (sequence : Bool) : Scanner :=
  ({ s with place := .none, places := [place], keyAllowed := true }.push
    (emptyTokens sequence).1).advance 1

/-- The scanner behind the closing indicator, with the place as it was before the collection. -/
def flowClosed (s : Scanner) (place : KeyPlace) (sequence : Bool) : Scanner :=
  ({ s with place := place, places := [], keyAllowed := false }.push
    (emptyTokens sequence).2).advance 1

section Empty

variable {sequence : Bool} {n : Nat} {next : List Char} {place : KeyPlace}
  (h : At s tokens indent outer column keyAllowed
    ((emptyChars sequence).1 :: (emptyChars sequence).2 :: '\n' :: (spaces n ++ next)))
  (hplace : place = if keyAllowed then s.keyPlace else s.place)

include h hplace

/-- The opening indicator is read, and the place of a key before it is put aside: the collection
    may turn out to be a key. -/
theorem At.token_flowStart : s.token = .ok (s.flowOpened place sequence) := by
  have hmark := h.not_documentIndicator (by cases sequence <;> decide)
  have htoken : s.token = s.flowStart (emptyTokens sequence).1 := by
    unfold token
    rw [h.rest]
    cases sequence <;> simp [hmark, emptyChars, emptyTokens]
  rw [htoken, flowStart, h.savePlace, ← hplace, flowOpened]
  simp [h.places, Functor.map, Except.map]

omit hplace in
/-- The closing indicator follows at once. -/
theorem At.rest_flowOpened : (s.flowOpened place sequence).cursor.rest
    = (emptyChars sequence).2 :: '\n' :: (spaces n ++ next) := by
  show (s.cursor.advance 1).rest = _
  rw [Cursor.rest_advance, h.rest]
  rfl

/-- Between the indicators there is nothing to skip, and the place that was put aside is not stale:
    it is on this line. -/
theorem At.approach_flowOpened :
    (s.flowOpened place sequence).approach = .ok (s.flowOpened place sequence) := by
  have hstarts : StartsToken (s.flowOpened place sequence).cursor.rest := by
    rw [h.rest_flowOpened]
    cases sequence <;> exact startsToken_cons (by decide) _
  have hskip : (s.flowOpened place sequence).skipToToken
      ((s.flowOpened place sequence).cursor.rest.length + 1) = s.flowOpened place sequence :=
    skipToToken_spaces _ (n := 0) rfl hstarts
  rw [approach, hskip]
  refine dropStale_self fun p hp => ?_
  have hp : p = .none ∨ p = place := by simpa [flowOpened, push, advance] using hp
  obtain rfl | rfl := hp
  · rfl
  · -- a place that a key could begin at is this one, on the same line
    cases hpossible : p.possible with
    | false => rw [isStale, hpossible, Bool.false_and]
    | true =>
      rw [h.of_savedPlace hplace hpossible]
      simp [isStale, keyPlace, flowOpened, push, advance]

/-- The closing indicator is read, and the place is what it was. -/
theorem At.next_flowEnd : (s.flowOpened place sequence).next
    = .ok ((s.flowOpened place sequence).flowClosed place sequence) := by
  have hrest : (s.flowOpened place sequence).cursor.rest = _ := h.rest_flowOpened
  have hmark : (s.flowOpened place sequence).cursor.atDocumentIndicator = false := by
    rw [Cursor.atDocumentIndicator, hrest]
    cases sequence <;> exact Bool.and_false _
  have htoken : (s.flowOpened place sequence).token
      = (s.flowOpened place sequence).flowEnd (emptyTokens sequence).2 := by
    unfold token
    rw [hrest]
    cases sequence <;> simp [hmark, emptyChars, emptyTokens]
  rw [Scanner.next, h.approach_flowOpened hplace]
  show ((s.flowOpened place sequence).closeBlocks _).token = _
  -- within a flow collection no block is closed
  have hflow : (s.flowOpened place sequence).inFlow = true := rfl
  rw [Scanner.closeBlocks, if_pos hflow, htoken]
  rfl

/-- Behind the collection a key could begin at its place only if it could begin before it, and in
    the block that is open none has to. -/
theorem At.ended_flowClosed (hlt : indent < column) :
    Ended ((s.flowOpened place sequence).flowClosed place sequence)
      ((tokens.push (emptyTokens sequence).1).push (emptyTokens sequence).2) indent outer := by
  refine ⟨?_, h.indent, h.outer, rfl, fun hpossible => ?_⟩
  · rw [← h.tokens]
    rfl
  · have hpossible : place.possible = true := hpossible
    show place.required = false ∧ _
    rw [h.of_savedPlace hplace hpossible]
    refine ⟨?_, Nat.le_refl _⟩
    show (s.indent == (s.cursor.column : Int)) = false
    rw [h.indent, h.column, beq_eq_false_iff_ne]
    omega

end Empty

/-- **An empty collection** is read up to the next line: its two indicators give a token each,
    and nothing is left of them but the place of a key before them. The two steps are `hopen` and
    `hclose`. -/
theorem leads_empty (sequence : Bool) {n : Nat} {next : List Char}
    (h : Ready s tokens indent outer column keyAllowed
      ((emptyChars sequence).1 :: (emptyChars sequence).2 :: '\n' :: (spaces n ++ next)))
    (hnext : StartsToken next) (hlt : indent < column) :
    ∃ s', Leads s s'
      ∧ Rests s' ((tokens.push (emptyTokens sequence).1).push (emptyTokens sequence).2)
        indent outer n next := by
  obtain ⟨s₁, hnext₁, hat, hlength⟩ := h.next
  obtain ⟨place, hplace⟩ :
      ∃ place, place = if keyAllowed then s₁.keyPlace else s₁.place := ⟨_, rfl⟩
  have hrest : (s₁.flowOpened place sequence).cursor.rest = _ := hat.rest_flowOpened
  have hended := hat.ended_flowClosed hplace hlt
  have hrest' : ((s₁.flowOpened place sequence).flowClosed place sequence).cursor.rest
      = '\n' :: (spaces n ++ next) := by
    show ((s₁.flowOpened place sequence).cursor.advance 1).rest = _
    rw [Cursor.rest_advance, hrest]
    rfl
  have hopen : Leads s (s₁.flowOpened place sequence) := by
    refine Leads.of_next (hnext₁.trans (hat.token_flowStart hplace)) ?_ ?_
    · rw [hrest]
      exact hlength
    · show (s₁.tokens.push _).back? ≠ _
      cases sequence <;> simp [emptyTokens]
  have hclose : Leads (s₁.flowOpened place sequence)
      ((s₁.flowOpened place sequence).flowClosed place sequence) := by
    refine Leads.of_next (hat.next_flowEnd hplace) ?_ ?_
    · rw [hrest, hrest']
      exact Nat.lt_succ_self _
    · rw [hended.tokens]
      cases sequence <;> simp [emptyTokens]
  exact ⟨_, hopen.trans hclose, hended.rests_line hrest' hnext⟩

/-! ### The end of the text

The end of the text stands at column 0, and no block is open further to the right: so the blocks
that are left are closed there, and the outermost one, if there is one, by the end itself.
-/

/-- Closing blocks twice is closing the more of them. -/
theorem closeBlocksFrom_closeBlocksFrom {column column' : Int} (h : column' ≤ column) :
    closeBlocksFrom column' (closeBlocksFrom column indent outer tokens).1
      (closeBlocksFrom column indent outer tokens).2.1
      (closeBlocksFrom column indent outer tokens).2.2
        = closeBlocksFrom column' indent outer tokens := by
  induction outer generalizing indent tokens with
  | nil => rfl
  | cons next outer ih =>
    -- either the first column closes the innermost block, or it closes none
    by_cases hlt : column < indent
    · rw [closeBlocksFrom, if_pos hlt, ih, closeBlocksFrom, if_pos (by omega)]
    · rw [closeBlocksFrom_self (by omega : indent ≤ column)]

/-- **At the end of the text** all blocks are closed, and no more tokens are read. -/
theorem run_end (h : Rests s tokens (-1) [] 0 []) {fuel : Nat} (hfuel : 0 < fuel) :
    s.run fuel = .ok (tokens.push .streamEnd).toList := by
  obtain ⟨fuel, rfl⟩ : ∃ k, fuel = k + 1 := ⟨fuel - 1, by omega⟩
  obtain ⟨s', tokens', indent', outer', happroach, -, hat, hclose⟩ := h
  have hfinal : closeBlocksFrom (-1) indent' outer' tokens' = (-1, [], tokens) :=
    hclose (-1) (by omega)
  have hclosed : At (s'.closeBlocks 0) (closeBlocksFrom 0 indent' outer' tokens').2.2
      (closeBlocksFrom 0 indent' outer' tokens').1 (closeBlocksFrom 0 indent' outer' tokens').2.1
      0 true [] :=
    hat.closeBlocks rfl
  -- the blocks are closed twice, for the column at which the text ends and for its end
  have hall := hclosed.closeBlocks ((closeBlocksFrom_closeBlocksFrom (by omega)).trans hfinal)
  have hcol : (s'.cursor.column : Int) = 0 := by
    rw [hat.column]
    rfl
  obtain ⟨place, hdrop, -⟩ := hall.dropPlace
  have hnext : s.next = .ok
      ({ (s'.closeBlocks 0).closeBlocks (-1) with place, keyAllowed := false }.push
        .streamEnd) := by
    rw [Scanner.next, happroach]
    show (s'.closeBlocks s'.cursor.column).token = _
    rw [hcol]
    have hrest : (s'.closeBlocks 0).cursor.rest = [] := hclosed.rest
    unfold token
    rw [hrest]
    show (s'.closeBlocks 0).streamEnd = _
    rw [Scanner.streamEnd, hdrop]
    rfl
  -- the end of the stream is the token that stops the run
  rw [run, hnext, ok_bind, if_pos (by simp [push])]
  simp [push, hall.tokens, pure, Except.pure]

end

end SchemaEmbed.Yaml.Scanner
